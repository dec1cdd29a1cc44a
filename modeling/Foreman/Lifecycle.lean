/-!
# Life cycles

The states of a node, the phases of a work graph and the states of a build's controller. All three
only move forward. `NodeState.canBecome` lists the moves a node may make.
-/

namespace Foreman

/-- Where a node of a work graph stands. -/
inductive NodeState
  /-- Referred to by something, but not part of the run. -/
  | notScheduled
  /-- Requested, but not yet part of the run. -/
  | queued
  /-- Part of the run, waiting for its predecessors. -/
  | scheduled
  /-- All predecessors are done; waiting for a worker and its locks. -/
  | ready
  | running
  | succeeded
  | failed
  /-- Did not run because a dependency failed or the run stopped early. -/
  | skipped
  /-- Did not run because nothing that ran needed it. -/
  | mustNotRun
  deriving DecidableEq, Repr

namespace NodeState

def all : List NodeState :=
  [notScheduled, queued, scheduled, ready, running, succeeded, failed, skipped, mustNotRun]

def text : NodeState → String
  | notScheduled => "NotScheduled"
  | queued => "Queued"
  | scheduled => "Scheduled"
  | ready => "Ready"
  | running => "Running"
  | succeeded => "Succeeded"
  | failed => "Failed"
  | skipped => "Skipped"
  | mustNotRun => "MustNotRun"

def named? (name : String) : Option NodeState := all.find? (·.text = name)

/-- No move leads out of the state. -/
def isTerminal : NodeState → Bool
  | succeeded | failed | skipped | mustNotRun => true
  | _ => false

/-- The node's work was really done. -/
def executed : NodeState → Bool
  | succeeded | failed => true
  | _ => false

/-- The node is part of the run. -/
def isScheduled : NodeState → Bool
  | notScheduled | queued => false
  | _ => true

def moves : NodeState → List NodeState
  | notScheduled => [queued, scheduled]
  | queued => [scheduled]
  | scheduled => [ready, skipped, mustNotRun]
  | ready => [running, skipped, mustNotRun]
  | running => [succeeded, failed]
  | succeeded | failed | skipped | mustNotRun => []

/-- Whether a node may be in state `new` next. Staying is always allowed. -/
def canBecome (old new : NodeState) : Bool := old = new || new ∈ moves old

end NodeState

inductive GraphPhase
  | populating
  | finalized
  | running
  | completed
  deriving DecidableEq, Repr

def GraphPhase.text : GraphPhase → String
  | populating => "populating"
  | finalized => "finalized"
  | running => "running"
  | completed => "completed"

/-- How far a build has come in its tree. -/
inductive ControllerState
  /-- Tasks are requested and scheduled, possibly again and again. -/
  | discoveringTasks
  /-- The work graph is frozen. -/
  | readyToRun
  /-- Execution was handed to an executor. -/
  | runningTasks
  /-- The failures of the execution were collected. -/
  | finished
  deriving DecidableEq, Repr

def ControllerState.text : ControllerState → String
  | discoveringTasks => "discovering tasks"
  | readyToRun => "ready to run"
  | runningTasks => "running tasks"
  | finished => "finished"

end Foreman
