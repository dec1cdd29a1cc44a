import Foreman.Task

/-!
# Plans and runs

A plan is a frozen work graph: its nodes are numbered, and edges are numbers of nodes. A
`Progress` is how far its execution has come. A run is a plan at work: the plan, its progress, and
the exports of its build. What other builds have published is read through a `Foreign` view.
-/

namespace Foreman

/-- A node with all that its execution needs. -/
structure PlannedNode where
  work : Work
  /-- The number of the batch that brought the node in. -/
  ordinal : Nat
  /-- Requested, or needed by something requested. -/
  required : Bool
  footprint : Footprint
  /-- The nodes that have to succeed first. -/
  dependencies : List Nat
  /-- The nodes that depend on this one. -/
  dependents : List Nat
  /-- Nodes that only come first in order. -/
  runAfter : List Nat
  /-- The nodes that this one finalizes. -/
  finalizes : List Nat
  /-- Tasks of other builds that come first in order, if they run at all. -/
  afterExports : List (BuildId × TaskPath)
  /-- Other builds may wait for the node. -/
  exported : Bool

namespace PlannedNode

def key (n : PlannedNode) : NodeKey := n.work.key

def task? (n : PlannedNode) : Option TaskDefinition :=
  match n.work with
  | .task definition => some definition
  | .foreign .. => none

def ignoresFailures (n : PlannedNode) : Bool := n.task?.any (·.ignoreFailures)

def lockKeys (n : PlannedNode) (build : BuildId) (locks : ProjectLocks) : List ResourceKey :=
  match n.task? with
  | some t => locks.taskLocks ⟨build, t.path.project⟩ t.isolated t.shared
  | none => []

def ownState? (n : PlannedNode) (build : BuildId) (locks : ProjectLocks) : Option ResourceKey :=
  match n.task? with
  | some t => if t.isolated then none else some (locks.stateLock ⟨build, t.path.project⟩)
  | none => none

def exportPath? (n : PlannedNode) : Option TaskPath :=
  if n.exported then n.task?.map (·.path) else none

end PlannedNode

/-- A frozen work graph. -/
structure Plan where
  build : BuildId
  nodes : Array PlannedNode

namespace Plan

def size (p : Plan) : Nat := p.nodes.size

def position? (p : Plan) (key : NodeKey) : Option Nat := p.nodes.findIdx? (·.key = key)

def dependencies (p : Plan) (i : Nat) : List Nat := (p.nodes[i]?.map (·.dependencies)).getD []

end Plan

/-- Change a state, if the change is allowed. -/
def NodeState.become (old new : NodeState) : Except GraphError NodeState :=
  if old.canBecome new then .ok new
  else .error (.illegalState .changeNodeState (.noMove old new))

/-- How far the execution of a plan has come. -/
structure Progress where
  states : Array NodeState
  /-- The failed nodes whose failure is to be ignored. -/
  tolerated : List Nat
  /-- The running nodes, in the order of their start. -/
  running : List Nat
  failures : List BuildFailure
  /-- How many nodes are not yet in a terminal state. -/
  remaining : Nat
  /-- The first move that was tried and is not allowed. -/
  error : Option GraphError
  deriving Repr

namespace Progress

def start (p : Plan) : Progress where
  states := Array.replicate p.size .scheduled
  tolerated := []
  running := []
  failures := []
  remaining := p.size
  error := none

def state? (s : Progress) (i : Nat) : Option NodeState := s.states[i]?

def isIn (s : Progress) (i : Nat) (state : NodeState) : Bool := s.state? i = some state

def isDone (s : Progress) (i : Nat) : Bool := (s.state? i).any (·.isTerminal)

/-- A dependency that lets its dependents run. -/
def satisfies (s : Progress) (i : Nat) : Bool :=
  s.isIn i .succeeded || s.isIn i .failed && i ∈ s.tolerated

/-- A dependency that keeps its dependents from running. -/
def blocks (s : Progress) (i : Nat) : Bool :=
  s.isIn i .skipped || s.isIn i .mustNotRun || s.isIn i .failed && i ∉ s.tolerated

/-- Move a node to a new state. A move that is not allowed changes nothing and is kept as the
error of the run. -/
def move (s : Progress) (i : Nat) (new : NodeState) : Progress :=
  match s.state? i with
  | none => s
  | some old =>
    match old.become new with
    | .ok new =>
      { s with
        states := s.states.setIfInBounds i new
        remaining :=
          if !old.isTerminal && new.isTerminal then s.remaining - 1 else s.remaining }
    | .error e => { s with error := s.error.or (some e) }

end Progress

/-! ## Runs -/

/-- The outcomes that other builds have published. -/
abbrev Foreign := BuildId → TaskPath → Option ExportOutcome

/-- A plan at work. -/
structure Run where
  plan : Plan
  progress : Progress
  exports : Exports

namespace Run

def start (plan : Plan) (exports : Exports) : Run := ⟨plan, .start plan, exports⟩

def indices (r : Run) : List Nat := List.range r.plan.size

def move (r : Run) (i : Nat) (new : NodeState) : Run :=
  { r with progress := r.progress.move i new }

def publish (r : Run) (i : Nat) (outcome : ExportOutcome) : Run :=
  match (r.plan.nodes[i]?).bind (·.exportPath?) with
  | some path => { r with exports := r.exports.publish path outcome }
  | none => r

/-- A node that moves to a state in which it will not run is published as not executed. -/
def moveAndPublish (r : Run) (i : Nat) (new : NodeState) : Run :=
  if new.isTerminal then (r.move i new).publish i .notExecuted else r.move i new

def abandonExports (r : Run) : Run := r.indices.foldl (fun r i => r.publish i .notExecuted) r

def isOver (r : Run) : Bool := r.progress.states.all (·.isTerminal)

end Run

end Foreman
