import Foreman.Digraph
import Foreman.Run.Demand

/-!
# Settling

Before a worker chooses a node, every waiting node is moved as far as it can go: a node becomes
ready when its predecessors are done, is skipped when a dependency keeps it from running or the run
stops, and must not run when nothing needs it. `Run.settle` sweeps over the nodes until a sweep
changes nothing; each change lowers `Progress.waiting`.
-/

namespace Foreman

/-- What a settling pass goes by: whether the run is to stop, whether order is relaxed (a node may
overtake predecessors in order that are not yet known to be needed), and what other builds have
published. -/
structure Outlook where
  stop : Bool
  relaxed : Bool
  foreign : Foreign

namespace Run

def isPublished (o : Outlook) (task : BuildId × TaskPath) : Bool := (o.foreign task.1 task.2).isSome

/-- Whether the nodes that only come first in order let a node go on. -/
def orderDone (r : Run) (o : Outlook) : List Nat → Plan.Memo → Bool × Plan.Memo
  | [], memo => (true, memo)
  | p :: ps, memo =>
    if r.progress.isDone p then r.orderDone o ps memo
    else if o.relaxed then
      let (d, memo) := r.plan.demandMemo r.progress.states (r.plan.size + 1) p memo
      if d = .pending then r.orderDone o ps memo else (false, memo)
    else (false, memo)

/-- The next state of a scheduled node, if it can move. -/
def advance (r : Run) (o : Outlook) (i : Nat) (n : PlannedNode) (memo : Plan.Memo) :
    Option NodeState × Plan.Memo :=
  if o.stop then (some .skipped, memo)
  else
    let (d, memo) := r.plan.demandMemo r.progress.states (r.plan.size + 1) i memo
    if d = .unwanted then (some .mustNotRun, memo)
    else if n.dependencies.any r.progress.blocks then (some .skipped, memo)
    else if d = .pending then (none, memo)
    else if n.dependencies.all r.progress.satisfies && n.finalizes.all r.progress.isDone then
      let (done, memo) := r.orderDone o n.runAfter memo
      (if done && n.afterExports.all (isPublished o) then some .ready else none, memo)
    else (none, memo)

/-- Move one waiting node, if it can move. What was noted about demand holds until a node moves. -/
def settleNode (o : Outlook) (state : Run × Plan.Memo) (i : Nat) : Run × Plan.Memo :=
  let (r, memo) := state
  match r.progress.state? i, r.plan.nodes[i]? with
  | some .ready, some _ => if o.stop then (r.moveAndPublish i .skipped, r.plan.emptyMemo) else state
  | some .scheduled, some n =>
    match r.advance o i n memo with
    | (some new, _) => (r.moveAndPublish i new, r.plan.emptyMemo)
    | (none, memo) => (r, memo)
  | _, _ => state

/-- Move each waiting node once, in order. -/
def sweep (r : Run) (o : Outlook) : Run :=
  (r.indices.foldl (settleNode o) (r, r.plan.emptyMemo)).1

end Run

/-- How many moves a waiting node still has before it. -/
def NodeState.movesLeft : NodeState → Nat
  | .scheduled => 2
  | .ready => 1
  | _ => 0

def Progress.waiting (s : Progress) : Nat := total NodeState.movesLeft s.states.toList

namespace Run

/-- Sweep until nothing changes. -/
def settle (r : Run) (o : Outlook) : Run :=
  let swept := r.sweep o
  if swept.progress.waiting < r.progress.waiting then swept.settle o else swept
termination_by r.progress.waiting

end Run

end Foreman
