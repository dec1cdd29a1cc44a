import Foreman.Run.Settle

/-!
# Choosing and finishing nodes

A worker that has nothing to do settles the run and takes the first ready node, by ordinal and
number, that conflicts with no running node and whose lease and locks are free. Only when that
leaves nothing to do and nothing to wait for does it settle once more with relaxed order, and only
when this does not help either are the nodes that are left skipped.
-/

namespace Foreman

inductive Selection
  /-- Wait until something changes. -/
  | wait
  /-- There is nothing left to do. -/
  | done
  /-- Run a node, holding these keys. -/
  | run (index : Nat) (keys : List ResourceKey)
  deriving DecidableEq, Repr

/-- How the execution of a node ended. -/
inductive NodeOutcome
  | success
  | failure (error : ErrorChain)
  /-- The task of another build did not succeed. -/
  | foreignFailure
  deriving DecidableEq, Repr

namespace Run

/-! ## Choosing -/

def readyNodes (r : Run) : List Nat :=
  let ordinal i := ((r.plan.nodes[i]?).map (·.ordinal)).getD 0
  (r.indices.filter (r.progress.isIn · .ready)).mergeSort fun a b => ordinal a ≤ ordinal b

/-- A running node touches files that the node would touch, and one of them destroys. -/
def clashes (r : Run) (n : PlannedNode) : Bool :=
  r.progress.running.any fun i => (r.plan.nodes[i]?).any fun m => m.footprint.conflicts n.footprint

/-- Start the first of the nodes that can start: the selection and the state after it. There is
none if no node can start; without a lease to be had the worker waits. -/
def startFirst (r : Run) (locks : ProjectLocks) (worker : Worker) (table : LockTable) :
    List Nat → Option (Selection × Run × LockTable)
  | [] => none
  | i :: rest =>
    match r.plan.nodes[i]? with
    | none => r.startFirst locks worker table rest
    | some n =>
      if r.clashes n then r.startFirst locks worker table rest
      else
        match table.lease? worker with
        | none => some (.wait, r, table)
        | some leased =>
          let keys := n.lockKeys r.plan.build locks
          match leased.acquire? keys worker with
          | none => r.startFirst locks worker table rest
          | some held =>
            let r := r.move i .running
            let progress := { r.progress with running := r.progress.running ++ [i] }
            some (.run i keys, { r with progress }, held)

/-- A waiting node comes after a task that another build has not finished yet. -/
def awaitsOthers (r : Run) (o : Outlook) : Bool :=
  r.indices.any fun i => r.progress.isIn i .scheduled &&
    (r.plan.nodes[i]?).any fun n => !n.afterExports.all (isPublished o)

/-- Settle and try to start a node. There is no selection if nothing is left to do or to wait
for. -/
def attempt (r : Run) (o : Outlook) (locks : ProjectLocks) (worker : Worker) (table : LockTable) :
    Option Selection × Run × LockTable :=
  let r := r.settle o
  if r.progress.error.isSome || r.progress.remaining = 0 then (some .done, r, table)
  else
    let ready := r.readyNodes
    match r.startFirst locks worker table ready with
    | some (selection, r, table) => (some selection, r, table)
    | none =>
      if ready ≠ [] || r.progress.running ≠ [] || r.awaitsOthers o then (some .wait, r, table)
      else (none, r, table)

/-- Skip every node that still waits. -/
def skipStuck (r : Run) : Run :=
  r.indices.foldl (fun r i =>
    if r.progress.isIn i .scheduled || r.progress.isIn i .ready then r.moveAndPublish i .skipped
    else r) r

def select (r : Run) (stop : Bool) (foreign : Foreign) (locks : ProjectLocks) (worker : Worker)
    (table : LockTable) : Selection × Run × LockTable :=
  match r.attempt ⟨stop, false, foreign⟩ locks worker table with
  | (some selection, r, table) => (selection, r, table)
  | (none, r, table) =>
    match r.attempt ⟨stop, true, foreign⟩ locks worker table with
    | (some selection, r, table) => (selection, r, table)
    | (none, r, table) => (.done, r.skipStuck, table)

/-! ## Finishing -/

def ignoresFailures (r : Run) (i : Nat) : Bool := (r.plan.nodes[i]?).any (·.ignoresFailures)

def fail (r : Run) (i : Nat) (error : ErrorChain) : Run :=
  match (r.plan.nodes[i]?).bind (·.task?) with
  | some t =>
    { r with progress := { r.progress with
        failures := r.progress.failures ++ [.taskFailed t.path error] } }
  | none => r

/-- Whether an outcome is a failure that counts. -/
def countsAsFailure (r : Run) (i : Nat) : NodeOutcome → Bool
  | .failure _ => !r.ignoresFailures i
  | _ => false

/-- Record how a running node ended. A failure that is to be ignored lets dependents here and in
other builds go on. -/
def finish (r : Run) (i : Nat) (outcome : NodeOutcome) : Run :=
  let r := { r with progress := { r.progress with
    running := r.progress.running.filter (· ≠ i) } }
  match outcome with
  | .success => (r.move i .succeeded).publish i .succeeded
  | .failure error =>
    if r.ignoresFailures i then
      let r := { r with progress := { r.progress with tolerated := i :: r.progress.tolerated } }
      (r.move i .failed).publish i .succeeded
    else ((r.fail i error).move i .failed).publish i .failed
  | .foreignFailure => (r.move i .failed).publish i .failed

/-- The result of a run that has ended: its failures, or the error that broke it. Both are handed
out once. -/
def takeResult (r : Run) : Except GraphError (List BuildFailure) × Run :=
  let r := r.abandonExports
  match r.progress.error with
  | some e => (.error e, { r with progress := { r.progress with error := none } })
  | none =>
    (.ok r.progress.failures, { r with progress := { r.progress with failures := [] } })

end Run

end Foreman
