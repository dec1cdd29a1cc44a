import Foreman.Lock.Table

/-!
# Leases around blocking work

A worker holds guards, each for one hold of its lease. Around work that blocks it surrenders the
lease and takes the same hold count back afterwards, also when the work panics.
-/

namespace Foreman

/-- What a worker does with its lease. -/
inductive LeaseAction
  /-- Take a guard. -/
  | acquire
  /-- Drop the latest guard, if there is one. -/
  | drop
  /-- Another worker takes a lease, if it can. -/
  | otherLease (worker : Worker)
  /-- Another worker gives back one hold. -/
  | otherUnlease (worker : Worker)
  /-- Do the inner actions without a lease, then perhaps panic. -/
  | blocking (inner : List LeaseAction) (panics : Bool)

inductive LeaseKind
  | acquire
  | drop
  | otherLease
  | otherUnlease
  | blocking
  deriving DecidableEq, Repr

def LeaseKind.text : LeaseKind → String
  | acquire => "acquire"
  | drop => "drop"
  | otherLease => "other_lease"
  | otherUnlease => "other_unlease"
  | blocking => "blocking"

inductive LeaseResult
  | done
  | granted (yes : Bool)
  | returned
  | panicked
  deriving DecidableEq, Repr

/-- The end of an action: its kind, whether the worker holds a lease then, and how many workers
do. -/
structure LeaseReport where
  kind : LeaseKind
  holds : Bool
  inUse : Nat
  result : LeaseResult
  deriving DecidableEq, Repr

/-- The table, the number of the worker's guards, and the reports so far. -/
structure LeaseRun where
  table : LockTable
  guards : Nat
  reports : List LeaseReport

namespace LeaseRun

def report (r : LeaseRun) (worker : Worker) (kind : LeaseKind) (result : LeaseResult) : LeaseRun :=
  { r with reports := r.reports ++
      [⟨kind, r.table.holdsLease worker, r.table.leasesInUse, result⟩] }

/-- Drop the latest guard, if there is one. -/
def drop (r : LeaseRun) (worker : Worker) : LeaseRun :=
  if 0 < r.guards then { r with table := r.table.unlease worker, guards := r.guards - 1 } else r

def dropAll (r : LeaseRun) (worker : Worker) : LeaseRun :=
  { r with table := Nat.repeat (·.unlease worker) r.guards r.table, guards := 0 }

mutual

/-- Do one action as `worker`; there is no result if the worker waits for ever. -/
def perform? (r : LeaseRun) (worker : Worker) : LeaseAction → Option LeaseRun
  | .acquire => do
    let table ← r.table.lease? worker
    return { r with table, guards := r.guards + 1 }.report worker .acquire .done
  | .drop => some ((r.drop worker).report worker .drop .done)
  | .otherLease other =>
    match r.table.lease? other with
    | some table => some ({ r with table }.report worker .otherLease (.granted true))
    | none => some (r.report worker .otherLease (.granted false))
  | .otherUnlease other =>
    some ({ r with table := r.table.unlease other }.report worker .otherUnlease .done)
  | .blocking inner panics => do
    let count := r.table.leaseCount worker
    let r ← { r with table := r.table.surrender worker }.performAll? worker inner
    let table ← r.table.restore? worker count
    return { r with table }.report worker .blocking (if panics then .panicked else .returned)

def performAll? (r : LeaseRun) (worker : Worker) : List LeaseAction → Option LeaseRun
  | [] => some r
  | a :: rest => do
    let r ← r.perform? worker a
    r.performAll? worker rest

end

end LeaseRun

end Foreman
