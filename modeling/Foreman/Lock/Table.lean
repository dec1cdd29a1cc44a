import Foreman.Lock.Key

/-!
# The lock table

One table holds every lock and every worker lease of a build tree. A worker takes all the keys it
asks for or none, so no order of locking can deadlock. Leases bound how many workers are busy; a
worker may hold its lease several times over and uses up capacity once. An operation that would
have to wait has no result (`none`) and leaves the table as it was.
-/

namespace Foreman

/-- A thread that runs tasks or drives a tree. -/
abbrev Worker := Nat

/-- Who holds which key, and who holds a lease how many times. -/
structure LockTable where
  owners : Std.TreeMap ResourceKey Worker
  leases : Std.TreeMap Worker Nat
  /-- How many workers may hold a lease at a time. -/
  capacity : Nat
  capacity_pos : 0 < capacity

namespace LockTable

/-- The table with nothing held. There is always room for one lease. -/
def empty (capacity : Nat) : LockTable := ⟨∅, ∅, max 1 capacity, by omega⟩

/-! ## Locks -/

def owner? (t : LockTable) (key : ResourceKey) : Option Worker := t.owners[key]?

def isFree (t : LockTable) (key : ResourceKey) : Bool := (t.owner? key).isNone

def holds (t : LockTable) (worker : Worker) (key : ResourceKey) : Bool :=
  t.owner? key = some worker

def give (t : LockTable) (keys : List ResourceKey) (worker : Worker) : LockTable :=
  { t with owners := keys.foldl (fun owners key => owners.insert key worker) t.owners }

/-- Take all the keys, if all are free. Locks are not re-entrant: a key that the worker itself
holds is not free either. -/
def acquire? (t : LockTable) (keys : List ResourceKey) (worker : Worker) : Option LockTable :=
  if keys.all t.isFree then some (t.give keys worker) else none

/-- Give back one key; a key of another worker stays with it. -/
def releaseOne (t : LockTable) (worker : Worker) (key : ResourceKey) : LockTable :=
  if t.holds worker key then { t with owners := t.owners.erase key } else t

def release (t : LockTable) (keys : List ResourceKey) (worker : Worker) : LockTable :=
  keys.foldl (fun t key => t.releaseOne worker key) t

/-! ## Leases -/

def leasesInUse (t : LockTable) : Nat := t.leases.size

def leaseCount (t : LockTable) (worker : Worker) : Nat := t.leases[worker]?.getD 0

def holdsLease (t : LockTable) (worker : Worker) : Bool := t.leases.contains worker

/-- There is room for one more holder. -/
def hasRoom (t : LockTable) : Bool := t.leasesInUse < t.capacity

def setLease (t : LockTable) (worker : Worker) (count : Nat) : LockTable :=
  { t with leases := t.leases.insert worker count }

/-- Take a lease, once more if the worker has one. -/
def lease? (t : LockTable) (worker : Worker) : Option LockTable :=
  match t.leases[worker]? with
  | some count => some (t.setLease worker (count + 1))
  | none => if t.hasRoom then some (t.setLease worker 1) else none

def unlease (t : LockTable) (worker : Worker) : LockTable :=
  match t.leases[worker]? with
  | some count =>
    if 1 < count then t.setLease worker (count - 1)
    else { t with leases := t.leases.erase worker }
  | none => t

/-- Give up every hold of the lease. `leaseCount` tells how many there were. -/
def surrender (t : LockTable) (worker : Worker) : LockTable :=
  { t with leases := t.leases.erase worker }

/-- Enter again a hold count that was surrendered, once there is room. -/
def restore? (t : LockTable) (worker : Worker) (count : Nat) : Option LockTable :=
  if count = 0 then some t
  else if t.hasRoom then some (t.setLease worker count) else none

end LockTable

end Foreman
