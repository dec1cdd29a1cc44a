import Foreman.Lock.Table
import Foreman.Proofs.Totals

/-!
# What the operations on the lock table change

Taking and giving back locks changes who holds the keys that are named, and nothing about the
leases; the operations on leases change the hold count of one worker, and no holder of a key.
-/

namespace Foreman

namespace LockTable

variable {t t' : LockTable} {worker w : Worker} {keys : List ResourceKey} {key : ResourceKey}
  {count : Nat}

/-! ## Leases -/

theorem leases_lease? (h : t.lease? worker = some t') (w : Worker) :
    t'.leases[w]? = if w = worker then some (t.leaseCount worker + 1) else t.leases[w]? := by
  rw [lease?] at h
  rw [leaseCount]
  split at h
  · rename_i count hc
    cases h
    rw [setLease, getElem?_insert_eq_ite, hc, Option.getD_some]
  · rename_i hc
    split at h
    · cases h
      rw [setLease, getElem?_insert_eq_ite, hc, Option.getD_none]
    · cases h

theorem owners_lease? (h : t.lease? worker = some t') : t'.owners = t.owners := by
  rw [lease?] at h
  split at h
  · cases h
    rfl
  · split at h
    · cases h
      rfl
    · cases h

/-- Who holds its lease once gives it back. -/
theorem leases_unlease (h : t.leaseCount worker ≤ 1) (w : Worker) :
    (t.unlease worker).leases[w]? = if w = worker then none else t.leases[w]? := by
  rw [unlease]
  rw [leaseCount] at h
  split
  · rename_i count hc
    rw [hc, Option.getD_some] at h
    rw [if_neg (by omega), getElem?_erase_eq_ite]
  · rename_i hc
    split
    · rename_i hw
      rw [hw, hc]
    · rfl

@[simp] theorem owners_unlease : (t.unlease worker).owners = t.owners := by
  rw [unlease]
  split
  · split <;> rfl
  · rfl

theorem leases_surrender (w : Worker) :
    (t.surrender worker).leases[w]? = if w = worker then none else t.leases[w]? :=
  getElem?_erase_eq_ite worker w

@[simp] theorem owners_surrender : (t.surrender worker).owners = t.owners := rfl

theorem leases_restore? (h : t.restore? worker count = some t') (w : Worker) :
    t'.leases[w]? = if w = worker ∧ count ≠ 0 then some count else t.leases[w]? := by
  rw [restore?] at h
  split at h
  · rename_i hz
    cases h
    rw [if_neg fun hw => hw.2 hz]
  · rename_i hz
    split at h
    · cases h
      rw [setLease, getElem?_insert_eq_ite]
      simp [hz]
    · cases h

theorem owners_restore? (h : t.restore? worker count = some t') : t'.owners = t.owners := by
  rw [restore?] at h
  split at h
  · cases h
    rfl
  · split at h
    · cases h
      rfl
    · cases h

/-- Nobody holds a lease. -/
def Unleased (t : LockTable) : Prop := ∀ w : Worker, t.leases[w]? = none

/-- Where nobody holds a lease there is room for one. -/
theorem Unleased.hasRoom (h : t.Unleased) : t.hasRoom = true := by
  have hempty : t.leases.isEmpty = true := by
    rw [Std.TreeMap.isEmpty_iff_forall_not_mem]
    intro w hw
    rw [Std.TreeMap.mem_iff_isSome_getElem?, h w] at hw
    cases hw
  rw [Std.TreeMap.isEmpty_eq_size_eq_zero] at hempty
  rw [LockTable.hasRoom, leasesInUse, eq_of_beq hempty]
  exact decide_eq_true t.capacity_pos

theorem Unleased.lease? (h : t.Unleased) (worker : Worker) :
    t.lease? worker = some (t.setLease worker 1) := by
  rw [LockTable.lease?, h worker]
  simp [h.hasRoom]

theorem Unleased.restore? (h : t.Unleased) (worker : Worker) (count : Nat) :
    (t.restore? worker count).isSome = true := by
  rw [LockTable.restore?, h.hasRoom]
  split <;> rfl

/-! ## Locks -/

theorem owner?_give (w : Worker) :
    (t.give keys w).owner? key = if key ∈ keys then some w else t.owner? key := by
  induction keys generalizing t with
  | nil => rfl
  | cons k keys ih =>
    have hstep : t.give (k :: keys) w = ({ t with owners := t.owners.insert k w }).give keys w :=
      rfl
    rw [hstep, ih, owner?, owner?, getElem?_insert_eq_ite]
    by_cases hk : key = k <;> by_cases hm : key ∈ keys <;> simp [hk, hm]

theorem owner?_acquire? (h : t.acquire? keys worker = some t') (key : ResourceKey) :
    t'.owner? key = if key ∈ keys then some worker else t.owner? key := by
  rw [acquire?] at h
  split at h
  · cases h
    exact owner?_give worker
  · cases h

theorem leases_acquire? (h : t.acquire? keys worker = some t') : t'.leases = t.leases := by
  rw [acquire?] at h
  split at h
  · cases h
    rfl
  · cases h

/-- Nobody holds a key. -/
def Unlocked (t : LockTable) : Prop := ∀ key, t.owner? key = none

theorem Unlocked.acquire? (h : t.Unlocked) (keys : List ResourceKey) (worker : Worker) :
    t.acquire? keys worker = some (t.give keys worker) := by
  rw [LockTable.acquire?, if_pos]
  rw [List.all_eq_true]
  intro key _
  rw [isFree, h key]
  rfl

theorem owner?_release (w : Worker) (key : ResourceKey) : (t.release keys w).owner? key =
    if key ∈ keys ∧ t.owner? key = some w then none else t.owner? key := by
  induction keys generalizing t with
  | nil => simp [release]
  | cons k keys ih =>
    have hstep : t.release (k :: keys) w = (t.releaseOne w k).release keys w := rfl
    have hone : (t.releaseOne w k).owner? key =
        if key = k ∧ t.owner? key = some w then none else t.owner? key := by
      rw [releaseOne]
      split
      · rename_i hh
        rw [holds, decide_eq_true_eq] at hh
        rw [owner?, getElem?_erase_eq_ite]
        by_cases hk : key = k
        · subst hk
          rw [if_pos rfl, if_pos ⟨rfl, hh⟩]
        · rw [if_neg hk, if_neg fun hc => hk hc.1]
          rfl
      · rename_i hh
        rw [holds, decide_eq_true_eq] at hh
        rw [if_neg]
        rintro ⟨rfl, hc⟩
        exact hh hc
    rw [hstep, ih, hone]
    by_cases hk : key = k <;> by_cases hm : key ∈ keys <;>
      by_cases ho : t.owner? key = some w <;> simp_all

@[simp] theorem leases_release (w : Worker) : (t.release keys w).leases = t.leases := by
  induction keys generalizing t with
  | nil => rfl
  | cons k keys ih =>
    have hstep : t.release (k :: keys) w = (t.releaseOne w k).release keys w := rfl
    rw [hstep, ih, releaseOne]
    split <;> rfl

end LockTable

end Foreman
