import Foreman.Proofs.Lock.Accounting
import Mathlib.Data.List.Induction
import Mathlib.Data.List.Perm.Subperm

/-!
# Who holds what after a history of calls

Any workers call the operations of one table in any order, also where they have no right to: they
give back what others hold, give back twice, or restore a count that they never surrendered. A key
is held by a worker exactly if the last call that changed its holder was an acquisition of that
worker that was granted (`owner?_eq_some_iff`), and leases stay within the capacity (`history_law`).
-/

namespace Foreman

namespace LockTable

/-- A call of one of the operations that change a table. -/
inductive TableCall
  | acquire (keys : List ResourceKey) (worker : Worker)
  | release (keys : List ResourceKey) (worker : Worker)
  | lease (worker : Worker)
  | unlease (worker : Worker)
  | surrender (worker : Worker)
  | restore (worker : Worker) (count : Nat)
  deriving DecidableEq, Repr

def TableCall.worker : TableCall → Worker
  | acquire _ worker | release _ worker | lease worker | unlease worker | surrender worker
  | restore worker _ => worker

def call? (t : LockTable) : TableCall → Option LockTable
  | .acquire keys worker => t.acquire? keys worker
  | .release keys worker => some (t.release keys worker)
  | .lease worker => t.lease? worker
  | .unlease worker => some (t.unlease worker)
  | .surrender worker => some (t.surrender worker)
  | .restore worker count => t.restore? worker count

def after (t : LockTable) (call : TableCall) : LockTable := (t.call? call).getD t

def afterAll (t : LockTable) (calls : List TableCall) : LockTable := calls.foldl after t

/-- The call gives the key another holder, or takes it from its holder. -/
def ChangesHolder (t : LockTable) (call : TableCall) (key : ResourceKey) : Prop :=
  (t.after call).owner? key ≠ t.owner? key

/-- The last of the calls that changed who holds the key was an acquisition of the worker, and it
was granted. -/
def LastTakenBy (t : LockTable) (calls : List TableCall) (key : ResourceKey) (worker : Worker) :
    Prop :=
  ∃ before keys later, calls = before ++ .acquire keys worker :: later ∧
    (t.afterAll before).ChangesHolder (.acquire keys worker) key ∧
    ((t.afterAll before).acquire? keys worker).isSome ∧
    ∀ between call rest, later = between ++ call :: rest →
      ¬ (t.afterAll (before ++ .acquire keys worker :: between)).ChangesHolder call key

variable {t : LockTable} {call : TableCall} {calls : List TableCall} {key : ResourceKey}
  {worker : Worker}

/-! ## One call -/

theorem after_changed (t : LockTable) (call : TableCall) :
    ChangedBy call.worker t (t.after call) := by
  rw [after]
  cases hcall : t.call? call with
  | none => exact .refl call.worker t
  | some t' =>
    cases call with
    | acquire keys worker => exact acquire?_changed hcall
    | release keys worker =>
      cases hcall
      exact release_changed t keys worker
    | lease worker => exact lease?_changed hcall
    | unlease worker =>
      cases hcall
      exact unlease_changed t worker
    | surrender worker =>
      cases hcall
      exact surrender_changed t worker
    | restore worker count => exact restore?_changed hcall

theorem acquire?_isSome_iff {keys : List ResourceKey} :
    (t.acquire? keys worker).isSome ↔ ∀ key ∈ keys, t.owner? key = none := by
  rw [acquire?]
  split
  · rename_i hfree
    simpa [isFree] using hfree
  · rename_i hheld
    simpa [isFree] using hheld

theorem lease?_isSome_iff :
    (t.lease? worker).isSome ↔ t.holdsLease worker = true ∨ t.leasesInUse < t.capacity := by
  rw [lease?, holdsLease, Std.TreeMap.contains_eq_isSome_getElem?]
  cases t.leases[worker]? with
  | some count => simp
  | none => by_cases hroom : t.leasesInUse < t.capacity <;> simp [hasRoom, hroom]

theorem restore?_isSome_iff {count : Nat} :
    (t.restore? worker count).isSome ↔ count = 0 ∨ t.leasesInUse < t.capacity := by
  rw [restore?]
  by_cases hcount : count = 0 <;> by_cases hroom : t.leasesInUse < t.capacity <;>
    simp [hasRoom, hcount, hroom]

/-- The holder of a key changes in two ways: a free key is acquired, or its holder gives it back. -/
theorem changesHolder_cases (h : t.ChangesHolder call key) :
    (∃ keys, call = .acquire keys call.worker ∧ (t.acquire? keys call.worker).isSome ∧
      t.owner? key = none ∧ (t.after call).owner? key = some call.worker) ∨
    ∃ keys, call = .release keys call.worker ∧ t.owner? key = some call.worker ∧
      (t.after call).owner? key = none := by
  have hsame : ∀ t' : LockTable, t.call? call = some t' → t'.owners ≠ t.owners := by
    intro t' hcall hsame
    rw [ChangesHolder, after, hcall, owner?, owner?, Option.getD_some, hsame] at h
    exact h rfl
  cases hcall : t.call? call with
  | none => exact absurd (by rw [after, hcall, Option.getD_none]) h
  | some t' =>
    have hafter : t.after call = t' := by rw [after, hcall, Option.getD_some]
    rw [ChangesHolder, hafter] at h
    rw [hafter]
    cases call with
    | acquire keys worker =>
      rw [owner?_acquire? hcall] at h ⊢
      by_cases hkey : key ∈ keys
      · rw [if_pos hkey]
        exact .inl ⟨keys, rfl, Option.isSome_iff_exists.2 ⟨t', hcall⟩,
          owner?_of_acquire? hcall hkey, rfl⟩
      · rw [if_neg hkey] at h
        exact absurd rfl h
    | release keys worker =>
      cases hcall
      rw [owner?_release] at h ⊢
      by_cases hmine : key ∈ keys ∧ t.owner? key = some worker
      · rw [if_pos hmine]
        exact .inr ⟨keys, rfl, hmine.2, rfl⟩
      · rw [if_neg hmine] at h
        exact absurd rfl h
    | lease worker => exact absurd (owners_lease? hcall) (hsame t' hcall)
    | unlease worker =>
      cases hcall
      exact absurd owners_unlease (hsame _ rfl)
    | surrender worker =>
      cases hcall
      exact absurd owners_surrender (hsame _ rfl)
    | restore worker count => exact absurd (owners_restore? hcall) (hsame t' hcall)

/-! ## Histories -/

theorem afterAll_concat (t : LockTable) (calls : List TableCall) (call : TableCall) :
    t.afterAll (calls ++ [call]) = (t.afterAll calls).after call := by
  simp [afterAll]

/-- What every call keeps, a history keeps. -/
theorem afterAll_keeps {P : LockTable → Prop} (hstep : ∀ t call, P t → P (t.after call)) (h : P t)
    (calls : List TableCall) : P (t.afterAll calls) :=
  List.foldlRecOn _ _ h fun t ht call _ => hstep t call ht

/-- A call that leaves the holder of the key leaves what the last change was. -/
theorem lastTakenBy_concat_of_not_changesHolder (h : ¬ (t.afterAll calls).ChangesHolder call key) :
    t.LastTakenBy (calls ++ [call]) key worker ↔ t.LastTakenBy calls key worker := by
  constructor
  · rintro ⟨before, keys, later, heq, hchanges, hgranted, hlast⟩
    obtain rfl | ⟨later, c, rfl⟩ := later.eq_nil_or_concat
    · obtain ⟨rfl, hc⟩ := List.append_inj' heq rfl
      cases hc
      exact absurd hchanges h
    · have heq' : calls ++ [call] = (before ++ .acquire keys worker :: later) ++ [c] := by
        simpa using heq
      obtain ⟨rfl, hc⟩ := List.append_inj' heq' rfl
      refine ⟨before, keys, later, rfl, hchanges, hgranted, fun between d rest hd => ?_⟩
      exact hlast between d (rest ++ [c]) (by simp [hd])
  · rintro ⟨before, keys, later, rfl, hchanges, hgranted, hlast⟩
    refine ⟨before, keys, later ++ [call], by simp, hchanges, hgranted, fun between d rest hd => ?_⟩
    obtain rfl | ⟨rest, c, rfl⟩ := rest.eq_nil_or_concat
    · obtain ⟨rfl, hc⟩ := List.append_inj' hd rfl
      cases hc
      exact h
    · have hd' : later ++ [call] = (between ++ d :: rest) ++ [c] := by simpa using hd
      obtain ⟨rfl, -⟩ := List.append_inj' hd' rfl
      exact hlast between d rest rfl

/-- A call that changes the holder of the key is the last to do so. -/
theorem lastTakenBy_concat_of_changesHolder (h : (t.afterAll calls).ChangesHolder call key) :
    t.LastTakenBy (calls ++ [call]) key worker ↔
      ∃ keys, call = .acquire keys worker ∧ ((t.afterAll calls).acquire? keys worker).isSome := by
  constructor
  · rintro ⟨before, keys, later, heq, -, hgranted, hlast⟩
    obtain rfl | ⟨later, c, rfl⟩ := later.eq_nil_or_concat
    · obtain ⟨rfl, hc⟩ := List.append_inj' heq rfl
      cases hc
      exact ⟨keys, rfl, hgranted⟩
    · have heq' : calls ++ [call] = (before ++ .acquire keys worker :: later) ++ [c] := by
        simpa using heq
      obtain ⟨rfl, hc⟩ := List.append_inj' heq' rfl
      cases hc
      exact absurd h (hlast later call [] (by simp))
  · rintro ⟨keys, rfl, hgranted⟩
    exact ⟨calls, keys, [], rfl, h, hgranted, fun between d rest hd => by simp at hd⟩

/-- Induction is on the history: its last call changes the holder of the key or leaves it. -/
theorem owner?_eq_some_iff (h : t.owner? key = none) (calls : List TableCall) :
    (t.afterAll calls).owner? key = some worker ↔ t.LastTakenBy calls key worker := by
  induction calls using List.reverseRecOn with
  | nil =>
    refine ⟨fun ho => ?_, ?_⟩
    · rw [show t.afterAll [] = t from rfl, h] at ho
      cases ho
    · rintro ⟨before, keys, later, heq, -⟩
      simp at heq
  | append_singleton calls call ih =>
    rw [afterAll_concat]
    by_cases hchanges : (t.afterAll calls).ChangesHolder call key
    · rw [lastTakenBy_concat_of_changesHolder hchanges]
      obtain ⟨keys, hcall, hgranted, -, ho⟩ | ⟨keys, hcall, -, ho⟩ := changesHolder_cases hchanges
      · rw [ho, Option.some.injEq]
        constructor
        · rintro rfl
          exact ⟨keys, hcall, hgranted⟩
        · rintro ⟨keys', rfl, -⟩
          rfl
      · rw [ho]
        constructor
        · intro hsome
          cases hsome
        · rintro ⟨keys', rfl, -⟩
          cases hcall
    · rw [lastTakenBy_concat_of_not_changesHolder hchanges, ← ih]
      rw [ChangesHolder, not_not] at hchanges
      rw [hchanges]

/-- Workers that hold leases are no more than the leases in use. -/
theorem length_le_leasesInUse {workers : List Worker} (hnodup : workers.Nodup)
    (h : ∀ w ∈ workers, t.holdsLease w = true) : workers.length ≤ t.leasesInUse := by
  rw [leasesInUse, ← Std.TreeMap.length_keys]
  refine (List.subperm_of_subset hnodup fun w hw => ?_).length_le
  rw [Std.TreeMap.mem_keys]
  exact h w hw

/-- What holds of a table that has come out of a history of calls, and of the next call. -/
structure ObeysLaw (t : LockTable) (capacity : Nat) (calls : List TableCall) : Prop where
  holder : ∀ key worker, t.owner? key = some worker ↔ (empty capacity).LastTakenBy calls key worker
  /-- Nobody else takes a key from its holder, or frees it. -/
  kept : ∀ (call : TableCall) key worker, t.owner? key = some worker → call.worker ≠ worker →
    (t.after call).owner? key = some worker
  /-- An acquisition takes all its keys, and is refused where one of them is held by anyone. -/
  acquired : ∀ keys worker, ((t.acquire? keys worker).isSome ↔ ∀ key ∈ keys, t.owner? key = none) ∧
    ∀ t', t.acquire? keys worker = some t' → ∀ key ∈ keys, t'.owner? key = some worker
  refused : ∀ call : TableCall, t.call? call = none → t.after call = t
  leased : ∀ worker, (t.lease? worker).isSome ↔ t.holdsLease worker = true ∨
    t.leasesInUse < max 1 capacity
  restored : ∀ worker count, (t.restore? worker count).isSome ↔
    count = 0 ∨ t.leasesInUse < max 1 capacity
  room : ∀ workers : List Worker, workers.Nodup → (∀ w ∈ workers, t.holdsLease w = true) →
    workers.length ≤ max 1 capacity
  counts : ∀ worker, t.holdsLease worker = true ↔ 1 ≤ t.leaseCount worker
  /-- Nobody else changes a worker's hold count. -/
  others : ∀ (call : TableCall) worker, call.worker ≠ worker →
    (t.after call).leaseCount worker = t.leaseCount worker

/-- Whatever workers have called, keys are held by whom they were granted to last and leases are
within the capacity. -/
theorem history_law (capacity : Nat) (calls : List TableCall) :
    ((empty capacity).afterAll calls).ObeysLaw capacity calls := by
  have hsane : ((empty capacity).afterAll calls).Sane :=
    afterAll_keeps (fun t call h => (after_changed t call).sane h) (empty_sane capacity) calls
  have hcapacity : ((empty capacity).afterAll calls).capacity = max 1 capacity :=
    afterAll_keeps (P := fun t => t.capacity = max 1 capacity)
      (fun t call h => (after_changed t call).capacity.trans h) rfl calls
  have hholder : ∀ key worker, ((empty capacity).afterAll calls).owner? key = some worker ↔
      (empty capacity).LastTakenBy calls key worker :=
    fun key worker => owner?_eq_some_iff (by simp [empty, owner?]) calls
  generalize (empty capacity).afterAll calls = t at hsane hcapacity hholder
  refine ⟨hholder, fun call key worker ho hne => ?_, fun keys worker => ⟨acquire?_isSome_iff, ?_⟩,
    fun call hcall => by
      rw [after, hcall, Option.getD_none], fun worker => ?_, fun worker count => ?_,
    fun workers hnodup hholds => ?_, hsane.holdsLease_iff, fun call worker hne => ?_⟩
  · exact ((after_changed t call).owners key worker (Ne.symm hne)).2 ho
  · intro t' ht key hkey
    rw [owner?_acquire? ht, if_pos hkey]
  · rw [← hcapacity]
    exact lease?_isSome_iff
  · rw [← hcapacity]
    exact restore?_isSome_iff
  · rw [← hcapacity]
    exact Nat.le_trans (length_le_leasesInUse hnodup hholds) hsane.room
  · exact (after_changed t call).leaseCount (Ne.symm hne)

/-- A foreign release and a release that is repeated free nothing, and the key goes to whom it is
granted to next. -/
example :
    let key := ResourceKey.shared "port"
    let calls := [.acquire [key, key] 1, .release [key] 2, .acquire [key] 2, .release [key] 1,
      .release [key] 1, .acquire [key] 2]
    ((empty 0).afterAll (calls.take 3)).owner? key = some 1 ∧
      ((empty 0).afterAll (calls.take 5)).owner? key = none ∧
      ((empty 0).afterAll calls).owner? key = some 2 := by
  decide +kernel

end LockTable

end Foreman
