import Foreman.Lock.Access
import Foreman.Proofs.Lock.Table

/-!
# A table that several workers share

No operation of a worker touches what the table says of other workers (`LockTable.ChangedBy`), and
none lets more workers hold a lease than there is capacity (`LockTable.Sane`). The steps of a script
take and give back project state locks only.
-/

namespace Foreman

namespace LockTable

variable {t t' : LockTable} {worker : Worker} {keys : List ResourceKey} {count : Nat}

/-- There are no empty holds, and no more holders than there is capacity. -/
structure Sane (t : LockTable) : Prop where
  counts : ∀ (v : Worker) count, t.leases[v]? = some count → 0 < count
  room : t.leasesInUse ≤ t.capacity

theorem empty_sane (capacity : Nat) : (empty capacity).Sane where
  counts v count h := by simp [empty] at h
  room := by simp [empty, leasesInUse]

/-- The table before and after an operation of a worker. -/
structure ChangedBy (worker : Worker) (t t' : LockTable) : Prop where
  owners : ∀ key v, v ≠ worker → (t'.owner? key = some v ↔ t.owner? key = some v)
  leases : ∀ v, v ≠ worker → t'.leases[v]? = t.leases[v]?
  capacity : t'.capacity = t.capacity
  sane : t.Sane → t'.Sane

theorem ChangedBy.refl (worker : Worker) (t : LockTable) : ChangedBy worker t t :=
  ⟨fun _ _ _ => .rfl, fun _ _ => rfl, rfl, id⟩

theorem ChangedBy.trans {t'' : LockTable} (h : ChangedBy worker t t')
    (h' : ChangedBy worker t' t'') :
    ChangedBy worker t t'' where
  owners key v hv := (h'.owners key v hv).trans (h.owners key v hv)
  leases v hv := (h'.leases v hv).trans (h.leases v hv)
  capacity := h'.capacity.trans h.capacity
  sane ht := h'.sane (h.sane ht)

/-- Sanity speaks of the leases and the capacity. -/
theorem Sane.congr (h : t.Sane) (hleases : t'.leases = t.leases)
    (hcapacity : t'.capacity = t.capacity) :
    t'.Sane where
  counts := by
    rw [hleases]
    exact h.counts
  room := by
    rw [leasesInUse, hleases, hcapacity]
    exact h.room

theorem Sane.setLease (h : t.Sane) (hcount : 0 < count)
    (hroom : worker ∈ t.leases ∨ t.hasRoom = true) : (t.setLease worker count).Sane where
  counts v n hv := by
    rw [LockTable.setLease, getElem?_insert_eq_ite] at hv
    split at hv
    · cases hv
      exact hcount
    · exact h.counts v n hv
  room := by
    have hsize := h.room
    simp only [LockTable.setLease, leasesInUse, Std.TreeMap.size_insert] at hsize ⊢
    split
    · exact hsize
    · rename_i hnot
      have := hroom.resolve_left hnot
      rw [hasRoom, leasesInUse, decide_eq_true_eq] at this
      omega

theorem Sane.erase (h : t.Sane) (worker : Worker) :
    Sane { t with leases := t.leases.erase worker } where
  counts v n hv := by
    rw [getElem?_erase_eq_ite] at hv
    split at hv
    · cases hv
    · exact h.counts v n hv
  room := Nat.le_trans Std.TreeMap.size_erase_le h.room

theorem leases_setLease_of_ne {v : Worker} (hv : v ≠ worker) :
    (t.setLease worker count).leases[v]? = t.leases[v]? := by
  rw [setLease, getElem?_insert_eq_ite, if_neg hv]

theorem leases_erase_of_ne {v : Worker} (hv : v ≠ worker) :
    (t.leases.erase worker)[v]? = t.leases[v]? := by
  rw [getElem?_erase_eq_ite, if_neg hv]

/-! ## The operations -/

theorem lease?_changed (h : t.lease? worker = some t') : ChangedBy worker t t' := by
  rw [lease?] at h
  split at h
  · rename_i count hc
    cases h
    refine ⟨fun _ _ _ => .rfl, fun v hv => leases_setLease_of_ne hv, rfl, fun ht => ?_⟩
    exact ht.setLease (Nat.succ_pos _)
      (.inl (Std.TreeMap.mem_iff_isSome_getElem?.2 (by rw [hc]; rfl)))
  · split at h
    · rename_i hroom
      cases h
      exact ⟨fun _ _ _ => .rfl, fun v hv => leases_setLease_of_ne hv, rfl,
        fun ht => ht.setLease Nat.one_pos (.inr hroom)⟩
    · cases h

theorem unlease_changed (t : LockTable) (worker : Worker) :
    ChangedBy worker t (t.unlease worker) := by
  rw [unlease]
  split
  · rename_i count hc
    split
    · refine ⟨fun _ _ _ => .rfl, fun v hv => leases_setLease_of_ne hv, rfl, fun ht => ?_⟩
      exact ht.setLease (by omega) (.inl (Std.TreeMap.mem_iff_isSome_getElem?.2 (by rw [hc]; rfl)))
    · exact ⟨fun _ _ _ => .rfl, fun v hv => leases_erase_of_ne hv, rfl, fun ht => ht.erase worker⟩
  · exact .refl worker t

theorem surrender_changed (t : LockTable) (worker : Worker) :
    ChangedBy worker t (t.surrender worker) :=
  ⟨fun _ _ _ => .rfl, fun _ hv => leases_erase_of_ne hv, rfl, fun ht => ht.erase worker⟩

theorem restore?_changed (h : t.restore? worker count = some t') : ChangedBy worker t t' := by
  rw [restore?] at h
  split at h
  · cases h
    exact .refl worker t
  · rename_i hcount
    split at h
    · rename_i hroom
      cases h
      exact ⟨fun _ _ _ => .rfl, fun v hv => leases_setLease_of_ne hv, rfl,
        fun ht => ht.setLease (Nat.pos_of_ne_zero hcount) (.inr hroom)⟩
    · cases h

/-- A key that is taken was free. -/
theorem owner?_of_acquire? (h : t.acquire? keys worker = some t') {key : ResourceKey}
    (hkey : key ∈ keys) : t.owner? key = none := by
  rw [acquire?] at h
  split at h
  · rename_i hfree
    simpa [isFree] using List.all_eq_true.1 hfree key hkey
  · cases h

theorem acquire?_changed (h : t.acquire? keys worker = some t') : ChangedBy worker t t' := by
  have hcapacity : t'.capacity = t.capacity := by
    rw [acquire?] at h
    split at h
    · cases h
      rfl
    · cases h
  refine ⟨fun key v hv => ?_, fun v _ => by rw [leases_acquire? h], hcapacity,
    fun ht => ht.congr (leases_acquire? h) hcapacity⟩
  rw [owner?_acquire? h]
  split
  · rename_i hmem
    rw [owner?_of_acquire? h hmem]
    simp [Ne.symm hv]
  · rfl

@[simp] theorem capacity_release : (t.release keys worker).capacity = t.capacity := by
  induction keys generalizing t with
  | nil => rfl
  | cons k keys ih =>
    have hstep : t.release (k :: keys) worker = (t.releaseOne worker k).release keys worker := rfl
    rw [hstep, ih, releaseOne]
    split <;> rfl

theorem release_changed (t : LockTable) (keys : List ResourceKey) (worker : Worker) :
    ChangedBy worker t (t.release keys worker) := by
  refine ⟨fun key v hv => ?_, fun v _ => by rw [leases_release], capacity_release,
    fun ht => ht.congr (leases_release worker) capacity_release⟩
  rw [owner?_release]
  split
  · rename_i hmine
    rw [hmine.2]
    simp [Ne.symm hv]
  · rfl

/-! ## The steps of a script -/

def stepKey? : AccessStep → Option ResourceKey
  | .release key | .acquire key => some key
  | .note .. => none

variable {locks : ProjectLocks} {own : ProjectId} {step : AccessStep} {sight : Option Sight}

theorem take?_changed (h : t.take? locks own worker step = some (t', sight)) :
    ChangedBy worker t t' := by
  cases step with
  | release key =>
    cases h
    exact release_changed t [key] worker
  | acquire key =>
    obtain ⟨t₁, ht, he⟩ := Option.map_eq_some_iff.1 h
    cases he
    exact acquire?_changed ht
  | note inside project =>
    cases h
    exact .refl worker t

theorem leases_take? (h : t.take? locks own worker step = some (t', sight)) :
    t'.leases = t.leases := by
  cases step with
  | release key =>
    cases h
    exact leases_release worker
  | acquire key =>
    obtain ⟨t₁, ht, he⟩ := Option.map_eq_some_iff.1 h
    cases he
    exact leases_acquire? ht
  | note inside project =>
    cases h
    rfl

/-- A step leaves every key alone but its own. -/
theorem owner?_take? (h : t.take? locks own worker step = some (t', sight)) {key : ResourceKey}
    (hkey : stepKey? step ≠ some key) : t'.owner? key = t.owner? key := by
  cases step with
  | release k =>
    cases h
    have hne : key ≠ k := fun he => hkey (congrArg some he.symm)
    rw [owner?_release, if_neg fun hc => hne (List.mem_singleton.1 hc.1)]
  | acquire k =>
    obtain ⟨t₁, ht, he⟩ := Option.map_eq_some_iff.1 h
    cases he
    have hne : key ≠ k := fun he => hkey (congrArg some he.symm)
    rw [owner?_acquire? ht, if_neg fun hc => hne (List.mem_singleton.1 hc)]
  | note inside project =>
    cases h
    rfl

end LockTable

/-- The key guards the state of a project, or of all projects of a build. -/
def ResourceKey.GuardsState : ResourceKey → Prop
  | projectState _ | buildState _ => True
  | _ => False

theorem ProjectLocks.stateLock_guardsState (locks : ProjectLocks) (project : ProjectId) :
    (locks.stateLock project).GuardsState := by
  rw [stateLock]
  split <;> trivial

/-- A script trades the state locks of projects and nothing else. Induction is on the script. -/
theorem Script.guardsState_of_mem_steps {locks : ProjectLocks} {own : Option ResourceKey}
    (hown : ∀ key, own = some key → key.GuardsState) (script : Script) :
    ∀ step ∈ (script.steps locks own).1, ∀ key, LockTable.stepKey? step = some key →
      key.GuardsState := by
  have hbracket : ∀ (key : ResourceKey) (body : List AccessStep), key.GuardsState →
      (∀ step ∈ body, ∀ key, LockTable.stepKey? step = some key → key.GuardsState) →
      ∀ step ∈ AccessStep.bracket own key body, ∀ key, LockTable.stepKey? step = some key →
        key.GuardsState := by
    intro key body hkey hbody step hstep k hk
    rw [AccessStep.bracket] at hstep
    split at hstep
    · exact hbody step hstep k hk
    · simp only [AccessStep.releaseOwn, AccessStep.acquireOwn, List.mem_append, List.mem_cons,
        List.mem_map, Option.mem_toList] at hstep
      rcases hstep with (⟨own', ho, rfl⟩ | rfl | hstep) | rfl | ⟨own', ho, rfl⟩
      · cases hk
        exact hown _ ho
      · cases hk
        exact hkey
      · exact hbody step hstep k hk
      · cases hk
        exact hkey
      · cases hk
        exact hown _ ho
  induction script with
  | done => simp [steps]
  | panic payload => simp [steps]
  | within project inner next ihinner ihnext =>
    have hvisit := hbracket (locks.stateLock project)
      (.note true project :: (inner.steps locks own).1) (locks.stateLock_guardsState project) (by
        rintro step (_ | ⟨_, hstep⟩) key hk
        · cases hk
        · exact ihinner step hstep key hk)
    rw [steps]
    dsimp only
    split
    · exact hvisit
    · intro step hstep key hk
      rcases List.mem_append.1 hstep with hstep | hstep
      · exact hvisit step hstep key hk
      · rcases List.mem_cons.1 hstep with rfl | hstep
        · cases hk
        · exact ihnext step hstep key hk

end Foreman
