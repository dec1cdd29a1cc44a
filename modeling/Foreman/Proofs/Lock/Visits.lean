import Foreman.Plan
import Foreman.Proofs.Lock.Sharing

/-!
# Visits inside visits

A running task knows its own state lock, not what its worker holds. So a visit is a bracket (it ends
with the locks that it began with, and its script runs under the state lock of the project) only
where the worker holds what the task believes it to hold. Without another worker about, all visits
of a task are brackets just if nothing is visited from inside a visit that took a lock in exchange
for the task's own, and an isolated task visits nothing twice over (`Errand.brackets_iff_tame`).
-/

namespace Foreman

/-! ## Errands -/

/-- A task as far as its locks go. -/
structure Errand where
  project : ProjectId
  isolated : Bool
  shared : Std.TreeSet String
  script : Script

namespace Errand

def keys (e : Errand) (locks : ProjectLocks) : List ResourceKey :=
  locks.taskLocks e.project e.isolated e.shared

def ownState? (e : Errand) (locks : ProjectLocks) : Option ResourceKey :=
  if e.isolated then none else some (locks.stateLock e.project)

def stepsOf (e : Errand) (locks : ProjectLocks) (script : Script) :
    List AccessStep × Option Panic :=
  script.steps locks (e.ownState? locks)

end Errand

def TaskDefinition.errand (t : TaskDefinition) (build : BuildId) (script : Script) : Errand :=
  ⟨⟨build, t.path.project⟩, t.isolated, t.shared, script⟩

/-- The node of a task holds the keys of its errand while it runs. -/
theorem PlannedNode.lockKeys_eq_errand {n : PlannedNode} {t : TaskDefinition}
    (h : n.task? = some t) (build : BuildId) (locks : ProjectLocks) (script : Script) :
    n.lockKeys build locks = (t.errand build script).keys locks ∧
      n.ownState? build locks = (t.errand build script).ownState? locks := by
  rw [lockKeys, PlannedNode.ownState?, h]
  exact ⟨rfl, rfl⟩

theorem ProjectLocks.executionLock_not_guardsState (locks : ProjectLocks) (project : ProjectId) :
    ¬ (locks.executionLock project).GuardsState := by
  rw [executionLock]
  split <;> exact id

def Script.visits : Script → List ProjectId
  | within project inner next => project :: (inner.visits ++ next.visits)
  | _ => []

namespace Errand

variable {e : Errand} {locks : ProjectLocks} {w : Worker} {t t' t'' u : LockTable} {p q : ProjectId}
  {inner next body script : Script} {key k : ResourceKey} {steps rest : List AccessStep}
  {held : List ResourceKey} {concerned : ResourceKey → Prop}

/-- The one state lock among the keys of an errand is its own. -/
theorem ownState?_eq_some_iff : e.ownState? locks = some k ↔ k ∈ e.keys locks ∧ k.GuardsState := by
  have hshared : ∀ k ∈ e.shared.toList.map ResourceKey.shared, ¬ k.GuardsState := by
    intro k hk
    obtain ⟨name, _, rfl⟩ := List.mem_map.1 hk
    exact id
  rw [ownState?, keys, ProjectLocks.taskLocks, List.mem_append]
  split
  · refine iff_of_false (by simp) ?_
    rintro ⟨hk | hk, hs⟩
    · cases hk
    · exact hshared k hk hs
  · rw [Option.some.injEq, List.mem_pair]
    constructor
    · rintro rfl
      exact ⟨.inl (.inl rfl), locks.stateLock_guardsState e.project⟩
    · rintro ⟨(rfl | rfl) | hk, hs⟩
      · rfl
      · exact absurd hs (locks.executionLock_not_guardsState e.project)
      · exact absurd hs (hshared k hk)

/-! ## Running steps alone -/

/-- With no other worker about, the steps lead from the one table to the other. -/
def Runs (e : Errand) (locks : ProjectLocks) (w : Worker) (t : LockTable) (steps : List AccessStep)
    (t' : LockTable) : Prop :=
  ∃ sights, t.runSteps? locks e.project w steps = some (t', sights)

theorem runs_nil : e.Runs locks w t [] t' ↔ t' = t := by
  rw [Runs, LockTable.runSteps?]
  simp [eq_comm]

theorem runs_cons {step : AccessStep} : e.Runs locks w t (step :: steps) t'' ↔
    ∃ t' sight, t.take? locks e.project w step = some (t', sight) ∧
      e.Runs locks w t' steps t'' := by
  rw [Runs, LockTable.runSteps?]
  simp only [bind, Option.bind_eq_some_iff, pure, Option.some.injEq, Prod.exists, Prod.mk.injEq]
  constructor
  · rintro ⟨sights, t', sight, htake, t₁, later, hrun, rfl, _⟩
    exact ⟨t', sight, htake, later, hrun⟩
  · rintro ⟨t', sight, htake, later, hrun⟩
    exact ⟨_, t', sight, htake, t'', later, hrun, rfl, rfl⟩

theorem runs_release : e.Runs locks w t (.release key :: steps) t' ↔
    e.Runs locks w (t.release [key] w) steps t' := by
  rw [runs_cons]
  simp [LockTable.take?]

theorem runs_acquire : e.Runs locks w t (.acquire key :: steps) t'' ↔
    ∃ t', t.acquire? [key] w = some t' ∧ e.Runs locks w t' steps t'' := by
  rw [runs_cons]
  simp [LockTable.take?]

theorem runs_note {inside : Bool} : e.Runs locks w t (.note inside p :: steps) t' ↔
    e.Runs locks w t steps t' := by
  rw [runs_cons]
  simp [LockTable.take?]

theorem runs_append : e.Runs locks w t (steps ++ rest) t'' ↔
    ∃ t', e.Runs locks w t steps t' ∧ e.Runs locks w t' rest t'' := by
  induction steps generalizing t with
  | nil => simp [runs_nil]
  | cons step steps ih =>
    simp only [List.cons_append, runs_cons, ih]
    constructor
    · rintro ⟨t₁, sight, htake, t', hrun, hrest⟩
      exact ⟨t', ⟨t₁, sight, htake, hrun⟩, hrest⟩
    · rintro ⟨t', ⟨t₁, sight, htake, hrun⟩, hrest⟩
      exact ⟨t₁, sight, htake, t', hrun, hrest⟩

theorem Runs.unique (h : e.Runs locks w t steps t') (h' : e.Runs locks w t steps t'') :
    t' = t'' := by
  obtain ⟨sights, h⟩ := h
  obtain ⟨sights', h'⟩ := h'
  rw [h, Option.some.injEq, Prod.mk.injEq] at h'
  exact h'.1

theorem Runs.changed (h : e.Runs locks w t steps t') : LockTable.ChangedBy w t t' := by
  induction steps generalizing t with
  | nil =>
    rw [runs_nil] at h
    subst h
    exact .refl w t'
  | cons step steps ih =>
    obtain ⟨t₁, sight, htake, hrun⟩ := runs_cons.1 h
    exact (LockTable.take?_changed htake).trans (ih hrun)

/-- If the worker holds the same keys as before, everybody does. -/
theorem Runs.owner?_eq (h : e.Runs locks w t steps t')
    (hsame : ∀ key, t'.holds w key = t.holds w key) (key : ResourceKey) :
    t'.owner? key = t.owner? key := by
  refine Option.ext fun v => ?_
  by_cases hv : v = w
  · subst hv
    have hkey := hsame key
    simpa only [LockTable.holds, decide_eq_decide] using hkey
  · exact h.changed.owners key v hv

/-! ## Visits -/

def entry (e : Errand) (locks : ProjectLocks) (p : ProjectId) : List AccessStep :=
  if e.ownState? locks = some (locks.stateLock p) then []
  else AccessStep.releaseOwn (e.ownState? locks) ++ [.acquire (locks.stateLock p)]

/-- The steps from the script of the visit, or its panic, to the return from the call. -/
def exit (e : Errand) (locks : ProjectLocks) (p : ProjectId) : List AccessStep :=
  if e.ownState? locks = some (locks.stateLock p) then []
  else .release (locks.stateLock p) :: AccessStep.acquireOwn (e.ownState? locks)

def visit (e : Errand) (locks : ProjectLocks) (p : ProjectId) (inner : Script) : List AccessStep :=
  e.entry locks p ++ .note true p :: (e.stepsOf locks inner).1 ++ e.exit locks p

theorem stepsOf_within : e.stepsOf locks (.within p inner next) =
    match (e.stepsOf locks inner).2 with
    | some payload => (e.visit locks p inner, some payload)
    | none => (e.visit locks p inner ++ .note false p :: (e.stepsOf locks next).1,
        (e.stepsOf locks next).2) := by
  have hvisit : e.visit locks p inner = AccessStep.bracket (e.ownState? locks) (locks.stateLock p)
      (.note true p :: (e.stepsOf locks inner).1) := by
    rw [visit, entry, exit, AccessStep.bracket]
    split <;> simp
  rw [stepsOf, Script.steps, hvisit]
  rfl

theorem runs_visit : e.Runs locks w t (e.visit locks p inner) u ↔
    ∃ t' t'', e.Runs locks w t (e.entry locks p) t' ∧
      e.Runs locks w t' (e.stepsOf locks inner).1 t'' ∧ e.Runs locks w t'' (e.exit locks p) u := by
  simp only [visit, List.append_assoc, List.cons_append, runs_append, runs_note]
  constructor
  · rintro ⟨t', hentry, t'', hinner, hexit⟩
    exact ⟨t', t'', hentry, hinner, hexit⟩
  · rintro ⟨t', t'', hentry, hinner, hexit⟩
    exact ⟨t', hentry, t'', hinner, hexit⟩

/-- While the script runs from table `t`, project `q` is visited from table `u` to do `body`
there. -/
inductive Calls (e : Errand) (locks : ProjectLocks) (w : Worker) :
    LockTable → Script → LockTable → ProjectId → Script → Prop
  | here {t : LockTable} {p : ProjectId} {inner next : Script} :
      Calls e locks w t (.within p inner next) t p inner
  | inside {t t' u : LockTable} {p q : ProjectId} {inner next body : Script}
      (h : e.Runs locks w t (e.entry locks p) t') (hc : Calls e locks w t' inner u q body) :
      Calls e locks w t (.within p inner next) u q body
  | after {t t' u : LockTable} {p q : ProjectId} {inner next body : Script}
      (h : e.Runs locks w t (e.visit locks p inner) t')
      (hreturns : (e.stepsOf locks inner).2 = none)
      (hc : Calls e locks w t' next u q body) : Calls e locks w t (.within p inner next) u q body

/-- The visit returns or unwinds with the locks that the worker had before, and its script starts
under the state lock of the project. -/
structure Brackets (e : Errand) (locks : ProjectLocks) (w : Worker) (t : LockTable) (p : ProjectId)
    (inner : Script) : Prop where
  guarded : ∃ t', e.Runs locks w t (e.entry locks p) t' ∧ t'.holds w (locks.stateLock p) = true
  returns : ∃ t', e.Runs locks w t (e.visit locks p inner) t' ∧
    ∀ key, t'.holds w key = t.holds w key

/-- With the state locks in `held` taken by the visits around it, the script takes none of them
again, and it visits nothing where they were taken in exchange for the task's own. What follows a
panic does not count. -/
def Tame (e : Errand) (locks : ProjectLocks) : List ResourceKey → Script → Prop
  | held, .within p inner next =>
    (if e.ownState? locks = some (locks.stateLock p) then held = [] ∧ e.Tame locks held inner
      else (e.ownState? locks = none ∨ held = []) ∧ locks.stateLock p ∉ held ∧
        e.Tame locks (locks.stateLock p :: held) inner) ∧
      ((e.stepsOf locks inner).2 = none → e.Tame locks held next)
  | _, _ => True

instance decidableTame (e : Errand) (locks : ProjectLocks) :
    ∀ held script, Decidable (e.Tame locks held script)
  | _, .done => isTrue trivial
  | _, .panic _ => isTrue trivial
  | held, .within p inner next =>
    have : Decidable (e.Tame locks held inner) := decidableTame e locks held inner
    have : Decidable (e.Tame locks (locks.stateLock p :: held) inner) :=
      decidableTame e locks (locks.stateLock p :: held) inner
    have : Decidable (e.Tame locks held next) := decidableTame e locks held next
    inferInstanceAs (Decidable
      ((if e.ownState? locks = some (locks.stateLock p) then held = [] ∧ e.Tame locks held inner
        else (e.ownState? locks = none ∨ held = []) ∧ locks.stateLock p ∉ held ∧
          e.Tame locks (locks.stateLock p :: held) inner) ∧
        ((e.stepsOf locks inner).2 = none → e.Tame locks held next)))

/-- The table says that of the state locks in question the worker holds those that visits have
taken, and the task's own if there are none. -/
structure Within (e : Errand) (locks : ProjectLocks) (w : Worker) (concerned : ResourceKey → Prop)
    (held : List ResourceKey) (t : LockTable) : Prop where
  own : ∀ k, e.ownState? locks = some k → t.owner? k = if held = [] then some w else none
  visited : ∀ k, concerned k → e.ownState? locks ≠ some k →
    t.owner? k = if k ∈ held then some w else none

theorem Within.congr (h : e.Within locks w concerned held t)
    (ho : ∀ key, t'.owner? key = t.owner? key) :
    e.Within locks w concerned held t' := by
  refine ⟨fun k hk => ?_, fun k hk hne => ?_⟩
  · rw [ho, h.own k hk]
  · rw [ho, h.visited k hk hne]

theorem exists_acquire_one (h : t.owner? key = none) (w : Worker) :
    ∃ t', t.acquire? [key] w = some t' ∧
      ∀ k, t'.owner? k = if k = key then some w else t.owner? k := by
  have hfree : [key].all t.isFree = true := by simp [LockTable.isFree, h]
  have hacq : t.acquire? [key] w = some (t.give [key] w) := if_pos hfree
  refine ⟨_, hacq, fun k => ?_⟩
  rw [LockTable.owner?_acquire? hacq]
  simp only [List.mem_singleton]

theorem owner?_release_one (h : t.owner? key = some w) (k : ResourceKey) :
    (t.release [key] w).owner? k = if k = key then none else t.owner? k := by
  rw [LockTable.owner?_release]
  by_cases hk : k = key
  · subst hk
    simp [h]
  · simp [hk]

theorem entry_of_own (h : e.ownState? locks = some (locks.stateLock p)) : e.entry locks p = [] :=
  if_pos h

theorem exit_of_own (h : e.ownState? locks = some (locks.stateLock p)) : e.exit locks p = [] :=
  if_pos h

/-- A visit that may take its lock can be entered, and left when its script has put the locks
back. -/
theorem Within.enter (h : e.Within locks w concerned held t) (hc : concerned (locks.stateLock p))
    (hne : e.ownState? locks ≠ some (locks.stateLock p))
    (hheld : e.ownState? locks = none ∨ held = []) (hfresh : locks.stateLock p ∉ held) :
    ∃ t', e.Runs locks w t (e.entry locks p) t' ∧
      e.Within locks w concerned (locks.stateLock p :: held) t' ∧
      t'.holds w (locks.stateLock p) = true ∧
      ∀ u, (∀ k, u.owner? k = t'.owner? k) →
        ∃ u', e.Runs locks w u (e.exit locks p) u' ∧ ∀ k, u'.owner? k = t.owner? k := by
  have hfree : t.owner? (locks.stateLock p) = none := by
    rw [h.visited _ hc hne, if_neg hfresh]
  rw [entry, if_neg hne, exit, if_neg hne]
  cases hown : e.ownState? locks with
  | none =>
    obtain ⟨t', hacq, howner⟩ := exists_acquire_one hfree w
    refine ⟨t', ?_, ⟨?_, fun k hk hne' => ?_⟩, ?_,
      fun u hu => ⟨u.release [locks.stateLock p] w, ?_, ?_⟩⟩
    · exact runs_acquire.2 ⟨t', hacq, runs_nil.2 rfl⟩
    · intro k hk
      cases hown.symm.trans hk
    · rw [howner, h.visited k hk hne']
      by_cases hkp : k = locks.stateLock p <;> simp [hkp]
    · simp [LockTable.holds, howner]
    · exact runs_release.2 (runs_nil.2 rfl)
    · intro k
      have hheld : u.owner? (locks.stateLock p) = some w := by rw [hu, howner, if_pos rfl]
      rw [owner?_release_one hheld, hu, howner]
      by_cases hkp : k = locks.stateLock p <;> simp [hkp, hfree]
  | some a =>
    have hnil : held = [] := hheld.resolve_left (by simp [hown])
    subst hnil
    have hap : locks.stateLock p ≠ a := by
      rintro rfl
      exact hne hown
    have ha : t.owner? a = some w := h.own a hown
    have hreleased := owner?_release_one ha
    have hfree' : (t.release [a] w).owner? (locks.stateLock p) = none := by
      rw [hreleased, if_neg hap, hfree]
    obtain ⟨t', hacq, howner⟩ := exists_acquire_one hfree' w
    have htarget : t'.owner? (locks.stateLock p) = some w := by rw [howner, if_pos rfl]
    have hgone : t'.owner? a = none := by rw [howner, if_neg hap.symm, hreleased, if_pos rfl]
    refine ⟨t', ?_, ⟨?_, fun k hk hne' => ?_⟩, by simp [LockTable.holds, htarget], fun u hu => ?_⟩
    · exact runs_release.2 (runs_acquire.2 ⟨t', hacq, runs_nil.2 rfl⟩)
    · intro k hk
      cases hown.symm.trans hk
      simp [hgone]
    · have hka : k ≠ a := by
        rintro rfl
        exact hne' hown
      rw [howner, hreleased, if_neg hka, h.visited k hk hne']
      by_cases hkp : k = locks.stateLock p <;> simp [hkp]
    · have hleft := owner?_release_one (w := w) ((hu _).trans htarget)
      obtain ⟨u', hback, howner'⟩ := exists_acquire_one (t := u.release [locks.stateLock p] w)
        (by rw [hleft, if_neg hap.symm, hu, hgone]) w
      refine ⟨u', runs_release.2 (runs_acquire.2 ⟨u', hback, runs_nil.2 rfl⟩), fun k => ?_⟩
      rw [howner', hleft, hu, howner, hreleased]
      by_cases hka : k = a <;> by_cases hkp : k = locks.stateLock p <;>
        simp [hka, hkp, ha, hfree, hap]

/-! ## When visits are brackets -/

theorem concerned_within
    (h : ∀ q ∈ (Script.within p inner next).visits, concerned (locks.stateLock q)) :
    concerned (locks.stateLock p) ∧ (∀ q ∈ inner.visits, concerned (locks.stateLock q)) ∧
      ∀ q ∈ next.visits, concerned (locks.stateLock q) :=
  ⟨h p (List.mem_cons_self ..), fun q hq => h q
    (List.mem_cons_of_mem _ (List.mem_append_left _ hq)),
    fun q hq => h q (List.mem_cons_of_mem _ (List.mem_append_right _ hq))⟩

/-- A tame visit can be entered, its script is tame there, and it can be left when its script has
put the locks back. -/
theorem Within.visit (h : e.Within locks w concerned held t) (hc : concerned (locks.stateLock p))
    (htame : e.Tame locks held (.within p inner next)) :
    ∃ t' held', e.Runs locks w t (e.entry locks p) t' ∧ e.Within locks w concerned held' t' ∧
      e.Tame locks held' inner ∧ t'.holds w (locks.stateLock p) = true ∧
      ∀ u, (∀ k, u.owner? k = t'.owner? k) →
        ∃ u', e.Runs locks w u (e.exit locks p) u' ∧ ∀ k, u'.owner? k = t.owner? k := by
  have hvisit := htame.1
  split at hvisit
  · rename_i hown
    obtain ⟨rfl, hinner⟩ := hvisit
    refine ⟨t, [], ?_, h, hinner, by simp [LockTable.holds, h.own _ hown], fun u hu => ⟨u, ?_, hu⟩⟩
    · rw [entry_of_own hown]
      exact runs_nil.2 rfl
    · rw [exit_of_own hown]
      exact runs_nil.2 rfl
  · rename_i hne
    obtain ⟨hheld, hfresh, hinner⟩ := hvisit
    obtain ⟨t', hentry, hwithin, hholds, hexit⟩ := h.enter hc hne hheld hfresh
    exact ⟨t', _, hentry, hwithin, hinner, hholds, hexit⟩

/-- A tame script runs to its end or its panic and puts all locks back. Induction is on the
script. -/
theorem Within.runs_of_tame (h : e.Within locks w concerned held t)
    (hc : ∀ p ∈ script.visits, concerned (locks.stateLock p)) (htame : e.Tame locks held script) :
    ∃ t', e.Runs locks w t (e.stepsOf locks script).1 t' ∧ ∀ k, t'.owner? k = t.owner? k := by
  induction script generalizing held t with
  | done => exact ⟨t, runs_nil.2 rfl, fun _ => rfl⟩
  | panic payload => exact ⟨t, runs_nil.2 rfl, fun _ => rfl⟩
  | within p inner next ihinner ihnext =>
    obtain ⟨hp, hci, hcn⟩ := concerned_within hc
    obtain ⟨t₁, held', hentry, hwithin, htame', -, hexit⟩ := h.visit hp htame
    obtain ⟨t₂, hinner, ho⟩ := ihinner hwithin hci htame'
    obtain ⟨t₃, hleft, ho'⟩ := hexit t₂ ho
    have hvisit : e.Runs locks w t (e.visit locks p inner) t₃ :=
      runs_visit.2 ⟨t₁, t₂, hentry, hinner, hleft⟩
    rw [stepsOf_within]
    split
    · exact ⟨t₃, hvisit, ho'⟩
    · rename_i hnone
      obtain ⟨t₄, hnext, ho''⟩ := ihnext (h.congr ho') hcn (htame.2 hnone)
      exact ⟨t₄, runs_append.2 ⟨t₃, hvisit, runs_note.2 hnext⟩, fun k => (ho'' k).trans (ho' k)⟩

/-- A tame visit is a bracket. -/
theorem Within.brackets (h : e.Within locks w concerned held t)
    (hc : ∀ q ∈ (Script.within p inner next).visits, concerned (locks.stateLock q))
    (htame : e.Tame locks held (.within p inner next)) : e.Brackets locks w t p inner := by
  obtain ⟨hp, hci, -⟩ := concerned_within hc
  obtain ⟨t₁, held', hentry, hwithin, htame', hholds, hexit⟩ := h.visit hp htame
  obtain ⟨t₂, hinner, ho⟩ := hwithin.runs_of_tame hci htame'
  obtain ⟨t₃, hleft, ho'⟩ := hexit t₂ ho
  refine ⟨⟨t₁, hentry, hholds⟩, t₃, runs_visit.2 ⟨t₁, t₂, hentry, hinner, hleft⟩, fun key => ?_⟩
  rw [LockTable.holds, LockTable.holds, ho']

/-- All visits of a tame script are brackets. Induction is on how the visit is reached. -/
theorem Calls.brackets_of_tame (hcall : e.Calls locks w t script u q body)
    (h : e.Within locks w concerned held t)
    (hc : ∀ p ∈ script.visits, concerned (locks.stateLock p))
    (htame : e.Tame locks held script) : e.Brackets locks w u q body := by
  induction hcall generalizing held with
  | here => exact h.brackets hc htame
  | inside hentry _ ih =>
    obtain ⟨hp, hci, -⟩ := concerned_within hc
    obtain ⟨t₁, held', hentry', hwithin, htame', -⟩ := h.visit hp htame
    cases hentry.unique hentry'
    exact ih hwithin hci htame'
  | after hvisit hnone _ ih =>
    obtain ⟨-, -, hcn⟩ := concerned_within hc
    obtain ⟨t₁, hvisit', hsame⟩ := (h.brackets hc htame).returns
    cases hvisit.unique hvisit'
    exact ih (h.congr (hvisit.owner?_eq hsame)) hcn (htame.2 hnone)

/-- What a visit takes was free, also after the task's own lock was given up. -/
theorem Within.not_mem_of_entry (h : e.Within locks w concerned held t)
    (hc : concerned (locks.stateLock p)) (hne : e.ownState? locks ≠ some (locks.stateLock p))
    (hentry : e.Runs locks w t (e.entry locks p) t') : locks.stateLock p ∉ held := by
  intro hmem
  have htaken : t.owner? (locks.stateLock p) = some w := by rw [h.visited _ hc hne, if_pos hmem]
  rw [entry, if_neg hne] at hentry
  cases hown : e.ownState? locks with
  | none =>
    rw [hown] at hentry
    obtain ⟨t₁, hacq, -⟩ := runs_acquire.1 hentry
    cases (LockTable.owner?_of_acquire? hacq (List.mem_singleton_self _)).symm.trans htaken
  | some a =>
    have hap : locks.stateLock p ≠ a := by
      rintro rfl
      exact hne hown
    rw [hown] at hentry
    obtain ⟨t₁, hacq, -⟩ := runs_acquire.1 (runs_release.1 hentry)
    have hfree := LockTable.owner?_of_acquire? hacq (List.mem_singleton_self _)
    rw [LockTable.owner?_release, if_neg (by simp [hap])] at hfree
    cases hfree.symm.trans htaken

/-- Whoever leaves a visit of another project has its own state lock again. -/
theorem holds_of_exit {a : ResourceKey} (hown : e.ownState? locks = some a)
    (hne : e.ownState? locks ≠ some (locks.stateLock p))
    (h : e.Runs locks w t (e.exit locks p) t') :
    t'.holds w a = true := by
  rw [exit, if_neg hne, hown] at h
  obtain ⟨t₁, hacq, hnil⟩ := runs_acquire.1 (runs_release.1 h)
  rw [runs_nil.1 hnil, LockTable.holds, LockTable.owner?_acquire? hacq]
  simp

/-- A script is tame if all its visits are brackets. Induction is on the script. -/
theorem Within.tame_of_brackets (h : e.Within locks w concerned held t)
    (hc : ∀ p ∈ script.visits, concerned (locks.stateLock p))
    (hall : ∀ u q body, e.Calls locks w t script u q body → e.Brackets locks w u q body) :
    e.Tame locks held script := by
  induction script generalizing held t with
  | done => trivial
  | panic payload => trivial
  | within p inner next ihinner ihnext =>
    obtain ⟨hp, hci, hcn⟩ := concerned_within hc
    obtain ⟨⟨t₁, hentry, hholds⟩, t₂, hvisit, hsame⟩ := hall _ _ _ .here
    refine ⟨?_, fun hnone => ihnext (h.congr (hvisit.owner?_eq hsame)) hcn
      fun u q body hcall => hall u q body (.after hvisit hnone hcall)⟩
    split
    · rename_i hown
      have hheld : held = [] := by
        rw [entry_of_own hown] at hentry
        rw [runs_nil.1 hentry, LockTable.holds, decide_eq_true_eq, h.own _ hown] at hholds
        by_contra hnot
        rw [if_neg hnot] at hholds
        cases hholds
      subst hheld
      rw [entry_of_own hown] at hentry
      cases runs_nil.1 hentry
      exact ⟨rfl, ihinner h hci fun u q body hcall => hall u q body
        (.inside (by rw [entry_of_own hown]; exact runs_nil.2 rfl) hcall)⟩
    · rename_i hne
      have hheld : e.ownState? locks = none ∨ held = [] := by
        cases hown : e.ownState? locks with
        | none => exact .inl rfl
        | some a =>
          refine .inr ?_
          by_contra hnot
          obtain ⟨_, t₃, -, -, hexit⟩ := runs_visit.1 hvisit
          have hback := holds_of_exit hown hne hexit
          rw [hsame, LockTable.holds, decide_eq_true_eq, h.own a hown, if_neg hnot] at hback
          cases hback
      have hfresh := h.not_mem_of_entry hp hne hentry
      obtain ⟨t₁', hentry', hwithin, -⟩ := h.enter hp hne hheld hfresh
      cases hentry.unique hentry'
      exact ⟨hheld, hfresh, ihinner hwithin hci
        fun u q body hcall => hall u q body (.inside hentry hcall)⟩

/-- The worker runs the task: it holds just the task's keys, and no other worker holds a state lock
that the script asks for. -/
structure Running (e : Errand) (locks : ProjectLocks) (w : Worker) (t : LockTable) : Prop where
  holds : ∀ key, t.owner? key = some w ↔ key ∈ e.keys locks
  alone : ∀ p ∈ e.script.visits, ∀ v, t.owner? (locks.stateLock p) = some v → v = w

theorem Running.within (h : e.Running locks w t) :
    e.Within locks w (fun k => ∃ p ∈ e.script.visits, locks.stateLock p = k) [] t where
  own k hk := by
    rw [if_pos rfl]
    exact (h.holds k).2 (ownState?_eq_some_iff.1 hk).1
  visited := by
    rintro k ⟨p, hp, rfl⟩ hne
    rw [if_neg List.not_mem_nil]
    cases ho : t.owner? (locks.stateLock p) with
    | none => rfl
    | some v =>
      cases h.alone p hp v ho
      exact absurd (ownState?_eq_some_iff.2 ⟨(h.holds _).1 ho, locks.stateLock_guardsState p⟩) hne

/-- With no other worker about, all visits of a task are brackets, at every depth, just if its
script is tame. -/
theorem Running.brackets_iff_tame (h : e.Running locks w t) :
    (∀ u q body, e.Calls locks w t e.script u q body → e.Brackets locks w u q body) ↔
      e.Tame locks [] e.script :=
  ⟨h.within.tame_of_brackets fun p hp => ⟨p, hp, rfl⟩,
    fun htame _ _ _ hcall => hcall.brackets_of_tame h.within (fun p hp => ⟨p, hp, rfl⟩) htame⟩

def begun (e : Errand) (locks : ProjectLocks) : LockTable :=
  (LockTable.empty 1).give (e.keys locks) 0

theorem running_begun (e : Errand) (locks : ProjectLocks) : e.Running locks 0 (e.begun locks) := by
  have howner : ∀ key, (e.begun locks).owner? key =
      if key ∈ e.keys locks then some 0 else none := by
    intro key
    rw [begun, LockTable.owner?_give]
    simp [LockTable.owner?, LockTable.empty]
  refine ⟨fun key => ?_, fun p _ v hv => ?_⟩
  · rw [howner]
    split <;> simp_all
  · rw [howner] at hv
    split at hv <;> cases hv
    rfl

/-- A task that visits its own project and from there another one, where it panics. -/
def homely : Errand :=
  ⟨⟨⟨"main"⟩, ":"⟩, false, ∅,
    .within ⟨⟨"main"⟩, ":"⟩ (.within ⟨⟨"main"⟩, ":b"⟩ (.panic .other) .done) .done⟩

/-- Both visits are brackets. -/
theorem homely_brackets : homely.Running ⟨true⟩ 0 (homely.begun ⟨true⟩) ∧
    ∀ u q body, homely.Calls ⟨true⟩ 0 (homely.begun ⟨true⟩) homely.script u q body →
      homely.Brackets ⟨true⟩ 0 u q body :=
  ⟨running_begun _ _, (running_begun homely ⟨true⟩).brackets_iff_tame.2 (by decide +kernel)⟩

/-- A task that visits another project and from there its own. -/
def homesick : Errand :=
  ⟨⟨⟨"main"⟩, ":"⟩, false, ∅,
    .within ⟨⟨"main"⟩, ":b"⟩ (.within ⟨⟨"main"⟩, ":"⟩ .done .done) .done⟩

/-- The inner visit runs without the state lock of its project. -/
theorem homesick_unguarded : homesick.Running ⟨true⟩ 0 (homesick.begun ⟨true⟩) ∧
    ∃ u q body, homesick.Calls ⟨true⟩ 0 (homesick.begun ⟨true⟩) homesick.script u q body ∧
      ¬ homesick.Brackets ⟨true⟩ 0 u q body := by
  have hwithin := (running_begun homesick ⟨true⟩).within
  obtain ⟨t, hentry, ht, -⟩ := hwithin.enter ⟨⟨⟨"main"⟩, ":b"⟩, by decide +kernel, rfl⟩
    (by decide +kernel) (.inr rfl) List.not_mem_nil
  refine ⟨running_begun _ _, t, ⟨⟨"main"⟩, ":"⟩, .done, .inside hentry .here, fun hb => ?_⟩
  obtain ⟨t', hrun, hholds⟩ := hb.guarded
  have hown : homesick.ownState? ⟨true⟩ = some (.projectState ⟨⟨"main"⟩, ":"⟩) := rfl
  rw [entry_of_own hown] at hrun
  have hgone := ht.own _ hown
  rw [if_neg (List.cons_ne_nil _ _)] at hgone
  rw [runs_nil.1 hrun, LockTable.holds, decide_eq_true_eq] at hholds
  cases hgone.symm.trans hholds

end Errand

end Foreman
