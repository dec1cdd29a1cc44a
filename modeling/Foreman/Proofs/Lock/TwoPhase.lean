import Foreman.Proofs.Lock.Visits
import Mathlib.Order.BooleanAlgebra.Set

/-!
# Two-phase access

Workers take the keys of a task all at once, visit projects one after another, and give the keys
back. While a visit waits for a state lock its worker holds no state lock (`TwoPhase`), so whoever
holds a state lock is not itself waiting, and execution locks and shared resources are held by
workers that wait for state locks at most. However the workers take turns, one of them can go on
(`Reached.no_deadlock`).
-/

namespace Foreman

/-! ## Flat scripts -/

/-- The script makes no visit. -/
def Script.Still : Script → Prop
  | within .. => False
  | _ => True

/-- The script makes its visits one after another, none inside another. -/
def Script.Flat : Script → Prop
  | within _ inner next => inner.Still ∧ next.Flat
  | _ => True

variable {locks : ProjectLocks} {own : Option ResourceKey} {key k : ResourceKey}
  {steps rest : List AccessStep} {e : Errand} {final mid held : Set ResourceKey}

/-! ## Steps in two phases -/

/-- From the held keys the steps lead to the final ones, and they wait only for state locks and only
while no state lock is held. -/
def TwoPhase (final : Set ResourceKey) : Set ResourceKey → List AccessStep → Prop
  | held, [] => held = final
  | held, .release key :: steps => key ∈ held ∧ TwoPhase final (held \ {key}) steps
  | held, .acquire key :: steps =>
    (∀ k ∈ held, ¬ k.GuardsState) ∧ key.GuardsState ∧ TwoPhase final (insert key held) steps
  | held, .note .. :: steps => TwoPhase final held steps

theorem TwoPhase.append (h : TwoPhase mid held steps) (hrest : TwoPhase final mid rest) :
    TwoPhase final held (steps ++ rest) := by
  induction steps generalizing held with
  | nil =>
    cases h
    exact hrest
  | cons step steps ih =>
    cases step with
    | release key => exact ⟨h.1, ih h.2⟩
    | acquire key => exact ⟨h.1, h.2.1, ih h.2.2⟩
    | note inside project => exact ih h

/-- A visit that makes no other ends with the keys it began with, if the only state lock among them
is the task's own. -/
theorem twoPhase_bracket (hown : ∀ k, own = some k ↔ k ∈ held ∧ k.GuardsState)
    (hkey : key.GuardsState) (inside : Bool) (project : ProjectId) :
    TwoPhase held held (AccessStep.bracket own key [.note inside project]) := by
  rw [AccessStep.bracket]
  split
  · rfl
  · rename_i hne
    have hfresh : key ∉ held := fun hmem => hne ((hown key).2 ⟨hmem, hkey⟩)
    cases own with
    | none =>
      have hguards : ∀ k ∈ held, ¬ k.GuardsState := by
        intro k hk hs
        cases (hown k).2 ⟨hk, hs⟩
      exact ⟨hguards, hkey, Set.mem_insert key held, Set.insert_sdiff_self_of_notMem hfresh⟩
    | some o =>
      obtain ⟨ho, hstate⟩ := (hown o).1 rfl
      have hguards : ∀ k ∈ held \ {o}, ¬ k.GuardsState := by
        rintro k ⟨hk, hko⟩ hs
        exact hko (Option.some.inj ((hown k).2 ⟨hk, hs⟩)).symm
      have hleft : insert key (held \ {o}) \ {key} = held \ {o} :=
        Set.insert_sdiff_self_of_notMem fun hmem => hfresh hmem.1
      have hback : insert o (held \ {o}) = held := by
        rw [Set.insert_sdiff_singleton, Set.insert_eq_of_mem ho]
      refine ⟨ho, hguards, hkey, Set.mem_insert key _, ?_⟩
      rw [hleft]
      exact ⟨hguards, hstate, hback⟩

/-- A script without visits inside visits goes in two phases. Induction is on the script. -/
theorem twoPhase_steps (hown : ∀ k, own = some k ↔ k ∈ held ∧ k.GuardsState) {script : Script}
    (hflat : script.Flat) : TwoPhase held held (script.steps locks own).1 := by
  induction script with
  | done => rfl
  | panic payload => rfl
  | within project inner next _ ih =>
    have hvisit := twoPhase_bracket hown (locks.stateLock_guardsState project) true project
    obtain ⟨hstill, hnext⟩ := hflat
    cases inner with
    | within => cases hstill
    | panic payload => exact hvisit
    | done => exact hvisit.append (ih hnext)

theorem Errand.twoPhase (h : e.script.Flat) :
    TwoPhase {k | k ∈ e.keys locks} {k | k ∈ e.keys locks} (e.stepsOf locks e.script).1 :=
  twoPhase_steps (fun _ => ownState?_eq_some_iff) h

/-! ## Workers side by side -/

/-- Where a worker is. -/
inductive Phase
  /-- Between two tasks. -/
  | idle
  /-- The worker has chosen a task and takes its keys. -/
  | asking (errand : Errand)
  /-- The worker holds the keys and has these steps left. -/
  | busy (errand : Errand) (rest : List AccessStep)

/-- The keys that the worker's next step takes. -/
def Phase.wants (locks : ProjectLocks) : Phase → List ResourceKey
  | asking errand => errand.keys locks
  | busy _ (.acquire key :: _) => [key]
  | _ => []

/-- The held keys are those of a worker at this point. -/
def Phase.Holds (locks : ProjectLocks) (held : Set ResourceKey) : Phase → Prop
  | idle => held = ∅
  | asking errand => held = ∅ ∧ errand.script.Flat
  | busy errand rest => TwoPhase {k | k ∈ errand.keys locks} held rest

/-- The table and what each worker is at. -/
structure Traffic where
  table : LockTable
  phase : Worker → Phase

namespace Traffic

def turn (s : Traffic) (w : Worker) (table : LockTable) (phase : Phase) : Traffic :=
  ⟨table, Function.update s.phase w phase⟩

/-- A worker takes a step: it chooses a task, takes all the keys of the task, takes a step of its
script, or gives all the keys back. A step that takes keys has to wait until all of them are
free. -/
inductive Moves (locks : ProjectLocks) (w : Worker) (s : Traffic) : Traffic → Prop
  | choose (e : Errand) (hflat : e.script.Flat) (h : s.phase w = .idle) :
      Moves locks w s (s.turn w s.table (.asking e))
  | enter {e : Errand} {t : LockTable} (h : s.phase w = .asking e)
      (ht : s.table.acquire? (e.keys locks) w = some t) :
      Moves locks w s (s.turn w t (.busy e (e.stepsOf locks e.script).1))
  | step {e : Errand} {step : AccessStep} {rest : List AccessStep} {t : LockTable}
      {sight : Option Sight} (h : s.phase w = .busy e (step :: rest))
      (ht : s.table.take? locks e.project w step = some (t, sight)) :
      Moves locks w s (s.turn w t (.busy e rest))
  | leave {e : Errand} (h : s.phase w = .busy e []) :
      Moves locks w s (s.turn w (s.table.release (e.keys locks) w) .idle)

/-- What any number of workers come to, in any order of their steps. -/
inductive Reached (locks : ProjectLocks) : Traffic → Prop
  | start {table : LockTable} (h : table.Unlocked) : Reached locks ⟨table, fun _ => .idle⟩
  | move {s s' : Traffic} {w : Worker} (h : Reached locks s) (hm : s.Moves locks w s') :
      Reached locks s'

/-- The worker's next step takes the key, which is not free. -/
def Waits (s : Traffic) (locks : ProjectLocks) (w : Worker) (key : ResourceKey) : Prop :=
  key ∈ (s.phase w).wants locks ∧ s.table.isFree key = false

variable {s s' : Traffic} {v w : Worker} {t : LockTable}

/-! ## Who holds what -/

/-- What the worker holds by the table. -/
def heldBy (s : Traffic) (w : Worker) : Set ResourceKey := {key | s.table.owner? key = some w}

/-- The table says of each worker what goes with where it is. -/
def Tracked (s : Traffic) (locks : ProjectLocks) : Prop :=
  ∀ w, (s.phase w).Holds locks (s.heldBy w)

theorem phase_turn_self (phase : Phase) : (s.turn w t phase).phase w = phase :=
  Function.update_self ..

theorem phase_turn_of_ne (h : v ≠ w) (phase : Phase) : (s.turn w t phase).phase v = s.phase v :=
  Function.update_of_ne h ..

/-- A step of one worker leaves the others where they are and what they hold. -/
theorem Tracked.turn (h : s.Tracked locks) {phase : Phase} (hc : LockTable.ChangedBy w s.table t)
    (hw : phase.Holds locks ((s.turn w t phase).heldBy w)) : (s.turn w t phase).Tracked locks := by
  intro v
  by_cases hv : v = w
  · subst hv
    rw [phase_turn_self]
    exact hw
  · have hheld : (s.turn w t phase).heldBy v = s.heldBy v := by
      ext key
      exact hc.owners key v hv
    rw [hheld, phase_turn_of_ne hv]
    exact h v

theorem heldBy_acquire? {keys : List ResourceKey} {phase : Phase}
    (h : s.table.acquire? keys w = some t) :
    (s.turn w t phase).heldBy w = {key | key ∈ keys} ∪ s.heldBy w := by
  ext key
  have howner := LockTable.owner?_acquire? h key
  change t.owner? key = some w ↔ key ∈ keys ∨ s.table.owner? key = some w
  by_cases hkey : key ∈ keys <;> simp [howner, hkey]

theorem heldBy_release (s : Traffic) (keys : List ResourceKey) (w : Worker) (phase : Phase) :
    (s.turn w (s.table.release keys w) phase).heldBy w = s.heldBy w \ {key | key ∈ keys} := by
  ext key
  have howner : (s.table.release keys w).owner? key =
      if key ∈ keys ∧ s.table.owner? key = some w then none else s.table.owner? key :=
    LockTable.owner?_release w key
  change (s.table.release keys w).owner? key = some w ↔ s.table.owner? key = some w ∧ key ∉ keys
  by_cases hkey : key ∈ keys <;> simp [howner, hkey]

theorem Tracked.move (h : s.Tracked locks) (hm : s.Moves locks w s') : s'.Tracked locks := by
  have hw := h w
  cases hm with
  | choose e hflat hphase =>
    rw [hphase] at hw
    exact h.turn (.refl w s.table) ⟨hw, hflat⟩
  | @enter e t hphase ht =>
    rw [hphase] at hw
    refine h.turn (LockTable.acquire?_changed ht) ?_
    rw [heldBy_acquire? ht, hw.1, Set.union_empty]
    exact Errand.twoPhase hw.2
  | @step e step rest t sight hphase ht =>
    rw [hphase] at hw
    refine h.turn (LockTable.take?_changed ht) ?_
    cases step with
    | release key =>
      cases ht
      have hset : {k | k ∈ [key]} = ({key} : Set ResourceKey) := by
        ext k
        exact List.mem_singleton
      rw [heldBy_release, hset]
      exact hw.2
    | acquire key =>
      obtain ⟨t₁, ht₁, he⟩ := Option.map_eq_some_iff.1 ht
      cases he
      have hset : {k | k ∈ [key]} ∪ s.heldBy w = insert key (s.heldBy w) := by
        ext k
        simp
      rw [heldBy_acquire? ht₁, hset]
      exact hw.2.2
    | note inside project =>
      cases ht
      exact hw
  | @leave e hphase =>
    rw [hphase] at hw
    refine h.turn (LockTable.release_changed s.table _ w) ?_
    rw [heldBy_release, show s.heldBy w = _ from hw, Set.sdiff_self]
    rfl

theorem Reached.tracked (h : Reached locks s) : s.Tracked locks := by
  induction h with
  | start hfree =>
    intro w
    refine Set.eq_empty_of_forall_notMem fun key hkey => ?_
    cases (hfree key).symm.trans hkey
  | move _ hm ih => exact ih.move hm

/-! ## Who can go on -/

/-- Whoever holds a key is at the steps of a script. -/
theorem Tracked.busy (h : s.Tracked locks) (ho : s.table.owner? key = some v) :
    ∃ e rest, s.phase v = .busy e rest ∧ TwoPhase {k | k ∈ e.keys locks} (s.heldBy v) rest := by
  have hv := h v
  have hkey : key ∈ s.heldBy v := ho
  cases hphase : s.phase v with
  | idle =>
    rw [hphase] at hv
    rw [show s.heldBy v = ∅ from hv] at hkey
    cases hkey
  | asking e =>
    rw [hphase] at hv
    rw [hv.1] at hkey
    cases hkey
  | busy e rest =>
    rw [hphase] at hv
    exact ⟨e, rest, rfl, hv⟩

/-- Whoever holds a state lock does not wait. -/
theorem Tracked.not_waits (h : s.Tracked locks) (hkey : key.GuardsState)
    (ho : s.table.owner? key = some v) (key' : ResourceKey) : ¬ s.Waits locks v key' := by
  rintro ⟨hwants, -⟩
  obtain ⟨e, rest, hphase, htwo⟩ := h.busy ho
  rw [hphase] at hwants
  cases rest with
  | nil => cases hwants
  | cons step rest =>
    cases step with
    | release key => cases hwants
    | note inside project => cases hwants
    | acquire k => exact htwo.1 key ho hkey

/-- Whoever holds a key waits for a state lock at most. -/
theorem Tracked.guardsState_of_waits (h : s.Tracked locks) (ho : s.table.owner? key = some v)
    {key' : ResourceKey} (hw : s.Waits locks v key') : key'.GuardsState := by
  obtain ⟨hwants, -⟩ := hw
  obtain ⟨e, rest, hphase, htwo⟩ := h.busy ho
  rw [hphase] at hwants
  cases rest with
  | nil => cases hwants
  | cons step rest =>
    cases step with
    | release key => cases hwants
    | note inside project => cases hwants
    | acquire k =>
      rw [Phase.wants, List.mem_singleton] at hwants
      subst hwants
      exact htwo.2.1

theorem exists_owner_of_waits (h : s.Waits locks w key) : ∃ v, s.table.owner? key = some v := by
  have hfree := h.2
  rw [LockTable.isFree, Option.isNone_eq_false_iff] at hfree
  exact Option.isSome_iff_exists.1 hfree

/-- Keys that cannot be taken are not all free. -/
theorem acquire?_cases (t : LockTable) (keys : List ResourceKey) (w : Worker) :
    (∃ t', t.acquire? keys w = some t') ∨ ∃ key ∈ keys, t.isFree key = false := by
  rw [LockTable.acquire?]
  split
  · exact .inl ⟨_, rfl⟩
  · rename_i hall
    simpa using hall

/-- A worker takes its next step, or it waits. -/
theorem moves_or_waits (s : Traffic) (locks : ProjectLocks) (w : Worker) :
    (∃ s', s.Moves locks w s') ∨ ∃ key, s.Waits locks w key := by
  cases hphase : s.phase w with
  | idle => exact .inl ⟨_, .choose ⟨⟨⟨""⟩, ""⟩, true, ∅, .done⟩ trivial hphase⟩
  | asking e =>
    rcases acquire?_cases s.table (e.keys locks) w with ⟨t, ht⟩ | ⟨key, hkey, hfree⟩
    · exact .inl ⟨_, .enter hphase ht⟩
    · exact .inr ⟨key, by rwa [hphase], hfree⟩
  | busy e rest =>
    cases rest with
    | nil => exact .inl ⟨_, .leave hphase⟩
    | cons step rest =>
      cases step with
      | release key => exact .inl ⟨_, .step hphase rfl⟩
      | note inside project => exact .inl ⟨_, .step hphase rfl⟩
      | acquire key =>
        rcases acquire?_cases s.table [key] w with ⟨t, ht⟩ | ⟨k, hk, hfree⟩
        · exact .inl ⟨_, .step hphase (by rw [LockTable.take?, ht]; rfl)⟩
        · exact .inr ⟨k, by rwa [hphase], hfree⟩

/-- Whoever waits for a state lock waits for a worker that does not wait itself. So some worker can
take a step at any time, and as long as one is not between two tasks, one of those can. -/
theorem Reached.no_deadlock (h : Reached locks s) :
    (∀ w v key, key.GuardsState → s.Waits locks w key → s.table.owner? key = some v →
      v ≠ w ∧ (∀ key', ¬ s.Waits locks v key') ∧ ∃ s', s.Moves locks v s') ∧
    ∀ w, ∃ v s', s.Moves locks v s' ∧ (s.phase w ≠ .idle → s.phase v ≠ .idle) := by
  have htracked := h.tracked
  have hbusy : ∀ {key v}, s.table.owner? key = some v → s.phase v ≠ .idle := by
    intro key v ho
    obtain ⟨e, rest, hphase, -⟩ := htracked.busy ho
    rw [hphase]
    exact nofun
  have hgoes : ∀ {key v}, key.GuardsState → s.table.owner? key = some v →
      ∃ s', s.Moves locks v s' := by
    intro key v hkey ho
    refine (moves_or_waits s locks v).resolve_right ?_
    rintro ⟨key', hwaits⟩
    exact htracked.not_waits hkey ho key' hwaits
  constructor
  · intro w v key hkey hw ho
    refine ⟨?_, htracked.not_waits hkey ho, hgoes hkey ho⟩
    rintro rfl
    exact htracked.not_waits hkey ho key hw
  · intro w
    rcases moves_or_waits s locks w with ⟨s', hm⟩ | ⟨key, hw⟩
    · exact ⟨w, s', hm, id⟩
    · -- The owner of the key goes on, or it waits for a state lock, whose owner goes on.
      obtain ⟨v, ho⟩ := exists_owner_of_waits hw
      rcases moves_or_waits s locks v with ⟨s', hm⟩ | ⟨key', hw'⟩
      · exact ⟨v, s', hm, fun _ => hbusy ho⟩
      · obtain ⟨u, ho'⟩ := exists_owner_of_waits hw'
        obtain ⟨s', hm⟩ := hgoes (htracked.guardsState_of_waits ho hw') ho'
        exact ⟨u, s', hm, fun _ => hbusy ho'⟩

def crossing (path other : String) : Errand :=
  ⟨⟨⟨"main"⟩, path⟩, false, ∅, .within ⟨⟨"main"⟩, other⟩ .done .done⟩

/-- Two workers whose tasks visit each other's project; the first has left its own. -/
def crossed : Traffic :=
  let locks : ProjectLocks := ⟨true⟩
  let there := crossing ":a" ":b"
  let back := crossing ":b" ":a"
  let first := (LockTable.empty 2).give (there.keys locks) 0
  let second := first.give (back.keys locks) 1
  let s : Traffic := ⟨.empty 2, fun _ => .idle⟩
  let s := s.turn 0 s.table (.asking there)
  let s := s.turn 0 first (.busy there (there.stepsOf locks there.script).1)
  let s := s.turn 1 s.table (.asking back)
  let s := s.turn 1 second (.busy back (back.stepsOf locks back.script).1)
  s.turn 0 (second.release [locks.stateLock there.project] 0)
    (.busy there (there.stepsOf locks there.script).1.tail)

/-- The first worker waits for the second, which goes on. -/
theorem crossed_no_deadlock : Reached ⟨true⟩ crossed ∧
    crossed.Waits ⟨true⟩ 0 (.projectState ⟨⟨"main"⟩, ":b"⟩) ∧
    (∀ key, ¬ crossed.Waits ⟨true⟩ 1 key) ∧ ∃ s, crossed.Moves ⟨true⟩ 1 s := by
  have hfirst : (LockTable.empty 2).acquire? ((crossing ":a" ":b").keys ⟨true⟩) 0 =
      some ((LockTable.empty 2).give ((crossing ":a" ":b").keys ⟨true⟩) 0) :=
    if_pos (by decide +kernel)
  have hsecond : ((LockTable.empty 2).give ((crossing ":a" ":b").keys ⟨true⟩) 0).acquire?
      ((crossing ":b" ":a").keys ⟨true⟩) 1 =
      some (((LockTable.empty 2).give ((crossing ":a" ":b").keys ⟨true⟩) 0).give
        ((crossing ":b" ":a").keys ⟨true⟩) 1) :=
    if_pos (by decide +kernel)
  have hreached : Reached ⟨true⟩ crossed := by
    have hstart : Reached ⟨true⟩ ⟨.empty 2, fun _ => .idle⟩ :=
      .start fun key => by simp [LockTable.owner?, LockTable.empty]
    have hasked := hstart.move (.choose (w := 0) (crossing ":a" ":b") ⟨trivial, trivial⟩ rfl)
    have hentered := hasked.move (.enter (w := 0) rfl hfirst)
    have hasked := hentered.move (.choose (w := 1) (crossing ":b" ":a") ⟨trivial, trivial⟩ rfl)
    have hentered := hasked.move (.enter (w := 1) rfl hsecond)
    exact hentered.move (.step (w := 0) (e := crossing ":a" ":b") rfl rfl)
  have hwaits : crossed.Waits ⟨true⟩ 0 (.projectState ⟨⟨"main"⟩, ":b"⟩) :=
    ⟨by decide +kernel, by decide +kernel⟩
  obtain ⟨_, hstill, hgoes⟩ :=
    hreached.no_deadlock.1 0 1 (.projectState ⟨⟨"main"⟩, ":b"⟩) trivial hwaits (by decide +kernel)
  exact ⟨hreached, hwaits, hstill, hgoes⟩

end Traffic

end Foreman
