import Foreman.Proofs.Run.Selection

/-!
# Histories of a run

A run goes on by turns: workers select, running nodes end, and other builds publish, in any order.
A turn is a chain of changes (`Stage.changes_after`), each change moves one node forward
(`Change.moved`), and so a property that every change keeps is kept by every history
(`Stage.History.preserves`).
-/

namespace Foreman

def NodeState.phase : NodeState → Nat
  | notScheduled | queued | scheduled => 0
  | ready => 1
  | running => 2
  | succeeded | failed | skipped | mustNotRun => 3

theorem NodeState.phase_eq_three {st : NodeState} : st.phase = 3 ↔ st.isTerminal = true := by
  cases st <;> simp [phase, isTerminal]

theorem NodeState.phase_eq_two {st : NodeState} : st.phase = 2 ↔ st = .running := by
  cases st <;> simp [phase]

/-- A move never leads back, and from where work has begun only to the end. -/
theorem NodeState.phase_moves {old new : NodeState} (h : new ∈ old.moves) :
    old.phase < 3 ∧ old.phase ≤ new.phase ∧ (1 ≤ old.phase → old.phase < new.phase) := by
  cases old <;> simp only [moves, List.mem_cons, List.not_mem_nil, or_false] at h <;>
    rcases h with rfl | rfl | rfl <;> decide

namespace Run

variable {r r' : Run} {c : Cause} {i k : Nat} {old new : NodeState}

/-! ## One change -/

/-- Exactly one node moves, and no failure but its own may come to be ignored. -/
structure Moved (r r' : Run) (i : Nat) (old new : NodeState) : Prop where
  plan : r'.plan = r.plan
  before : r.progress.state? i = some old
  legal : new ∈ old.moves
  after : ∀ k, r'.progress.state? k = if k = i then some new else r.progress.state? k
  tolerated : ∀ k ≠ i, k ∈ r'.progress.tolerated ↔ k ∈ r.progress.tolerated

theorem moved_moveAndPublish (hs : r.progress.state? i = some old) (hm : new ∈ old.moves) :
    Moved r (r.moveAndPublish i new) i old new where
  plan := plan_moveAndPublish
  before := hs
  legal := hm
  after k := by
    rw [progress_moveAndPublish]
    exact Progress.state?_move hs (by simp [NodeState.canBecome, hm])
  tolerated k _ := by simp

theorem moved_launch (hs : r.progress.state? i = some .ready) :
    Moved r (r.launch i) i .ready .running where
  plan := plan_launch
  before := hs
  legal := by decide
  after := state?_launch hs
  tolerated _ _ := by simp [launch]

/-- A run that gives up moves a node that waits to the end. -/
theorem moved_giveUp
    (hs : r.progress.state? i = some .scheduled ∨ r.progress.state? i = some .ready) :
    ∃ old, Moved r (r.moveAndPublish i .skipped) i old .skipped := by
  rcases hs with hs | hs
  · exact ⟨_, moved_moveAndPublish hs (by decide)⟩
  · exact ⟨_, moved_moveAndPublish hs (by decide)⟩

theorem mem_toleratedOf {outcome : NodeOutcome} (h : k ∈ r.toleratedOf i outcome) : k = i := by
  cases outcome with
  | failure error =>
    rw [toleratedOf] at h
    split at h
    · exact List.mem_singleton.1 h
    · cases h
  | success => cases h
  | foreignFailure => cases h

theorem moved_finish (hs : r.progress.state? i = some .running) (outcome : NodeOutcome) :
    Moved r (r.finish i outcome) i .running (endState outcome) where
  plan := plan_finish outcome
  before := hs
  legal := by cases outcome <;> simp [endState, NodeState.moves]
  after := state?_finish hs outcome
  tolerated k hk := by
    rw [tolerated_finish, List.mem_append]
    exact or_iff_right fun h => hk (mem_toleratedOf h)

theorem Verdict.mem_moves {o : Outlook} {n : PlannedNode} (h : r.Verdict o i n new) :
    new ∈ NodeState.moves .scheduled := by
  rcases h.cases_new with rfl | rfl | rfl <;> decide

theorem Change.moved (h : Change r c r') : ∃ i old new, Moved r r' i old new := by
  cases h with
  | judge _ _ hs hv => exact ⟨_, _, _, moved_moveAndPublish hs hv.mem_moves⟩
  | drop _ _ hs => exact ⟨_, _, _, moved_moveAndPublish hs (by decide)⟩
  | start hs => exact ⟨_, _, _, moved_launch hs⟩
  | giveUp hs =>
    obtain ⟨old, hm⟩ := moved_giveUp hs
    exact ⟨_, _, _, hm⟩
  | finish hs outcome => exact ⟨_, _, _, moved_finish hs outcome⟩

namespace Moved

variable (h : Moved r r' i old new)
include h

theorem not_isTerminal : old.isTerminal = false := by
  rw [← Bool.not_eq_true, ← NodeState.phase_eq_three]
  have := (NodeState.phase_moves h.legal).1
  omega

theorem ne_of_isDone (hk : r.progress.isDone k = true) : k ≠ i := by
  rintro rfl
  obtain ⟨st, hs, ht⟩ := Progress.isDone_iff.1 hk
  rw [h.before, Option.some.injEq] at hs
  subst hs
  exact absurd ht (by simp [h.not_isTerminal])

theorem state?_of_ne (hk : k ≠ i) : r'.progress.state? k = r.progress.state? k := by
  rw [h.after, if_neg hk]

/-- A terminal node stays as it is. -/
theorem state?_of_isDone (hk : r.progress.isDone k = true) :
    r'.progress.state? k = r.progress.state? k :=
  h.state?_of_ne (h.ne_of_isDone hk)

/-- The nodes in a terminal state are the same as before, if the change does not lead there. -/
theorem state?_iff {st : NodeState} (hst : st.isTerminal = true) (hnew : new ≠ st) (k : Nat) :
    r'.progress.state? k = some st ↔ r.progress.state? k = some st := by
  rw [h.after]
  split
  · rename_i hk
    rw [hk, h.before]
    have hopen := h.not_isTerminal
    refine iff_of_false (fun he => hnew (Option.some.inj he)) fun he => ?_
    rw [Option.some.inj he, hst] at hopen
    cases hopen
  · rfl

theorem isDone (hk : r.progress.isDone k = true) : r'.progress.isDone k = true := by
  rw [Progress.isDone, h.state?_of_isDone hk]
  exact hk

theorem satisfies (hk : r.progress.satisfies k = true) : r'.progress.satisfies k = true := by
  have hne := h.ne_of_isDone (Progress.isDone_of_satisfies hk)
  rw [Progress.satisfies_iff, h.state?_of_ne hne, h.tolerated k hne]
  exact Progress.satisfies_iff.1 hk

theorem blocks (hk : r.progress.blocks k = true) : r'.progress.blocks k = true := by
  have hne : k ≠ i := by
    refine h.ne_of_isDone ?_
    rw [Progress.isDone_iff]
    rcases Progress.blocks_iff.1 hk with hk | hk | ⟨hk, _⟩
    · exact ⟨_, hk, rfl⟩
    · exact ⟨_, hk, rfl⟩
    · exact ⟨_, hk, rfl⟩
  rw [Progress.blocks_iff, h.state?_of_ne hne, h.tolerated k hne]
  exact Progress.blocks_iff.1 hk

end Moved

end Run

/-! ## Turns -/

/-- A run, and what other builds have published so far. -/
structure Stage where
  run : Run
  foreign : Foreign

/-- What can happen to a run under way. -/
inductive Turn
  /-- A worker selects. Whether the run is to stop, and what others hold, may be different each
  time. -/
  | select (stop : Bool) (locks : ProjectLocks) (worker : Worker) (table : LockTable)
  | finish (i : Nat) (outcome : NodeOutcome)
  /-- Other builds publish. -/
  | news (foreign : Foreign)

namespace Stage

open Run

def start (plan : Plan) (exports : Exports) (foreign : Foreign) : Stage :=
  ⟨.start plan exports, foreign⟩

def after (s : Stage) : Turn → Stage
  | .select stop locks worker table =>
    { s with run := (s.run.select stop s.foreign locks worker table).2.1 }
  | .finish i outcome => { s with run := s.run.finish i outcome }
  | .news foreign => { s with foreign }

/-- The turns that are possible: only a running node ends, and what is published stays so. -/
inductive Allows (s : Stage) : Turn → Prop
  | select (stop : Bool) (locks : ProjectLocks) (worker : Worker) (table : LockTable) :
      Allows s (.select stop locks worker table)
  | finish {i : Nat} (h : s.run.progress.state? i = some .running) (outcome : NodeOutcome) :
      Allows s (.finish i outcome)
  | news {foreign : Foreign}
      (h : ∀ build path, (s.foreign build path).isSome → (foreign build path).isSome) :
      Allows s (.news foreign)

/-- The turns that lead from one stage to another. -/
inductive History : Stage → List Turn → Stage → Prop
  | nil {s : Stage} : History s [] s
  | cons {s s' : Stage} {t : Turn} {turns : List Turn} (ha : s.Allows t)
      (h : History (s.after t) turns s') : History s (t :: turns) s'

variable {s s' : Stage} {t : Turn} {turns : List Turn}

theorem History.snoc (h : History s turns s') (ha : s'.Allows t) :
    History s (turns ++ [t]) (s'.after t) := by
  induction h with
  | nil => exact .cons ha .nil
  | cons hb _ ih => exact .cons hb (ih ha)

/-- The turns determine where they lead. -/
theorem History.unique {s₁ s₂ : Stage} (h₁ : History s turns s₁) (h₂ : History s turns s₂) :
    s₁ = s₂ := by
  induction h₁ with
  | nil =>
    cases h₂
    rfl
  | cons _ _ ih =>
    cases h₂ with
    | cons _ h => exact ih h

/-- What holds before the first turn and is kept by each further one holds after all of them. -/
theorem History.snoc_induction {s₀ : Stage} {P : List Turn → Stage → Prop}
    (h : History s₀ turns s) (hnil : P [] s₀)
    (hsnoc : ∀ turns s t, History s₀ turns s → P turns s → s.Allows t →
      P (turns ++ [t]) (s.after t)) :
    P turns s := by
  -- for the turns that are left, after any that have been taken
  have hfrom : ∀ {s₁ turns s}, History s₁ turns s → ∀ taken, History s₀ taken s₁ → P taken s₁ →
      P (taken ++ turns) s := by
    intro s₁ turns s h
    induction h with
    | nil =>
      intro taken _ hp
      rwa [List.append_nil]
    | @cons s₁ _ t _ ha _ ih =>
      intro taken h₀ hp
      rw [List.append_cons]
      exact ih (taken ++ [t]) (h₀.snoc ha) (hsnoc taken s₁ t h₀ hp ha)
  exact hfrom h [] .nil hnil

def admits (foreign : Foreign) : Turn → Cause → Prop
  | .select stop .. => Cause.OfSelection stop foreign
  | .finish _ outcome => (· = .ended outcome)
  | .news _ => fun _ => False

theorem changes_after (ha : s.Allows t) : Changes (admits s.foreign t) s.run (s.after t).run := by
  cases ha with
  | select stop locks worker table =>
    exact (select_spec s.run stop s.foreign locks worker table).chain
  | finish h outcome => exact .single ⟨_, rfl, .finish h outcome⟩
  | news => exact .refl

/-- A cause that goes by what is published. -/
def Sees (foreign : Foreign) : Cause → Prop
  | .settled o => o.foreign = foreign
  | _ => True

theorem sees_of_admits {foreign : Foreign} {c : Cause} (h : admits foreign t c) :
    Sees foreign c := by
  cases c with
  | settled o =>
    cases t with
    | select stop => exact (h.resolve_right (by simp)).2
    | finish => cases h
    | news => cases h
  | _ => trivial

/-- Whatever every change keeps, and more publications keep, every turn keeps. -/
theorem preserves_after {P : Run → Foreign → Prop}
    (hchange : ∀ r r' c foreign, P r foreign → Change r c r' → Sees foreign c → P r' foreign)
    (hnews : ∀ r foreign foreign', P r foreign →
      (∀ build path, (foreign build path).isSome → (foreign' build path).isSome) → P r foreign')
    (ha : s.Allows t) (hs : P s.run s.foreign) : P (s.after t).run (s.after t).foreign := by
  have hrun : ∀ r, Changes (admits s.foreign t) s.run r → P r s.foreign := by
    intro r hr
    induction hr with
    | refl => exact hs
    | tail _ hc ih =>
      obtain ⟨c, hadm, hc⟩ := hc
      exact hchange _ _ c _ ih hc (sees_of_admits hadm)
  have hr := hrun _ (changes_after ha)
  cases ha with
  | select => exact hr
  | finish => exact hr
  | news h => exact hnews _ _ _ hs h

/-- Whatever every change keeps, and more publications keep, every history keeps. -/
theorem History.preserves {P : Run → Foreign → Prop}
    (hchange : ∀ r r' c foreign, P r foreign → Change r c r' → Sees foreign c → P r' foreign)
    (hnews : ∀ r foreign foreign', P r foreign →
      (∀ build path, (foreign build path).isSome → (foreign' build path).isSome) → P r foreign')
    (h : History s turns s') (hs : P s.run s.foreign) : P s'.run s'.foreign := by
  induction h with
  | nil => exact hs
  | cons ha _ ih => exact ih (preserves_after hchange hnews ha hs)

theorem History.plan (h : History s turns s') : s'.run.plan = s.run.plan :=
  h.preserves (P := fun r _ => r.plan = s.run.plan) (fun _ _ _ _ hp hc _ => hc.plan.trans hp)
    (fun _ _ _ hp _ => hp) rfl

end Stage

end Foreman
