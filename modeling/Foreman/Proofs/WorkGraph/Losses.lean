import Foreman.Proofs.Run.Skipping
import Mathlib.Tactic.FinCases

/-!
# What a run of a work graph leaves out

For a work graph without references to other builds, whatever the outcomes and the workers: a node
is skipped for no dependency exactly if some selection gives up, and if none does, a run without
failures has executed all that is needed (`silent_skip_iff_gaveUp`). Giving up is possible:
`strandedGraph` is accepted and its run leaves out a requested task without a failure.
-/

namespace Foreman

namespace Run

variable {r r' : Run} {stop : Bool} {foreign : Foreign} {locks : ProjectLocks} {worker : Worker}
  {table : LockTable} {i : Nat}

/-- A selection finds nothing to do and nothing to wait for, neither in strict nor in relaxed
order. -/
def GivesUp (r : Run) (stop : Bool) (foreign : Foreign) (locks : ProjectLocks) (worker : Worker)
    (table : LockTable) : Prop :=
  (r.attempt ⟨stop, false, foreign⟩ locks worker table).1 = none ∧
    ((r.attempt ⟨stop, false, foreign⟩ locks worker table).2.1.attempt ⟨stop, true, foreign⟩ locks
      worker (r.attempt ⟨stop, false, foreign⟩ locks worker table).2.2).1 = none

theorem changes_of_not_givesUp (h : ¬ r.GivesUp stop foreign locks worker table) :
    Changes (Cause.OfAttempt stop foreign) r (r.select stop foreign locks worker table).2.1 := by
  have h₁ := (attempt_spec r ⟨stop, false, foreign⟩ locks worker table).chain
  rw [GivesUp] at h
  rw [select]
  generalize r.attempt ⟨stop, false, foreign⟩ locks worker table = first at h h₁
  obtain ⟨selection, r₁, table₁⟩ := first
  cases selection with
  | some selection => exact h₁
  | none =>
    have h₂ := (attempt_spec r₁ ⟨stop, true, foreign⟩ locks worker table₁).chain
    simp only at h h₁ ⊢
    generalize r₁.attempt ⟨stop, true, foreign⟩ locks worker table₁ = second at h h₂
    obtain ⟨selection, r₂, table₂⟩ := second
    cases selection with
    | some selection => exact h₁.trans h₂
    | none => exact absurd ⟨trivial, rfl⟩ h

theorem select_of_givesUp (h : r.GivesUp stop foreign locks worker table) :
    ∃ r₁ r₂ table₁ table₂, Attempted r ⟨stop, false, foreign⟩ locks worker table none r₁ table₁ ∧
      Attempted r₁ ⟨stop, true, foreign⟩ locks worker table₁ none r₂ table₂ ∧
      (r.select stop foreign locks worker table).2.1 = r₂.skipStuck := by
  have h₁ := attempt_spec r ⟨stop, false, foreign⟩ locks worker table
  rw [GivesUp] at h
  rw [select]
  generalize r.attempt ⟨stop, false, foreign⟩ locks worker table = first at h h₁
  obtain ⟨selection, r₁, table₁⟩ := first
  obtain ⟨rfl, h⟩ := h
  have h₂ := attempt_spec r₁ ⟨stop, true, foreign⟩ locks worker table₁
  simp only at h h₁ ⊢
  generalize r₁.attempt ⟨stop, true, foreign⟩ locks worker table₁ = second at h h₂
  obtain ⟨selection, r₂, table₂⟩ := second
  simp only at h
  subst h
  exact ⟨r₁, r₂, table₁, table₂, h₁, h₂, rfl⟩

/-- Skipped though no dependency was skipped, must not run, or failed in a way that counts. -/
def SkippedSilently (r : Run) (i : Nat) : Prop :=
  r.progress.state? i = some .skipped ∧
    ∀ n, r.plan.nodes[i]? = some n → ∀ d ∈ n.dependencies, r.progress.blocks d = false

theorem Silent.skippedSilently (h : r.Silent i) : r.SkippedSilently i :=
  ⟨h.1, fun n hn d hd => Progress.not_blocks_of_satisfies (h.2 n hn d hd)⟩

theorem Explained.not_skippedSilently (h : r.Explained) (hc : r.Consistent) :
    ¬ r.SkippedSilently i := by
  rintro ⟨hs, hfree⟩
  obtain ⟨n, hn⟩ := hc.exists_node hs
  obtain ⟨d, hd, hb⟩ := h.skipped i n hn hs
  rw [hfree n hn d hd] at hb
  cases hb

theorem failures_of_takeResult (h : r.takeResult.1 = .ok []) : r.progress.failures = [] := by
  rw [takeResult] at h
  simp only [progress_abandonExports] at h
  split at h
  · cases h
  · exact Except.ok.inj h

/-- What holds all through a run of a plan that was frozen without references to other builds. -/
structure Regular (r : Run) (foreign : Foreign) : Prop where
  sound : r.plan.Sound
  isLocal : r.plan.Local
  consistent : r.Consistent
  inOrder : r.InOrder foreign

theorem Regular.change {c : Cause} (h : r.Regular foreign) (hc : Change r c r')
    (hs : Stage.Sees foreign c) : r'.Regular foreign where
  sound := hc.plan ▸ h.sound
  isLocal := hc.plan ▸ h.isLocal
  consistent := h.consistent.change hc
  inOrder := h.inOrder.change hc hs

end Run

namespace Stage

open Run

variable {s s' : Stage} {t : Turn} {turns : List Turn}

/-- The selection of a turn gives up. -/
def GivesUp (s : Stage) : Turn → Prop
  | .select stop locks worker table => s.run.GivesUp stop s.foreign locks worker table
  | _ => False

/-- Some selection among the turns gives up. -/
def GaveUp : Stage → List Turn → Prop
  | _, [] => False
  | s, t :: turns => s.GivesUp t ∨ (s.after t).GaveUp turns

/-- A turn without a request to stop, and not the end of another build's task. -/
def IsPlain : Turn → Prop
  | .select stop .. => stop = false
  | .finish _ outcome => outcome ≠ .foreignFailure
  | .news _ => True

theorem regular_after (h : s.run.Regular s.foreign) (ha : s.Allows t) :
    (s.after t).run.Regular (s.after t).foreign :=
  preserves_after (P := fun r foreign => r.Regular foreign)
    (fun _ _ _ _ hp hc hs => hp.change hc hs)
    (fun _ _ _ hp hn => { hp with inOrder := hp.inOrder.news hn }) ha h

theorem History.regular (h : History s turns s') (hs : s.run.Regular s.foreign) :
    s'.run.Regular s'.foreign :=
  h.preserves (P := fun r foreign => r.Regular foreign) (fun _ _ _ _ hp hc hs => hp.change hc hs)
    (fun _ _ _ hp hn => { hp with inOrder := hp.inOrder.news hn }) hs

theorem explained_after (h : s.run.Regular s.foreign) (hx : s.run.Explained) (ha : s.Allows t)
    (hplain : IsPlain t) (hkeeps : ¬ s.GivesUp t) : (s.after t).run.Explained := by
  have hchain : ∀ admits r, Changes admits s.run r → (∀ c, admits c → c.IsPlain) →
      (∀ c, admits c → Sees s.foreign c) → r.Regular s.foreign ∧ r.Explained := by
    intro admits r hr hp hsees
    induction hr with
    | refl => exact ⟨h, hx⟩
    | tail _ hc ih =>
      obtain ⟨c, hadm, hc⟩ := hc
      obtain ⟨hreg, hexp⟩ := ih
      exact ⟨hreg.change hc (hsees c hadm),
        hexp.change hreg.sound hreg.isLocal hreg.consistent hreg.inOrder hc (hp c hadm)⟩
  cases ha with
  | select stop locks worker table =>
    refine (hchain _ _ (changes_of_not_givesUp hkeeps) (fun c hc => ?_) fun c hc => ?_).2
    · cases c with
      | settled o => exact hc.1.trans hplain
      | started => trivial
      | gaveUp => exact hc
      | ended => exact hc.elim
    · cases c with
      | settled o => exact hc.2
      | _ => trivial
  | finish hi outcome =>
    exact hx.change h.sound h.isLocal h.consistent h.inOrder (.finish hi outcome) hplain
  | news => exact hx

theorem exists_silent_of_givesUp (h : s.run.Regular s.foreign) (hg : s.GivesUp t) :
    ∃ i, (s.after t).run.Silent i := by
  cases t with
  | select stop locks worker table =>
    obtain ⟨r₁, r₂, table₁, table₂, h₁, h₂, he⟩ := select_of_givesUp hg
    have hc₁ := (stuck_of_attempted h.sound h.consistent h₁).2
    have hp₁ : r₁.plan = s.run.plan := h₁.chain.plan
    obtain ⟨hstuck, hc₂⟩ := stuck_of_attempted (hp₁ ▸ h.sound) hc₁ h₂
    have hp₂ : r₂.plan = s.run.plan := h₂.chain.plan.trans hp₁
    obtain ⟨i, hi⟩ := hstuck.exists_silent hc₂ (hp₂ ▸ h.sound)
    refine ⟨i, ?_⟩
    show Run.Silent (s.run.select stop s.foreign locks worker table).2.1 i
    rw [he]
    exact hi
  | finish => cases hg
  | news => cases hg

theorem not_givesUp_of_decisive (h : s.run.Regular s.foreign) (hd : s.run.plan.Decisive) :
    ¬ s.GivesUp t := by
  intro hg
  cases t with
  | select stop locks worker table =>
    obtain ⟨r₁, r₂, table₁, table₂, h₁, h₂, _⟩ := select_of_givesUp hg
    have hc₁ := (stuck_of_attempted h.sound h.consistent h₁).2
    have hp₁ : r₁.plan = s.run.plan := h₁.chain.plan
    obtain ⟨hstuck, hc₂⟩ := stuck_of_attempted (hp₁ ▸ h.sound) hc₁ h₂
    have hp₂ : r₂.plan = s.run.plan := h₂.chain.plan.trans hp₁
    exact hstuck.not_decisive rfl hc₂ (hp₂ ▸ h.sound) (hp₂ ▸ h.isLocal) (hp₂ ▸ hd)
  | finish => cases hg
  | news => cases hg

theorem History.silent {i : Nat} (h : History s turns s') (hi : s.run.Silent i) :
    s'.run.Silent i :=
  h.preserves (P := fun r _ => r.Silent i) (fun _ _ _ _ hp hc _ => by
    obtain ⟨_, _, _, hm⟩ := hc.moved
    exact hp.moved hm) (fun _ _ _ hp _ => hp) hi

/-- Along a history: either some selection gave up and some node was skipped silently, or all that
happened is explained. -/
theorem History.explained (h : History s turns s') (hreg : s.run.Regular s.foreign)
    (hx : s.run.Explained) (hplain : ∀ t ∈ turns, IsPlain t) :
    s'.run.Regular s'.foreign ∧ (s.GaveUp turns → ∃ i, s'.run.Silent i) ∧
      (¬ s.GaveUp turns → s'.run.Explained) := by
  induction h with
  | nil => exact ⟨hreg, fun hg => hg.elim, fun _ => hx⟩
  | @cons s s' t turns ha h ih =>
    have hreg' := regular_after hreg ha
    have hplain' := fun t ht => hplain t (List.mem_cons_of_mem _ ht)
    by_cases hg : s.GivesUp t
    · obtain ⟨i, hi⟩ := exists_silent_of_givesUp hreg hg
      exact ⟨h.regular hreg', fun _ => ⟨i, h.silent hi⟩, fun hnot => absurd (.inl hg) hnot⟩
    · have hx' := explained_after hreg hx ha (hplain t (List.mem_cons_self ..)) hg
      obtain ⟨hfin, hgave, hnot⟩ := ih hreg' hx' hplain'
      exact ⟨hfin, fun h => hgave (h.resolve_left hg), fun h => hnot fun h' => h (.inr h')⟩

theorem History.not_gaveUp_of_decisive (h : History s turns s') (hreg : s.run.Regular s.foreign)
    (hd : s.run.plan.Decisive) : ¬ s.GaveUp turns := by
  induction h with
  | nil => exact fun hg => hg
  | @cons s s' t turns ha h ih =>
    have hplan : (s.after t).run.plan = s.run.plan := (changes_after ha).plan
    rintro (hg | hg)
    · exact not_givesUp_of_decisive hreg hd hg
    · exact ih (regular_after hreg ha) (hplan ▸ hd) hg

end Stage

namespace WorkGraph

open Stage

variable {g g' : WorkGraph} {plan : Plan} {foreign : Foreign} {turns : List Turn} {s : Stage}

/-- The graph refers to no other build. -/
def IsLocal (g : WorkGraph) : Prop :=
  ∀ (id : Nat) (n : Node), g.nodes[id]? = some n → n.work.isForeign = false

theorem planOf_local {H : BuildId → TaskPath → Prop} {footprints : List Footprint} {p : Precedence}
    (hs : g.Sound H) (hf : g.FrozenTo footprints p g') (hl : g.IsLocal) :
    (g.planOf footprints p).Local := by
  constructor
  · intro i m hm
    obtain ⟨id, n, hp⟩ := (planOf_nodes hs hf.footprints_eq p).1 i m hm
    obtain ⟨footprint, dependents, rfl⟩ := hp.eq
    have hn := hl id n hp.node
    cases hw : n.work with
    | task t => exact ⟨t, by simp [PlannedNode.task?, planNode, hw]⟩
    | foreign b path =>
      rw [hw] at hn
      cases hn
  · intro i m hm
    obtain ⟨id, n, hp⟩ := (planOf_nodes hs hf.footprints_eq p).1 i m hm
    obtain ⟨footprint, dependents, rfl⟩ := hp.eq
    simp only [planNode, List.filterMap_eq_nil_iff, keysOf, List.mem_filterMap]
    rintro key ⟨k, _, hk⟩
    rw [Option.map_eq_some_iff] at hk
    obtain ⟨m, hm, rfl⟩ := hk
    have hmw := hl k m hm
    rw [Node.key]
    cases hw : m.work with
    | task t => rfl
    | foreign b path =>
      rw [hw] at hmw
      cases hmw

theorem regular_of_freeze_local (hb : Built g) (hf : g.freeze = .ok g') (hp : g'.plan = some plan)
    (hl : plan.Local) (exports : Exports) (foreign : Foreign) :
    (Stage.start plan exports foreign).run.Regular foreign := by
  obtain ⟨footprints, p, hfrozen⟩ := freeze_spec hf
  obtain rfl := hfrozen.eq_planOf hp
  exact ⟨planOf_sound hb.sound hfrozen, hl, Run.start_consistent _ exports,
    Run.start_inOrder _ exports foreign⟩

theorem plan_local_of_freeze (hb : Built g) (hl : g.IsLocal) (hf : g.freeze = .ok g')
    (hp : g'.plan = some plan) : plan.Local := by
  obtain ⟨footprints, p, hfrozen⟩ := freeze_spec hf
  obtain rfl := hfrozen.eq_planOf hp
  exact planOf_local hb.sound hfrozen hl

theorem regular_of_freeze (hb : Built g) (hl : g.IsLocal) (hf : g.freeze = .ok g')
    (hp : g'.plan = some plan) (exports : Exports) (foreign : Foreign) :
    (Stage.start plan exports foreign).run.Regular foreign :=
  regular_of_freeze_local hb hf hp (plan_local_of_freeze hb hl hf hp) exports foreign

/-- In every history of a work graph that was frozen without references to other builds and is not
asked to stop: some node is skipped though no dependency keeps it from running exactly if some
selection gave up; if none gave up and the run is over without failures, all that is needed has been
executed; and no selection gives up if no wait hinges on itself. -/
theorem silent_skip_iff_gaveUp (hb : Built g) (hl : g.IsLocal) (hf : g.freeze = .ok g')
    (hp : g'.plan = some plan) (h : History (Stage.start plan g'.exports foreign) turns s)
    (hplain : ∀ t ∈ turns, IsPlain t) :
    ((∃ i, s.run.SkippedSilently i) ↔ GaveUp (Stage.start plan g'.exports foreign) turns) ∧
      (¬ GaveUp (Stage.start plan g'.exports foreign) turns → s.run.isOver = true →
        s.run.takeResult.1 = .ok [] →
        ∀ i, plan.Needed i → ∃ st, s.run.progress.state? i = some st ∧ st.executed = true) ∧
      (plan.Decisive → ¬ GaveUp (Stage.start plan g'.exports foreign) turns) := by
  have hreg := regular_of_freeze hb hl hf hp g'.exports foreign
  obtain ⟨hfin, hgave, hnot⟩ := h.explained hreg (Run.start_explained plan g'.exports) hplain
  have hplan : s.run.plan = plan := h.plan
  refine ⟨⟨fun hsilent => ?_, fun hg => ?_⟩, fun hg hover hresult i hi => ?_,
    h.not_gaveUp_of_decisive hreg⟩
  · by_contra hg
    obtain ⟨i, hi⟩ := hsilent
    exact (hnot hg).not_skippedSilently hfin.consistent hi
  · obtain ⟨i, hi⟩ := hgave hg
    exact ⟨i, hi.skippedSilently⟩
  · rw [← hplan] at hi
    have hlt : i < s.run.plan.size := by
      cases hi with
      | required hn _ => exact (Array.getElem?_eq_some_iff.1 hn).1
      | @dependency i d m _ hm hmem => exact hfin.sound.bounded d i ⟨m, hm, .inl hmem⟩
    obtain ⟨st, hst⟩ := hfin.consistent.exists_state hlt
    obtain ⟨hskip, hmust⟩ := (hnot hg).needed (Run.failures_of_takeResult hresult) i hi
    have hterm : st.isTerminal = true :=
      Array.all_eq_true'.1 hover st (Array.mem_of_getElem? hst)
    refine ⟨st, hst, ?_⟩
    rw [hst] at hskip hmust
    cases st <;> simp_all [NodeState.isTerminal, NodeState.executed]

/-! ## Two graphs -/

/-- The graph of a build with these tasks after some of them were requested together. -/
def requested (tasks : List TaskDefinition) (names : List String) : WorkGraph :=
  (schedule (none : Option (CrossBuild Unit)) (names.map (⟨":", ·⟩))
    (new ((Registry.empty ⟨"main"⟩).registerFree tasks), ())).2.1

theorem requested_built (tasks : List TaskDefinition) (names : List String) :
    Built (requested tasks names) :=
  (Built.new _).schedule _ _ _

def frozen (g : WorkGraph) : WorkGraph := g.freeze.toOption.getD g

def firstStage (g : WorkGraph) : Stage :=
  Stage.start (g.frozen.plan.getD ⟨g.build, #[]⟩) g.frozen.exports fun _ _ => none

theorem freeze_eq_frozen (h : g.freeze.toOption.isSome = true) : g.freeze = .ok g.frozen := by
  rw [frozen]
  cases hf : g.freeze with
  | error e =>
    rw [hf] at h
    cases h
  | ok g' => rfl

theorem plan_frozen (h : g.frozen.plan.isSome = true) :
    g.frozen.plan = some g.firstStage.run.plan := by
  obtain ⟨plan, hp⟩ := Option.isSome_iff_exists.1 h
  simp [firstStage, Stage.start, Run.start, hp]

theorem isLocal_of_all (h : g.nodes.all (fun n => !n.work.isForeign) = true) : g.IsLocal := by
  intro id n hn
  simpa using Array.all_eq_true'.1 h n (Array.mem_of_getElem? hn)

theorem select_allowed (s : Stage) : s.Allows selectAlone := .select _ _ _ _

def testGraph : WorkGraph :=
  requested [smallTask "compile" [] [] [], smallTask "test" ["compile"] [] []] ["test"]

def testTurns : List Turn :=
  [selectAlone, .finish 1 .success, selectAlone, .finish 0 .success, selectAlone]

/-- The run of the test leaves out nothing. -/
theorem testGraph_leaves_nothing_out : ∃ s, History testGraph.firstStage testTurns s ∧
    (¬ ∃ i, s.run.SkippedSilently i) ∧
      ∀ i, testGraph.firstStage.run.plan.Needed i →
        ∃ st, s.run.progress.state? i = some st ∧ st.executed = true := by
  have hlocal : testGraph.IsLocal := isLocal_of_all (by decide +kernel)
  have hfreeze := freeze_eq_frozen (g := testGraph) (by decide +kernel)
  have hplan := plan_frozen (g := testGraph) (by decide +kernel)
  have hbuilt : Built testGraph := requested_built _ _
  have hrun₁ : (testGraph.firstStage.after selectAlone).run.progress.state? 1 = some .running := by
    decide +kernel
  have hrun₂ : (((testGraph.firstStage.after selectAlone).after (.finish 1 .success)).after
      selectAlone).run.progress.state? 0 = some .running := by decide +kernel
  have h : History testGraph.firstStage testTurns
      (testTurns.foldl Stage.after testGraph.firstStage) :=
    .cons (select_allowed _) (.cons (.finish hrun₁ _) (.cons (select_allowed _)
      (.cons (.finish hrun₂ _) (.cons (select_allowed _) .nil))))
  have hplain : ∀ t ∈ testTurns, IsPlain t := by
    intro t ht
    fin_cases ht <;> simp [IsPlain, selectAlone]
  obtain ⟨hiff, hall, hdec⟩ := silent_skip_iff_gaveUp hbuilt hlocal hfreeze hplan h hplain
  have hreq : ∀ (i : Nat) (n : PlannedNode), testGraph.firstStage.run.plan.nodes[i]? = some n →
      n.required = true := by
    have hreq : testGraph.firstStage.run.plan.nodes.all (·.required) = true := by decide +kernel
    exact fun i n hn => Array.all_eq_true'.1 hreq n (Array.mem_of_getElem? hn)
  have hsound := (regular_of_freeze hbuilt hlocal hfreeze hplan ∅ fun _ _ => none).sound
  have hkeeps := hdec (hsound.decisive hreq)
  exact ⟨_, h, fun hs => hkeeps (hiff.1 hs), hall hkeeps (by decide +kernel) (by decide +kernel)⟩

/-- After `x` its finalizer `f` waits for `y`, which waits to be needed by `g`, which waits for `z`
to run, which waits for `f`. -/
def strandedGraph : WorkGraph :=
  requested [smallTask "x" [] ["f"] [], smallTask "z" [] ["g"] ["f"], smallTask "y" [] ["f"] [],
    smallTask "f" [] [] [], smallTask "g" ["y"] [] []] ["x", "z"]

def strandedTurns : List Turn := [selectAlone, .finish 0 .success, selectAlone]

/-- The requested task `z` is skipped for no dependency, and the run that left it out has no
failures. -/
theorem strandedGraph_leaves_out_requested : Built strandedGraph ∧ strandedGraph.IsLocal ∧
    strandedGraph.freeze = .ok strandedGraph.frozen ∧
    strandedGraph.frozen.plan = some strandedGraph.firstStage.run.plan ∧
    (∀ t ∈ strandedTurns, IsPlain t) ∧
    ∃ s n, History strandedGraph.firstStage strandedTurns s ∧ s.run.isOver = true ∧
      s.run.takeResult.1 = .ok [] ∧ s.run.plan.nodes[1]? = some n ∧ n.key = .task ⟨":", "z"⟩ ∧
      n.required = true ∧ s.run.progress.state? 1 = some .skipped ∧
      ∀ d ∈ n.dependencies, s.run.progress.blocks d = false := by
  have hrun : (strandedGraph.firstStage.after selectAlone).run.progress.state? 0 =
      some .running := by decide +kernel
  have h : History strandedGraph.firstStage strandedTurns
      (strandedTurns.foldl Stage.after strandedGraph.firstStage) :=
    .cons (select_allowed _) (.cons (.finish hrun _) (.cons (select_allowed _) .nil))
  have hplain : ∀ t ∈ strandedTurns, IsPlain t := by
    intro t ht
    fin_cases ht <;> simp [IsPlain, selectAlone]
  refine ⟨requested_built _ _, isLocal_of_all (by decide +kernel),
    freeze_eq_frozen (by decide +kernel), plan_frozen (by decide +kernel), hplain, _, _, h,
    by decide +kernel, by decide +kernel, Array.getElem?_eq_getElem (by decide +kernel), ?_⟩
  decide +kernel

end WorkGraph

end Foreman
