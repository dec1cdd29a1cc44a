import Foreman.Proofs.Run.History

/-!
# The order of execution

A node that is ready, runs or has run has everything before it done (`Run.Precedes`), and stays so
whatever happens in between. Hence nodes start in order, in every history of every plan, and each
starts at most once (`starts_in_order`).
-/

namespace Foreman

def NodeState.isCleared : NodeState → Bool
  | ready | running | succeeded | failed => true
  | _ => false

namespace Run

variable {r r' : Run} {foreign foreign' : Foreign} {c : Cause} {n : PlannedNode}

/-- All that has to come before a node is done. Of the nodes that only come first in order those
count that are required. -/
structure Precedes (r : Run) (foreign : Foreign) (n : PlannedNode) : Prop where
  dependencies : ∀ d ∈ n.dependencies, r.progress.satisfies d = true
  finalizes : ∀ f ∈ n.finalizes, r.progress.isDone f = true
  runAfter : ∀ p ∈ n.runAfter, ∀ m, r.plan.nodes[p]? = some m → m.required = true →
    r.progress.isDone p = true
  afterExports : ∀ e ∈ n.afterExports, (foreign e.1 e.2).isSome = true

/-- Every node that was judged free to run has what comes before it done. -/
def InOrder (r : Run) (foreign : Foreign) : Prop :=
  ∀ i n st, r.plan.nodes[i]? = some n → r.progress.state? i = some st → st.isCleared = true →
    r.Precedes foreign n

theorem Cleared.precedes {o : Outlook} (h : r.Cleared o n) : r.Precedes o.foreign n where
  dependencies := h.dependencies
  finalizes := h.finalizes
  runAfter := by
    intro p hp m hm hreq
    rcases h.runAfter p hp with hd | ⟨_, hd⟩
    · exact hd
    · cases hd.required m hm hreq
  afterExports := h.afterExports

theorem Precedes.moved {i : Nat} {old new : NodeState} (h : r.Precedes foreign n)
    (hm : Moved r r' i old new) : r'.Precedes foreign n where
  dependencies d hd := hm.satisfies (h.dependencies d hd)
  finalizes f hf := hm.isDone (h.finalizes f hf)
  runAfter := by
    intro p hp m hn hreq
    rw [hm.plan] at hn
    exact hm.isDone (h.runAfter p hp m hn hreq)
  afterExports := h.afterExports

/-- A node that moves elsewhere leaves the nodes that were judged free to run as they are. -/
theorem cleared_of_moved {i k : Nat} {old new st : NodeState} (hm : Moved r r' k old new)
    (hnew : new.isCleared = false) (hi : r'.progress.state? i = some st)
    (hst : st.isCleared = true) : r.progress.state? i = some st := by
  rw [hm.after] at hi
  split at hi
  · cases hi
    rw [hst] at hnew
    cases hnew
  · exact hi

/-- Nothing is judged free to run unless it was so before or is found so now. -/
theorem cleared_of_change (hc : Change r c r') {i : Nat} {st : NodeState}
    (hn : r.plan.nodes[i]? = some n) (hi : r'.progress.state? i = some st)
    (hst : st.isCleared = true) :
    (∃ st, r.progress.state? i = some st ∧ st.isCleared = true) ∨
      ∃ o, c = .settled o ∧ r.progress.state? i = some .scheduled ∧ r.Verdict o i n .ready := by
  cases hc with
  | @judge o k m new hk hsk hv =>
    have hm := moved_moveAndPublish hsk hv.mem_moves
    rcases hv.cases_new with rfl | rfl | rfl
    · rw [hm.after] at hi
      split at hi
      · rename_i hik
        subst hik
        cases hk.symm.trans hn
        exact .inr ⟨o, rfl, hsk, hv⟩
      · exact .inl ⟨st, hi, hst⟩
    · exact .inl ⟨st, cleared_of_moved hm rfl hi hst, hst⟩
    · exact .inl ⟨st, cleared_of_moved hm rfl hi hst, hst⟩
  | drop o ho hsk =>
    have hm : Moved r _ _ _ .skipped := moved_moveAndPublish hsk (by decide)
    exact .inl ⟨st, cleared_of_moved hm rfl hi hst, hst⟩
  | start hsk =>
    rw [state?_launch hsk] at hi
    split at hi
    · rename_i hik
      subst hik
      exact .inl ⟨.ready, hsk, rfl⟩
    · exact .inl ⟨st, hi, hst⟩
  | giveUp hsk =>
    obtain ⟨old, hm⟩ := moved_giveUp hsk
    exact .inl ⟨st, cleared_of_moved hm rfl hi hst, hst⟩
  | finish hsk outcome =>
    rw [state?_finish hsk] at hi
    split at hi
    · rename_i hik
      subst hik
      exact .inl ⟨.running, hsk, rfl⟩
    · exact .inl ⟨st, hi, hst⟩

/-- What is judged free to run at the end of a chain was so before it, or was found so on the
way. -/
theorem cleared_of_changes {admits : Cause → Prop} (h : Changes admits r r') {i : Nat}
    {st : NodeState} (hn : r.plan.nodes[i]? = some n) (hi : r'.progress.state? i = some st)
    (hst : st.isCleared = true) :
    (∃ st, r.progress.state? i = some st ∧ st.isCleared = true) ∨
      ∃ o r₁, admits (.settled o) ∧ Changes admits r r₁ ∧ Changes admits r₁ r' ∧
        r₁.progress.state? i = some .scheduled ∧ r₁.Verdict o i n .ready := by
  induction h generalizing st with
  | refl => exact .inl ⟨st, hi, hst⟩
  | @tail r₁ r₂ h hc ih =>
    obtain ⟨c, hadm, hc⟩ := hc
    rw [← Changes.plan h] at hn
    rcases cleared_of_change hc hn hi hst with ⟨st₁, hi₁, hst₁⟩ | ⟨o, rfl, hsk, hv⟩
    · rcases ih hi₁ hst₁ with hbefore | ⟨o, r₀, ho, hr₀, hrest, hsk, hv⟩
      · exact .inl hbefore
      · exact .inr ⟨o, r₀, ho, hr₀, hrest.tail ⟨c, hadm, hc⟩, hsk, hv⟩
    · exact .inr ⟨o, r₁, hadm, h, .single ⟨_, hadm, hc⟩, hsk, hv⟩

theorem precedes_of_change (h : r.InOrder foreign) (hc : Change r c r')
    (hs : Stage.Sees foreign c) {i : Nat} {st : NodeState} (hn : r.plan.nodes[i]? = some n)
    (hi : r'.progress.state? i = some st) (hst : st.isCleared = true) : r.Precedes foreign n := by
  rcases cleared_of_change hc hn hi hst with ⟨st₀, hi₀, hst₀⟩ | ⟨o, rfl, -, hv⟩
  · exact h i n st₀ hn hi₀ hst₀
  · cases hv with
    | cleared _ _ hc => exact hs ▸ hc.precedes

theorem InOrder.change (h : r.InOrder foreign) (hc : Change r c r') (hs : Stage.Sees foreign c) :
    r'.InOrder foreign := by
  obtain ⟨k, old, new, hm⟩ := hc.moved
  intro i n st hn hi hst
  rw [hm.plan] at hn
  exact (precedes_of_change h hc hs hn hi hst).moved hm

theorem InOrder.news (h : r.InOrder foreign)
    (hnews : ∀ build path, (foreign build path).isSome → (foreign' build path).isSome) :
    r.InOrder foreign' := by
  intro i n st hn hi hst
  have hp := h i n st hn hi hst
  exact { hp with afterExports := fun e he => hnews _ _ (hp.afterExports e he) }

theorem start_inOrder (plan : Plan) (exports : Exports) (foreign : Foreign) :
    (Run.start plan exports).InOrder foreign := by
  intro i n st _ hi hst
  rw [eq_scheduled_of_start hi] at hst
  cases hst

/-- The node has begun to run, and if it is over that was before `r`. -/
def Begun (r r' : Run) (i : Nat) : Prop :=
  ∃ st st', r.progress.state? i = some st ∧ r'.progress.state? i = some st' ∧
    2 ≤ st.phase ∧ st.phase ≤ st'.phase

theorem Begun.change {r₀ : Run} {i : Nat} (h : Begun r₀ r i) (hc : Change r c r') :
    Begun r₀ r' i := by
  obtain ⟨st, st', hs, hs', h2, hle⟩ := h
  obtain ⟨k, old, new, hm⟩ := hc.moved
  by_cases hik : i = k
  · subst hik
    have hb := hm.before
    rw [hs', Option.some.injEq] at hb
    subst hb
    have := (NodeState.phase_moves hm.legal).2.1
    exact ⟨st, new, hs, by rw [hm.after, if_pos rfl], h2, by omega⟩
  · exact ⟨st, st', hs, by rw [hm.state?_of_ne hik, hs'], h2, hle⟩

end Run

namespace Stage

open Run

variable {s s' : Stage} {t : Turn} {turns : List Turn} {plan : Plan} {exports : Exports}
  {foreign : Foreign} {i : Nat} {n : PlannedNode}

/-- Node `i` changes to running. -/
def Starts (s s' : Stage) (i : Nat) : Prop :=
  s.run.progress.state? i ≠ some .running ∧ s'.run.progress.state? i = some .running

theorem History.inOrder (h : History (start plan exports foreign) turns s) :
    s.run.InOrder s.foreign :=
  h.preserves (fun _ _ _ _ hp hc hs => hp.change hc hs) (fun _ _ _ hp hn => hp.news hn)
    (start_inOrder plan exports foreign)

/-- Once a node has begun to run, it never does so again. -/
theorem History.not_starts_again {st : NodeState} (h : History s turns s') (ha : s'.Allows t)
    (hs : s.run.progress.state? i = some st) (hst : 2 ≤ st.phase) : ¬ s'.Starts (s'.after t) i := by
  have hkeep : ∀ {r₀ : Run} {s₁ s₂ : Stage} {ts : List Turn}, History s₁ ts s₂ →
      Begun r₀ s₁.run i → Begun r₀ s₂.run i := fun h₀ hb =>
    h₀.preserves (P := fun r _ => Begun _ r i) (fun _ _ _ _ hp hc _ => hp.change hc)
      (fun _ _ _ hp _ => hp) hb
  obtain ⟨_, st', hs₀, hs', h2, hle⟩ := hkeep h ⟨st, st, hs, hs, hst, Nat.le_refl _⟩
  have hst' : 2 ≤ st'.phase := Nat.le_trans h2 hle
  obtain ⟨_, st₂, hs₁, hs₂, _, hle₂⟩ :=
    hkeep (.snoc .nil ha) ⟨st', st', hs', hs', hst', Nat.le_refl _⟩
  rintro ⟨hne, hrun⟩
  rw [hs', Option.some.injEq] at hs₁
  rw [hs₂, Option.some.injEq] at hrun
  subst hs₁ hrun
  have h2' : st'.phase = 2 := Nat.le_antisymm hle₂ hst'
  rw [NodeState.phase_eq_two] at h2'
  rw [h2'] at hs'
  exact hne hs'

/-- In every history of every plan, whatever the workers and the outcomes: when a node changes to
running, its dependencies have succeeded or failed in a way that is to be ignored, the nodes that it
finalizes and the required ones that come first in order are over, and the tasks of other builds
that it comes after have an outcome. It does not change to running again. -/
theorem starts_in_order (h : History (start plan exports foreign) turns s) (ha : s.Allows t)
    (hn : plan.nodes[i]? = some n) (hi : s.Starts (s.after t) i) :
    (s.after t).run.Precedes (s.after t).foreign n ∧
      ∀ more s' t', History (s.after t) more s' → s'.Allows t' → ¬ s'.Starts (s'.after t') i := by
  constructor
  · have hp : (s.after t).run.plan = plan := (History.snoc h ha).plan
    exact (History.snoc h ha).inOrder i n .running (by rw [hp]; exact hn) hi.2 rfl
  · intro more s' t' h' ha'
    exact h'.not_starts_again ha' hi.2 (by decide)

def plainNode (name : String) (dependencies dependents : List Nat) : PlannedNode where
  work := .task (.plain ⟨":", name⟩)
  ordinal := 0
  required := true
  footprint := .none
  dependencies := dependencies
  dependents := dependents
  runAfter := []
  finalizes := []
  afterExports := []
  exported := false

def pairPlan : Plan := ⟨⟨"main"⟩, #[plainNode "first" [] [1], plainNode "second" [0] []]⟩

def pairStart : Stage := start pairPlan ∅ fun _ _ => none

def selectAlone : Turn := .select false ⟨true⟩ 0 (.empty 1)

def pairHalf : Stage := (pairStart.after selectAlone).after (.finish 0 .success)

/-- The second node of a pair starts once the first has succeeded, and never again. -/
theorem pair_starts_in_order :
    History pairStart [selectAlone, .finish 0 .success] pairHalf ∧
      pairHalf.Starts (pairHalf.after selectAlone) 1 ∧
      (pairHalf.after selectAlone).run.Precedes (pairHalf.after selectAlone).foreign
        (plainNode "second" [0] []) ∧
      ∀ more s' t', History (pairHalf.after selectAlone) more s' → s'.Allows t' →
        ¬ s'.Starts (s'.after t') 1 := by
  have hselect : ∀ s : Stage, s.Allows selectAlone := fun s => .select _ _ _ _
  have hrun : (pairStart.after selectAlone).run.progress.state? 0 = some .running := by
    decide +kernel
  have h : History pairStart [selectAlone, .finish 0 .success] pairHalf :=
    (History.nil.snoc (hselect _)).snoc (.finish hrun .success)
  have hs : pairHalf.Starts (pairHalf.after selectAlone) 1 :=
    ⟨by decide +kernel, by decide +kernel⟩
  exact ⟨h, hs, starts_in_order h (hselect _) rfl hs⟩

end Stage

end Foreman
