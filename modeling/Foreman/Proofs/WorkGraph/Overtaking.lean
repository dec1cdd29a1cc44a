import Foreman.Proofs.Run.Standstill
import Foreman.Proofs.WorkGraph.Losses

/-!
# Starting ahead of the order

A node starts while one that comes first in order is not over because some selection has let it pass
when nothing else could move (`Stage.LetPast`). What that selection has let pass starts later too:
the node is alone and the last resort if it starts in the selection itself, and until the next node
ends nothing is in its turn, but from then on something may be
(`WorkGraph.overtakes_after_standstill`).
-/

namespace Foreman

namespace Run

/-- The node starts ahead of `q` as a last resort: `q` is not required, nothing else is running, and
nothing that waits is in its turn. -/
structure LastResort (r : Run) (i q : Nat) : Prop where
  optional : ∀ m, r.plan.nodes[q]? = some m → m.required = false
  alone : ∀ k, r.progress.state? k = some .running → k = i
  idle : ∀ k m, ¬ r.InTurn k m

end Run

namespace Stage

open Run

variable {s₀ s : Stage} {t u : Turn} {turns : List Turn} {i q : Nat} {n : PlannedNode}
  {st : NodeState}

/-- The turn is a selection that finds nothing to move in strict order, while it is open whether `q`
will be needed, and that lets `i` pass. -/
structure LetsPass (s : Stage) (u : Turn) (i q : Nat) : Prop where
  selects : ∃ locks worker table, u = .select false locks worker table
  passes : s.run.LetsPass s.foreign i q
  cleared : ∃ st, (s.after u).run.progress.state? i = some st ∧ st.isCleared = true

/-- A turn of the history has let `i` pass ahead of `q`, and if no node has ended since, the run
still stands still. -/
def LetPast (s₀ : Stage) (turns : List Turn) (s : Stage) (i q : Nat) : Prop :=
  ∃ before u rest s₁, turns = before ++ u :: rest ∧ History s₀ before s₁ ∧ s₁.LetsPass u i q ∧
    ((∀ k outcome, Turn.finish k outcome ∉ rest) → s.run.Standstill)

/-- Each node that was judged free to run was let past those that come first in order and are not
over. -/
def Accounted (s₀ : Stage) (turns : List Turn) (s : Stage) : Prop :=
  ∀ i n q st, s.run.plan.nodes[i]? = some n → s.run.progress.state? i = some st →
    st.isCleared = true → q ∈ n.runAfter → s.run.progress.isDone q = false →
    LetPast s₀ turns s i q

/-- A further turn leaves a node let past. -/
theorem LetPast.snoc (h : LetPast s₀ turns s i q)
    (hkeeps : (∀ k outcome, t ≠ .finish k outcome) → s.run.Standstill →
      (s.after t).run.Standstill) : LetPast s₀ (turns ++ [t]) (s.after t) i q := by
  obtain ⟨before, u, rest, s₁, rfl, hbefore, hpass, hidle⟩ := h
  refine ⟨before, u, rest ++ [t], s₁, by simp, hbefore, hpass, fun hno => ?_⟩
  refine hkeeps (fun k outcome ht => hno k outcome (by simp [ht])) (hidle fun k outcome hmem => ?_)
  exact hno k outcome (List.mem_append_left _ hmem)

theorem accounted_after (hreg : s.run.Regular s.foreign) (h : History s₀ turns s)
    (hacc : Accounted s₀ turns s) (ha : s.Allows t) (ht : IsPlain t) :
    Accounted s₀ (turns ++ [t]) (s.after t) := by
  intro i n q st hn hi hst hq hopen
  have hchain := changes_after ha
  rw [hchain.plan] at hn
  have hopen₀ := not_isDone_of_changes hchain hopen
  cases ha with
  | select stop locks worker table =>
    obtain rfl : stop = false := ht
    rcases select_overtakes hreg.sound hreg.isLocal hreg.consistent hn hi hst hq hopen with
      ⟨st₀, hi₀, hst₀⟩ | hpass
    · refine (hacc i n q st₀ hn hi₀ hst₀ hq hopen₀).snoc fun _ hstill => ?_
      exact hstill.select hreg.sound hreg.consistent locks worker table
    · refine ⟨turns, .select false locks worker table, [], s, rfl, h, ?_, fun _ => ?_⟩
      · exact ⟨⟨locks, worker, table, rfl⟩, hpass, st, hi, hst⟩
      · exact hpass.standstill hreg.sound hreg.isLocal hreg.consistent locks worker table
  | @finish k hk outcome =>
    rcases cleared_of_change (.finish hk outcome) hn hi hst with ⟨st₀, hi₀, hst₀⟩ | ⟨_, hno, -⟩
    · exact (hacc i n q st₀ hn hi₀ hst₀ hq hopen₀).snoc fun hne _ => absurd rfl (hne k outcome)
    · cases hno
  | news => exact (hacc i n q st hn hi hst hq hopen).snoc fun _ hstill => hstill

/-- Along every history without a request to stop. -/
theorem accounted_of_history (h : History s₀ turns s) (hreg : s₀.run.Regular s₀.foreign)
    (hnone : ∀ i st, s₀.run.progress.state? i = some st → st.isCleared = false)
    (hplain : ∀ t ∈ turns, IsPlain t) : Accounted s₀ turns s := by
  refine h.snoc_induction (P := fun turns s => (∀ t ∈ turns, IsPlain t) → Accounted s₀ turns s)
    (fun _ i n q st _ hi hst => ?_) (fun turns s t h hacc ha hplain => ?_) hplain
  · rw [hnone i st hi] at hst
    cases hst
  · exact accounted_after (h.regular hreg) h
      (hacc fun t ht => hplain t (List.mem_append_left _ ht)) ha (hplain t (by simp))

end Stage

namespace WorkGraph

open Stage

variable {g g' : WorkGraph} {plan : Plan} {foreign : Foreign} {turns : List Turn} {s : Stage}
  {t : Turn} {i q : Nat} {n : PlannedNode}

/-- In a run without regard to other builds that is not asked to stop, a node starts ahead of one
that comes first in order only if that one is not required and a selection has let it pass when
nothing moved in strict order. Until a node ends after that selection nothing is in its turn, and in
the selection itself the start is the last resort. -/
theorem overtakes_after_standstill (hb : Built g) (hf : g.freeze = .ok g')
    (hp : g'.plan = some plan)
    (hl : plan.Local) (h : History (Stage.start plan g'.exports foreign) turns s)
    (hplain : ∀ t ∈ turns, IsPlain t) (ha : s.Allows t) (ht : IsPlain t)
    (hs : s.Starts (s.after t) i) (hn : plan.nodes[i]? = some n) (hq : q ∈ n.runAfter)
    (hopen : (s.after t).run.progress.isDone q = false) :
    (∀ m, plan.nodes[q]? = some m → m.required = false) ∧
      ∃ before u rest s₁, turns ++ [t] = before ++ u :: rest ∧
        History (Stage.start plan g'.exports foreign) before s₁ ∧ s₁.LetsPass u i q ∧
        ((∀ k outcome, Turn.finish k outcome ∉ rest) → ∀ k m, ¬ (s.after t).run.InTurn k m) ∧
        (rest = [] → (s.after t).run.LastResort i q) := by
  have hreg₀ := regular_of_freeze_local hb hf hp hl g'.exports foreign
  have hafter := h.snoc ha
  have hreg := hafter.regular hreg₀
  have hplan : (s.after t).run.plan = plan := hafter.plan
  have hoptional : ∀ m, plan.nodes[q]? = some m → m.required = false := by
    intro m hm
    by_contra hreq
    have hdone := (hreg.inOrder i n .running (hplan ▸ hn) hs.2 rfl).runAfter q hq m (hplan ▸ hm)
      (Bool.eq_true_of_not_eq_false hreq)
    rw [hdone] at hopen
    cases hopen
  have hnone : ∀ i st, (Stage.start plan g'.exports foreign).run.progress.state? i = some st →
      st.isCleared = false := by
    intro i st hi
    rw [Run.eq_scheduled_of_start hi]
    rfl
  have hturns : ∀ u ∈ turns ++ [t], IsPlain u := by
    intro u hu
    rcases List.mem_append.1 hu with hu | hu
    · exact hplain u hu
    · exact List.mem_singleton.1 hu ▸ ht
  obtain ⟨before, u, rest, s₁, heq, hbefore, hpass, hstill⟩ :=
    accounted_of_history hafter hreg₀ hnone hturns i n q .running (hplan ▸ hn) hs.2 rfl hq hopen
  have hidle : (∀ k outcome, Turn.finish k outcome ∉ rest) →
      ∀ k m, ¬ (s.after t).run.InTurn k m :=
    fun hno k m => (hstill hno).not_inTurn hreg.isLocal
  refine ⟨hoptional, before, u, rest, s₁, heq, hbefore, hpass, hidle, ?_⟩
  rintro rfl
  refine ⟨hplan ▸ hoptional, fun k hk => ?_, hidle fun _ _ hmem => by cases hmem⟩
  -- the last turn is the selection that let the node pass, and it left the same stage
  obtain ⟨rfl, htu⟩ := List.append_inj' heq rfl
  cases htu
  cases hbefore.unique h
  obtain ⟨locks, worker, table, rfl⟩ := hpass.selects
  have hreg₁ := h.regular hreg₀
  exact hpass.passes.alone hreg₁.sound hreg₁.consistent hk hs.2

/-- `x` is to run after `p`, which only its own finalizer `f` needs. -/
def detourGraph : WorkGraph :=
  requested [smallTask "x" [] ["f"] ["p"], smallTask "f" ["p"] [] [], smallTask "p" [] [] []] ["x"]

/-- There is no other way than to start `x` ahead of `p`. -/
theorem detourGraph_starts_as_last_resort :
    detourGraph.firstStage.Starts (detourGraph.firstStage.after selectAlone) 0 ∧
    (detourGraph.firstStage.after selectAlone).run.progress.isDone 2 = false ∧
    (detourGraph.firstStage.after selectAlone).run.LastResort 0 2 := by
  have hs : detourGraph.firstStage.Starts (detourGraph.firstStage.after selectAlone) 0 :=
    ⟨by decide +kernel, by decide +kernel⟩
  have hopen : (detourGraph.firstStage.after selectAlone).run.progress.isDone 2 = false := by
    decide +kernel
  have hnode : (detourGraph.firstStage.run.plan.nodes[0]?).any (2 ∈ ·.runAfter) = true := by
    decide +kernel
  obtain ⟨n, hn, hq⟩ := (Option.any_eq_true ..).1 hnode
  have hf := freeze_eq_frozen (g := detourGraph) (by decide +kernel)
  have hp := plan_frozen (g := detourGraph) (by decide +kernel)
  have hl : detourGraph.IsLocal := isLocal_of_all (by decide +kernel)
  have h : History detourGraph.firstStage [] detourGraph.firstStage := .nil
  obtain ⟨-, before, u, rest, s₁, heq, -, -, -, hlast⟩ :=
    overtakes_after_standstill (requested_built _ _) hf hp
      (plan_local_of_freeze (requested_built _ _) hl hf hp) h (by simp) (select_allowed _) rfl hs hn
      (by simpa using hq) hopen
  have hrest : rest = [] := by
    have hlen := congrArg List.length heq
    simp only [List.nil_append, List.length_append, List.length_cons, List.length_nil] at hlen
    exact List.length_eq_zero_iff.1 (by omega)
  exact ⟨hs, hopen, hlast hrest⟩

/-- Both `x1` and `x2` are to run after `p`, which only the finalizer `f` of `x1` needs. -/
def sidestepGraph : WorkGraph :=
  requested [smallTask "x1" [] ["f"] ["p"], smallTask "x2" [] [] ["p"], smallTask "f" ["p"] [] [],
    smallTask "p" [] [] []] ["x1", "x2"]

def sidestepTurns : List Turn := [selectAlone, .finish 0 .success]

/-- Once `x1` has run, `p` is needed and in its turn, but `x2` starts ahead of it. -/
theorem sidestepGraph_overtakes_in_turn : Built sidestepGraph ∧
    sidestepGraph.freeze = .ok sidestepGraph.frozen ∧
    sidestepGraph.frozen.plan = some sidestepGraph.firstStage.run.plan ∧
    sidestepGraph.firstStage.run.plan.Local ∧ (∀ t ∈ sidestepTurns, IsPlain t) ∧
    ∃ s n m, History sidestepGraph.firstStage sidestepTurns s ∧ s.Starts (s.after selectAlone) 1 ∧
      sidestepGraph.firstStage.run.plan.nodes[1]? = some n ∧ 3 ∈ n.runAfter ∧
      (s.after selectAlone).run.progress.isDone 3 = false ∧ (s.after selectAlone).run.InTurn 3 m ∧
      ¬ (s.after selectAlone).run.LastResort 1 3 := by
  have hf := freeze_eq_frozen (g := sidestepGraph) (by decide +kernel)
  have hp := plan_frozen (g := sidestepGraph) (by decide +kernel)
  have hl : sidestepGraph.IsLocal := isLocal_of_all (by decide +kernel)
  have hplain : ∀ t ∈ sidestepTurns, IsPlain t := by
    intro t ht
    fin_cases ht <;> simp [IsPlain, selectAlone]
  have hrun : (sidestepGraph.firstStage.after selectAlone).run.progress.state? 0 =
      some .running := by
    simp only [Stage.after, selectAlone, Run.select, Run.attempt, Run.readyNodes_eq]
    decide +kernel
  let s := (sidestepGraph.firstStage.after selectAlone).after (.finish 0 .success)
  have h : History sidestepGraph.firstStage sidestepTurns s :=
    .cons (select_allowed _) (.cons (.finish hrun _) .nil)
  have hstates : s.run.progress.state? 1 = some .ready ∧
      (s.after selectAlone).run.progress.state? 1 = some .running ∧
      (s.after selectAlone).run.progress.state? 3 = some .ready := by
    simp only [s, Stage.after, selectAlone, Run.select, Run.attempt, Run.readyNodes_eq]
    decide +kernel
  obtain ⟨hwaits, hstarts, hready⟩ := hstates
  have hnodes : (sidestepGraph.firstStage.run.plan.nodes[1]?).any (3 ∈ ·.runAfter) &&
      (sidestepGraph.firstStage.run.plan.nodes[3]?).any (fun m =>
        m.dependencies = [] && m.finalizes = [] && m.runAfter = []) = true := by
    decide +kernel
  simp only [Bool.and_eq_true, Option.any_eq_true, decide_eq_true_eq] at hnodes
  obtain ⟨⟨n, hn, hq⟩, m, hm, ⟨hdependencies, hfinalizes⟩, hrunAfter⟩ := hnodes
  have hturn : (s.after selectAlone).run.InTurn 3 m := by
    refine ⟨?_, .inl hready, by simp [hdependencies], by simp [hfinalizes], by simp [hrunAfter]⟩
    rw [(h.snoc (select_allowed s)).plan]
    exact hm
  refine ⟨requested_built _ _, hf, hp, plan_local_of_freeze (requested_built _ _) hl hf hp,
    hplain, s, n, m, h, ⟨?_, hstarts⟩, hn, hq, ?_, hturn, fun hlast => hlast.idle 3 m hturn⟩
  · rw [hwaits]
    decide
  · simp [Progress.isDone, hready, NodeState.isTerminal]

end WorkGraph

end Foreman
