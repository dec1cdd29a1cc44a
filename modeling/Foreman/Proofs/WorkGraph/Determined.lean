import Foreman.Proofs.Run.Fate
import Foreman.Proofs.WorkGraph.Losses
import Foreman.Proofs.WorkGraph.Reaching
import Foreman.Proofs.WorkGraph.Starting

/-!
# Results do not depend on the schedule

A batch makes all required that required nodes depend on, so that the plan of a work graph is closed
under their dependencies (`planOf_requiredClosed`). If it is settled in which way each node ends,
two runs of the plan that are not stopped and never give up leave every required node in the same
state and note the same failures of required tasks (`same_results`), whichever workers run the nodes
and in whichever order they get their locks.
-/

namespace Foreman

namespace Stage

open Run

variable {s s' : Stage} {t : Turn} {turns : List Turn} {ends : Nat → NodeOutcome}

/-- The turn asks for no stop, and a node that ends in it ends as it is to end. -/
def Obeys (ends : Nat → NodeOutcome) : Turn → Prop
  | .select stop .. => stop = false
  | .finish i outcome => outcome = ends i
  | .news _ => True

theorem faithful_after (h : s.run.Faithful ends) (ha : s.Allows t) (ht : Obeys ends t)
    (hkeeps : ¬ s.GivesUp t) : (s.after t).run.Faithful ends := by
  cases ha with
  | select stop locks worker table =>
    obtain rfl : stop = false := ht
    exact h.changes (changes_of_not_givesUp hkeeps)
  | finish hi outcome =>
    obtain rfl : outcome = _ := ht
    exact h.finish hi
  | news => exact h

theorem History.faithful (h : History s turns s') (hs : s.run.Faithful ends)
    (hturns : ∀ t ∈ turns, Obeys ends t) (hkeeps : ¬ s.GaveUp turns) : s'.run.Faithful ends := by
  induction h with
  | nil => exact hs
  | cons ha _ ih =>
    rw [GaveUp, not_or] at hkeeps
    exact ih (faithful_after hs ha (hturns _ (List.mem_cons_self ..)) hkeeps.1)
      (fun t ht => hturns t (List.mem_cons_of_mem _ ht)) hkeeps.2

/-- A whole run of a plan: every node is over, none was stopped, no selection gave up, and the nodes
ended as they were to end. -/
structure Completes (ends : Nat → NodeOutcome) (plan : Plan) (exports : Exports) (s : Stage) :
    Prop where
  history : ∃ foreign turns, History (start plan exports foreign) turns s ∧
    (∀ t ∈ turns, Obeys ends t) ∧ ¬ (start plan exports foreign).GaveUp turns
  ended : s.run.isOver = true

end Stage

namespace WorkGraph

open Stage

variable {g g' : WorkGraph} {plan : Plan} {ends : Nat → NodeOutcome} {s s₁ s₂ : Stage} {i : Nat}
  {n : PlannedNode} {footprints : List Footprint} {p : Precedence}

theorem planOf_requiredClosed (hb : Built g) (hf : g.footprints = .ok footprints) (p : Precedence) :
    (g.planOf footprints p).RequiredClosed := by
  obtain ⟨hall, _⟩ := planOf_nodes hb.sound hf p
  intro i d n m hn hreq hd hm
  obtain ⟨a, u, hu⟩ := hall i n hn
  obtain ⟨b, v, hv⟩ := hall d m hm
  obtain ⟨_, _, rfl⟩ := hu.eq
  obtain ⟨_, _, rfl⟩ := hv.eq
  obtain ⟨b', hb', hpos⟩ := mem_positions hd
  obtain rfl : b = b' := Option.some.inj (hv.position.symm.trans hpos)
  have hsched : u.state.isScheduled = true := by
    obtain ⟨u', hu', hs⟩ := (hb.sound.scheduled a).1
      (Std.TreeSet.mem_toList.1 (List.mem_of_getElem? hu.position))
    cases hu'.symm.trans hu.node
    exact hs
  have hneeds : g.Needs u.key v.key :=
    ⟨a, b, u, v, hu.node, rfl, hv.node, rfl, Std.TreeSet.mem_toList.1 hb'⟩
  obtain ⟨c, w, hw, hkey, _, hwreq⟩ :=
    hb.settled.demands ⟨a, u, hu.node, rfl, hsched, hreq⟩ hneeds
  cases hb.settled.wired.distinct c b w v hw hv.node hkey
  cases hw.symm.trans hv.node
  exact hwreq

/-- The state in which a whole run leaves a required node. -/
theorem fate_of_completes (hb : Built g) (hf : g.FrozenTo footprints p g')
    (hs : Completes ends (g.planOf footprints p) g'.exports s)
    (hn : (g.planOf footprints p).nodes[i]? = some n) (hreq : n.required = true) :
    s.run.plan = g.planOf footprints p ∧ s.run.Faithful ends ∧
      ((g.planOf footprints p).Runs ends i →
        s.run.progress.state? i = some (Run.endState (ends i))) ∧
      (¬ (g.planOf footprints p).Runs ends i → s.run.progress.state? i = some .skipped) := by
  obtain ⟨foreign, turns, h, hobeys, hkeeps⟩ := hs.history
  have hplan : s.run.plan = g.planOf footprints p := h.plan
  have hfaithful := h.faithful (Run.start_faithful _ _) hobeys hkeeps
  refine ⟨hplan, hfaithful, ?_⟩
  rw [← hplan] at hn ⊢
  refine hfaithful.fate h.consistent h.inOrder ?_ ?_ hs.ended hn hreq
  · rw [hplan]
    exact planOf_sound hb.sound hf
  · rw [hplan]
    exact planOf_requiredClosed hb hf.footprints_eq p

/-- If it is settled in which way each node ends, any two whole runs of the plan of a work graph
leave every required node in the same state, and their failures tell the same of required tasks. -/
theorem same_results (hb : Built g) (hf : g.freeze = .ok g') (hp : g'.plan = some plan)
    (h₁ : Completes ends plan g'.exports s₁) (h₂ : Completes ends plan g'.exports s₂) {i : Nat}
    {n : PlannedNode} (hn : plan.nodes[i]? = some n) (hreq : n.required = true) :
    s₁.run.progress.state? i = s₂.run.progress.state? i ∧
      ∀ t, n.task? = some t → ∀ e, .taskFailed t.path e ∈ s₁.run.progress.failures ↔
        .taskFailed t.path e ∈ s₂.run.progress.failures := by
  obtain ⟨footprints, p, hto⟩ := freeze_spec hf
  obtain rfl : plan = g.planOf footprints p := by
    rw [hto.eq] at hp
    exact (Option.some.inj hp).symm
  obtain ⟨hplan₁, hf₁, hruns₁, hstays₁⟩ := fate_of_completes hb hto h₁ hn hreq
  obtain ⟨hplan₂, hf₂, hruns₂, hstays₂⟩ := fate_of_completes hb hto h₂ hn hreq
  have hstate : s₁.run.progress.state? i = s₂.run.progress.state? i := by
    by_cases hr : (g.planOf footprints p).Runs ends i
    · rw [hruns₁ hr, hruns₂ hr]
    · rw [hstays₁ hr, hstays₂ hr]
  refine ⟨hstate, fun t ht e => ?_⟩
  have hdistinct := planOf_distinct hb.sound hb.distinct hto.footprints_eq p
  rw [hf₁.mem_failures_iff (hplan₁ ▸ hdistinct) (hplan₁ ▸ hn) ht,
    hf₂.mem_failures_iff (hplan₂ ▸ hdistinct) (hplan₂ ▸ hn) ht, hstate,
    Run.failuresOf_congr (hplan₁.trans hplan₂.symm)]

def compileFails (i : Nat) : NodeOutcome := if i = 1 then .failure ⟨"syntax", []⟩ else .success

def loneTurns : List Turn := [selectAlone, .finish 1 (compileFails 1), selectAlone]

def pairedTurns : List Turn :=
  [selectAlone, selectAlone, .finish 1 (compileFails 1), selectAlone, selectAlone]

theorem testGraph_completes {turns : List Turn} (h : History testGraph.firstStage turns s)
    (hturns : ∀ t ∈ turns, Obeys compileFails t) (hover : s.run.isOver = true) :
    Completes compileFails testGraph.firstStage.run.plan testGraph.frozen.exports s := by
  have hreg := regular_of_freeze (g := testGraph) (requested_built _ _)
    (isLocal_of_all (by decide +kernel)) (freeze_eq_frozen (by decide +kernel))
    (plan_frozen (by decide +kernel)) testGraph.frozen.exports fun _ _ => none
  have hreq : testGraph.firstStage.run.plan.nodes.all (·.required) = true := by decide +kernel
  have hdec := hreg.sound.decisive fun i n hn =>
    Array.all_eq_true'.1 hreq n (Array.mem_of_getElem? hn)
  exact ⟨⟨_, turns, h, hturns, h.not_gaveUp_of_decisive hreg hdec⟩, hover⟩

/-- With one worker or two, the compilation fails and the test is skipped. -/
theorem testGraph_same_results : ∃ s₁ s₂, History testGraph.firstStage loneTurns s₁ ∧
    History testGraph.firstStage pairedTurns s₂ ∧ s₁.run.progress.state? 0 = some .skipped ∧
    s₁.run.progress.failures = [.taskFailed ⟨":", "compile"⟩ ⟨"syntax", []⟩] ∧
    ∀ (i : Nat) (n : PlannedNode), testGraph.firstStage.run.plan.nodes[i]? = some n →
      s₁.run.progress.state? i = s₂.run.progress.state? i ∧
      ∀ t, n.task? = some t → ∀ e, .taskFailed t.path e ∈ s₁.run.progress.failures ↔
        .taskFailed t.path e ∈ s₂.run.progress.failures := by
  have h₁ : History testGraph.firstStage loneTurns
      (loneTurns.foldl Stage.after testGraph.firstStage) :=
    .cons (select_allowed _) (.cons (.finish (by decide +kernel) _) (.cons (select_allowed _) .nil))
  have h₂ : History testGraph.firstStage pairedTurns
      (pairedTurns.foldl Stage.after testGraph.firstStage) :=
    .cons (select_allowed _) (.cons (select_allowed _) (.cons (.finish (by decide +kernel) _)
      (.cons (select_allowed _) (.cons (select_allowed _) .nil))))
  have hobeys₁ : ∀ t ∈ loneTurns, Obeys compileFails t := by
    intro t ht
    fin_cases ht <;> simp [Obeys, selectAlone]
  have hobeys₂ : ∀ t ∈ pairedTurns, Obeys compileFails t := by
    intro t ht
    fin_cases ht <;> simp [Obeys, selectAlone]
  have hreq : testGraph.firstStage.run.plan.nodes.all (·.required) = true := by decide +kernel
  refine ⟨_, _, h₁, h₂, by decide +kernel, by decide +kernel, fun i n hn => ?_⟩
  exact same_results (g := testGraph) (requested_built _ _)
    (freeze_eq_frozen (by decide +kernel)) (plan_frozen (by decide +kernel))
    (testGraph_completes h₁ hobeys₁ (by decide +kernel))
    (testGraph_completes h₂ hobeys₂ (by decide +kernel)) hn
    (Array.all_eq_true'.1 hreq n (Array.mem_of_getElem? hn))

end WorkGraph

end Foreman
