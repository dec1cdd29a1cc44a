import Foreman.Proofs.Run.Bookkeeping
import Foreman.Proofs.Run.Precedence
import Foreman.Proofs.Run.Reporting
import Foreman.Proofs.WorkGraph.Frozen

/-!
# What becomes of required nodes

The plan and the outcome that each node would have tell which nodes run: those all of whose
dependencies run and end in a way that lets others go on (`Plan.Runs`). While no stop is asked for
and no selection gives up, a run is faithful to the outcomes (`Run.Faithful`); and if required nodes
depend on required ones only, a faithful run that is over has executed just those required nodes
that are to run, and skipped the others (`Faithful.fate`). Nothing of this looks at the order of
events.
-/

namespace Foreman

namespace Plan

/-- The node lets those that depend on it go on, if it runs and ends in this way. -/
def letsOn (p : Plan) (i : Nat) : NodeOutcome → Bool
  | .success => true
  | .failure _ => (p.nodes[i]?).any (·.ignoresFailures)
  | .foreignFailure => false

/-- The dependencies of the node run, and let it go on. -/
inductive Runs (p : Plan) (ends : Nat → NodeOutcome) : Nat → Prop
  | intro {i : Nat} {n : PlannedNode} (hn : p.nodes[i]? = some n)
      (hruns : ∀ d ∈ n.dependencies, p.Runs ends d)
      (hlets : ∀ d ∈ n.dependencies, p.letsOn d (ends d) = true) : p.Runs ends i

/-- Required nodes depend on required nodes only. -/
def RequiredClosed (p : Plan) : Prop :=
  ∀ (i d : Nat) (n m : PlannedNode), p.nodes[i]? = some n → n.required = true →
    d ∈ n.dependencies → p.nodes[d]? = some m → m.required = true

end Plan

namespace Run

variable {r r' : Run} {ends : Nat → NodeOutcome} {i k : Nat} {n : PlannedNode} {old new : NodeState}
  {foreign : Foreign} {outcome : NodeOutcome}

theorem executed_endState (outcome : NodeOutcome) : (endState outcome).executed = true := by
  cases outcome <;> rfl

theorem failuresOf_congr (h : r'.plan = r.plan) (i : Nat) (outcome : NodeOutcome) :
    r'.failuresOf i outcome = r.failuresOf i outcome := by
  cases outcome <;> simp only [failuresOf, ignoresFailures_congr h, h]

theorem toleratedOf_congr (h : r'.plan = r.plan) (i : Nat) (outcome : NodeOutcome) :
    r'.toleratedOf i outcome = r.toleratedOf i outcome := by
  cases outcome <;> simp only [toleratedOf, ignoresFailures_congr h]

/-- Nothing but a failed dependency keeps a required node from running, nodes end as they are to
end, and what is noted of failures is what the failed nodes have to say. -/
structure Faithful (ends : Nat → NodeOutcome) (r : Run) : Prop where
  skipped : ∀ (i : Nat) n, r.plan.nodes[i]? = some n → n.required = true →
    r.progress.state? i = some .skipped → ∃ d ∈ n.dependencies, r.progress.blocks d = true
  needed : ∀ (i : Nat) n, r.plan.nodes[i]? = some n → n.required = true →
    r.progress.state? i ≠ some .mustNotRun
  ended : ∀ i st, r.progress.state? i = some st → st.executed = true → st = endState (ends i)
  tolerated : ∀ i, i ∈ r.progress.tolerated ↔
    r.progress.state? i = some .failed ∧ i ∈ r.toleratedOf i (ends i)
  failures : ∀ f, f ∈ r.progress.failures ↔
    ∃ i, r.progress.state? i = some .failed ∧ f ∈ r.failuresOf i (ends i)

theorem start_faithful (plan : Plan) (exports : Exports) : (start plan exports).Faithful ends := by
  have hnot : ∀ i st, st ≠ .scheduled → (start plan exports).progress.state? i ≠ some st :=
    fun i st hne h => hne (eq_scheduled_of_start h)
  constructor
  · exact fun i n _ _ h => absurd h (hnot i _ (by decide))
  · exact fun i n _ _ => hnot i _ (by decide)
  · intro i st h hst
    rw [eq_scheduled_of_start h] at hst
    cases hst
  · exact fun i => iff_of_false List.not_mem_nil fun h => hnot i _ (by decide) h.1
  · exact fun f => iff_of_false List.not_mem_nil fun ⟨i, h, _⟩ => hnot i _ (by decide) h

/-! ## Selections -/

/-- A node goes on or will not run, for a reason. -/
theorem Faithful.passes (h : r.Faithful ends) (hp : Passes r r' i old new)
    (hskip : ∀ n, r.plan.nodes[i]? = some n → n.required = true → new = .skipped →
      ∃ d ∈ n.dependencies, r.progress.blocks d = true)
    (hneed : ∀ n, r.plan.nodes[i]? = some n → n.required = true → new ≠ .mustNotRun) :
    r'.Faithful ends := by
  have hm := hp.toMoved
  have hfailed := hm.state?_iff (show NodeState.failed.isTerminal = true from rfl) hp.unended.2
  constructor
  · intro k n hn hreq hs
    rw [hm.plan] at hn
    have hblocked : ∃ d ∈ n.dependencies, r.progress.blocks d = true := by
      by_cases hk : k = i
      · subst hk
        rw [hm.after, if_pos rfl, Option.some.injEq] at hs
        exact hskip n hn hreq hs
      · rw [hm.state?_of_ne hk] at hs
        exact h.skipped k n hn hreq hs
    obtain ⟨d, hd, hb⟩ := hblocked
    exact ⟨d, hd, hm.blocks hb⟩
  · intro k n hn hreq hs
    rw [hm.plan] at hn
    by_cases hk : k = i
    · subst hk
      rw [hm.after, if_pos rfl, Option.some.injEq] at hs
      exact hneed n hn hreq hs
    · rw [hm.state?_of_ne hk] at hs
      exact h.needed k n hn hreq hs
  · intro k st hs hst
    by_cases hk : k = i
    · subst hk
      rw [hm.after, if_pos rfl, Option.some.injEq] at hs
      subst hs
      have := hp.unended
      cases new <;> simp_all [NodeState.executed]
    · rw [hm.state?_of_ne hk] at hs
      exact h.ended k st hs hst
  · intro k
    rw [hp.tolerated_eq, hfailed, toleratedOf_congr hm.plan]
    exact h.tolerated k
  · intro f
    rw [hp.failures_eq, h.failures]
    simp only [hfailed, failuresOf_congr hm.plan]

/-- A selection without a stop that does not give up. -/
theorem Faithful.changes (h : r.Faithful ends) (hc : Changes (Cause.OfAttempt false foreign) r r') :
    r'.Faithful ends := by
  induction hc with
  | refl => exact h
  | tail _ hc ih =>
    obtain ⟨c, hcause, hc⟩ := hc
    cases hc with
    | judge o hn hs hv =>
      have hstop : o.stop = false := hcause.1
      refine ih.passes (passes_moveAndPublish hs hv.mem_moves
        (by rcases hv.cases_new with h | h | h <;> simp [h])) (fun m hm hreq hnew => ?_)
        fun m hm hreq hnew => ?_
      · cases hn.symm.trans hm
        cases hv with
        | stopped hs => simp [hstop] at hs
        | needless => cases hnew
        | blocked _ _ _ hb hblocks => exact ⟨_, hb, hblocks⟩
        | cleared => cases hnew
      · cases hn.symm.trans hm
        cases hv with
        | stopped => cases hnew
        | needless _ hd => cases hd.required _ hn hreq
        | blocked => cases hnew
        | cleared => cases hnew
    | drop o ho _ => simp [show o.stop = false from hcause.1] at ho
    | start hs =>
      exact ih.passes
        ⟨moved_launch hs, by decide, .inl ⟨rfl, rfl⟩, by simp [launch], by simp [launch]⟩
        (fun _ _ _ hnew => by cases hnew) fun _ _ _ hnew => by cases hnew
    | giveUp => exact hcause.elim
    | finish => exact hcause.elim

/-! ## Ends -/

/-- A node ends in its own way. -/
theorem Faithful.finish (h : r.Faithful ends) (hs : r.progress.state? i = some .running) :
    (r.finish i (ends i)).Faithful ends := by
  have hm := moved_finish hs (ends i)
  have hplan : (r.finish i (ends i)).plan = r.plan := plan_finish (ends i)
  have hown := hm.after i
  rw [if_pos rfl] at hown
  have hne : ∀ {k : Nat} {st : NodeState}, (r.finish i (ends i)).progress.state? k = some st →
      st.executed = false → k ≠ i := by
    rintro k st hst hnot rfl
    rw [hown, Option.some.injEq] at hst
    rw [← hst, executed_endState] at hnot
    cases hnot
  have hfailed : ∀ k, k ≠ i → ((r.finish i (ends i)).progress.state? k = some .failed ↔
      r.progress.state? k = some .failed) := fun k hk => by rw [hm.state?_of_ne hk]
  constructor
  · intro k n hn hreq hskip
    rw [hm.state?_of_ne (hne hskip rfl)] at hskip
    obtain ⟨d, hd, hb⟩ := h.skipped k n (hplan ▸ hn) hreq hskip
    exact ⟨d, hd, hm.blocks hb⟩
  · intro k n hn hreq hmust
    rw [hm.state?_of_ne (hne hmust rfl)] at hmust
    exact h.needed k n (hplan ▸ hn) hreq hmust
  · intro k st hst hex
    by_cases hk : k = i
    · subst hk
      exact (Option.some.inj (hown.symm.trans hst)).symm
    · rw [hm.state?_of_ne hk] at hst
      exact h.ended k st hst hex
  · intro k
    rw [tolerated_finish, List.mem_append, h.tolerated, toleratedOf_congr hplan]
    by_cases hk : k = i
    · subst hk
      rw [hs, hown]
      cases ends k <;> simp [toleratedOf, endState]
    · rw [hfailed k hk]
      exact or_iff_right fun hmem => hk (mem_toleratedOf hmem)
  · intro f
    rw [failures_finish, List.mem_append, h.failures]
    simp only [failuresOf_congr hplan]
    constructor
    · rintro (⟨k, hk, hf⟩ | hf)
      · have hki : k ≠ i := by
          rintro rfl
          rw [hs] at hk
          cases hk
        exact ⟨k, (hfailed k hki).2 hk, hf⟩
      · refine ⟨i, ?_, hf⟩
        rw [hown]
        cases he : ends i <;> rw [he] at hf
        · cases hf
        · rfl
        · rfl
    · rintro ⟨k, hk, hf⟩
      by_cases hki : k = i
      · subst hki
        exact .inr hf
      · exact .inl ⟨k, (hfailed k hki).1 hk, hf⟩

/-! ## Fate -/

/-- Whether a node that was executed lets others go on is a matter of its outcome. -/
theorem Faithful.satisfies_iff (h : r.Faithful ends)
    (hs : r.progress.state? i = some (endState (ends i))) :
    r.progress.satisfies i = true ↔ r.plan.letsOn i (ends i) = true := by
  rw [Progress.satisfies_iff, h.tolerated, hs]
  have hi : r.ignoresFailures i = (r.plan.nodes[i]?).any (·.ignoresFailures) := rfl
  cases ends i <;> simp [endState, Plan.letsOn, toleratedOf, ← hi]

/-- What satisfies was executed. -/
theorem Faithful.eq_endState (h : r.Faithful ends) (hs : r.progress.satisfies i = true) :
    r.progress.state? i = some (endState (ends i)) := by
  rcases Progress.satisfies_iff.1 hs with hs | ⟨hs, _⟩
  · rw [hs, ← h.ended i _ hs rfl]
  · rw [hs, ← h.ended i _ hs rfl]

/-- When a faithful run is over, those required nodes have been executed that were to run, and the
others were skipped. Induction is along the dependencies. -/
theorem Faithful.fate (h : r.Faithful ends) (hc : r.Consistent) (ho : r.InOrder foreign)
    (hp : r.plan.Sound) (hreq : r.plan.RequiredClosed) (hover : r.isOver = true)
    (hn : r.plan.nodes[i]? = some n) (hn' : n.required = true) :
    (r.plan.Runs ends i → r.progress.state? i = some (endState (ends i))) ∧
      (¬ r.plan.Runs ends i → r.progress.state? i = some .skipped) := by
  obtain ⟨rank, _, hrank⟩ := hp.acyclic.exists_rank hp.bounded
  induction hk : rank i using Nat.strong_induction_on generalizing i n with
  | _ k ih =>
    subst hk
    obtain ⟨st, hst⟩ := hc.exists_state (Array.getElem?_eq_some_iff.1 hn).1
    have hterm : st.isTerminal = true :=
      Array.all_eq_true'.1 hover st (Array.mem_of_getElem? hst)
    have hmust : st ≠ .mustNotRun := by
      rintro rfl
      exact h.needed i n hn hn' hst
    have hdeps : ∀ d ∈ n.dependencies,
        (r.plan.Runs ends d → r.progress.state? d = some (endState (ends d))) ∧
          (¬ r.plan.Runs ends d → r.progress.state? d = some .skipped) := by
      intro d hd
      have hwaits : r.plan.Waits i d := ⟨n, hn, .inl hd⟩
      obtain ⟨m, hm⟩ : ∃ m, r.plan.nodes[d]? = some m :=
        ⟨_, Array.getElem?_eq_getElem (hp.bounded i d hwaits)⟩
      exact ih _ (hrank i d hwaits) hm (hreq i d n m hn hn' hd hm) rfl
    constructor
    · rintro ⟨hn₁, hruns, hlets⟩
      cases hn₁.symm.trans hn
      have hskip : st ≠ .skipped := by
        rintro rfl
        obtain ⟨d, hd, hb⟩ := h.skipped i n hn hn' hst
        have hsat := (h.satisfies_iff ((hdeps d hd).1 (hruns d hd))).2 (hlets d hd)
        rw [Progress.not_blocks_of_satisfies hsat] at hb
        cases hb
      have hexec : st.executed = true := by
        cases st <;> simp_all [NodeState.isTerminal, NodeState.executed]
      rw [hst, ← h.ended i st hst hexec]
    · intro hnot
      by_contra hskip
      rw [hst, Option.some.injEq] at hskip
      have hcleared : st.isCleared = true := by
        cases st <;> simp_all [NodeState.isTerminal, NodeState.isCleared]
      have hsat := (ho i n st hn hst hcleared).dependencies
      have hruns : ∀ d ∈ n.dependencies, r.plan.Runs ends d := by
        intro d hd
        by_contra hstay
        have hs := h.eq_endState (hsat d hd)
        have hexec := executed_endState (ends d)
        rw [(hdeps d hd).2 hstay, Option.some.injEq] at hs
        rw [← hs] at hexec
        cases hexec
      refine hnot (.intro hn hruns fun d hd => ?_)
      exact (h.satisfies_iff ((hdeps d hd).1 (hruns d hd))).1 (hsat d hd)

/-- The failures of a task are noted if it failed. -/
theorem Faithful.mem_failures_iff (h : r.Faithful ends) (hd : r.plan.Distinct)
    (hn : r.plan.nodes[i]? = some n) {t : TaskDefinition} (ht : n.task? = some t) (e : ErrorChain) :
    .taskFailed t.path e ∈ r.progress.failures ↔
      r.progress.state? i = some .failed ∧ .taskFailed t.path e ∈ r.failuresOf i (ends i) := by
  rw [h.failures]
  refine ⟨fun ⟨k, hk, hf⟩ => ?_, fun ⟨hi, hf⟩ => ⟨i, hi, hf⟩⟩
  suffices k = i by
    subst this
    exact ⟨hk, hf⟩
  cases he : ends k with
  | success =>
    rw [he] at hf
    cases hf
  | foreignFailure =>
    rw [he] at hf
    cases hf
  | failure error =>
    rw [he, failuresOf] at hf
    split at hf
    · cases hf
    · obtain ⟨t', ht', hpath⟩ := Option.map_eq_some_iff.1 (Option.mem_toList.1 hf)
      obtain ⟨m, hm, htask⟩ := Option.bind_eq_some_iff.1 ht'
      refine hd k i m n hm hn ?_
      rw [PlannedNode.key_of_task htask, PlannedNode.key_of_task ht]
      injection hpath with hpath
      rw [hpath]

end Run

end Foreman
