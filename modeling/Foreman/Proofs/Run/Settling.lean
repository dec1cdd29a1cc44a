import Foreman.Proofs.Run.Demand
import Foreman.Proofs.Totals

/-!
# What settling does

A waiting node moves for a reason (`Run.Verdict`), and each change that any part of an execution
makes to a run is a `Run.Change`. Settling is a chain of such changes (`settle_chain`), and it ends
where no waiting node has a reason to move (`settle_rests`).
-/

namespace Foreman

namespace Run

variable {r r' : Run} {o : Outlook} {i : Nat} {n : PlannedNode} {new : NodeState}

/-! ## Reasons -/

/-- Everything that comes before a node lets it run. In a relaxed pass a predecessor in order may be
undecided instead. -/
structure Cleared (r : Run) (o : Outlook) (n : PlannedNode) : Prop where
  dependencies : ∀ d ∈ n.dependencies, r.progress.satisfies d = true
  finalizes : ∀ f ∈ n.finalizes, r.progress.isDone f = true
  runAfter : ∀ p ∈ n.runAfter, r.progress.isDone p = true ∨
    o.relaxed = true ∧ r.plan.Demands r.progress.states p .pending
  afterExports : ∀ e ∈ n.afterExports, isPublished o e = true

/-- Why a scheduled node moves, and where to. -/
inductive Verdict (r : Run) (o : Outlook) (i : Nat) (n : PlannedNode) : NodeState → Prop
  | stopped (hs : o.stop = true) : Verdict r o i n .skipped
  | needless (hs : o.stop = false) (hd : r.plan.Demands r.progress.states i .unwanted) :
      Verdict r o i n .mustNotRun
  | blocked (hs : o.stop = false) {d : Demand} (hd : r.plan.Demands r.progress.states i d)
      (hne : d ≠ .unwanted) {b : Nat} (hb : b ∈ n.dependencies)
      (hblocks : r.progress.blocks b = true) : Verdict r o i n .skipped
  | cleared (hs : o.stop = false) (hd : r.plan.Demands r.progress.states i .wanted)
      (hc : r.Cleared o n) : Verdict r o i n .ready

/-- Why a scheduled node stays, in a layered plan. -/
structure Held (r : Run) (o : Outlook) (i : Nat) (n : PlannedNode) : Prop where
  stop : o.stop = false
  dependencies : ∀ d ∈ n.dependencies, r.progress.blocks d = false
  reason : r.plan.demandOf r.progress.states i = .pending ∨
    r.plan.demandOf r.progress.states i = .wanted ∧
      ((∃ d ∈ n.dependencies, r.progress.satisfies d = false) ∨
        (∃ f ∈ n.finalizes, r.progress.isDone f = false) ∨
        (∃ p ∈ n.runAfter, r.progress.isDone p = false ∧
          (o.relaxed = true → r.plan.demandOf r.progress.states p ≠ .pending)) ∨
        ∃ e ∈ n.afterExports, isPublished o e = false)

/-- What can change a run. -/
inductive Cause
  /-- A node moves while the run settles. -/
  | settled (o : Outlook)
  | started
  /-- A node is skipped because nothing else is left to do. -/
  | gaveUp
  | ended (outcome : NodeOutcome)

inductive Change (r : Run) : Cause → Run → Prop
  | judge (o : Outlook) {i : Nat} {n : PlannedNode} {new : NodeState}
      (hn : r.plan.nodes[i]? = some n) (hs : r.progress.state? i = some .scheduled)
      (hv : r.Verdict o i n new) : Change r (.settled o) (r.moveAndPublish i new)
  | drop (o : Outlook) {i : Nat} (ho : o.stop = true) (hs : r.progress.state? i = some .ready) :
      Change r (.settled o) (r.moveAndPublish i .skipped)
  | start {i : Nat} (hs : r.progress.state? i = some .ready) : Change r .started (r.launch i)
  | giveUp {i : Nat}
      (hs : r.progress.state? i = some .scheduled ∨ r.progress.state? i = some .ready) :
      Change r .gaveUp (r.moveAndPublish i .skipped)
  | finish {i : Nat} (hs : r.progress.state? i = some .running) (outcome : NodeOutcome) :
      Change r (.ended outcome) (r.finish i outcome)

/-- Changes one after another, each for an admitted cause. -/
def Changes (admits : Cause → Prop) : Run → Run → Prop :=
  Relation.ReflTransGen fun r r' => ∃ c, admits c ∧ Change r c r'

/-! ## One node -/

theorem orderDone_spec {memo : Plan.Memo} (ps : List Nat)
    (hm : r.plan.MemoValid r.progress.states memo) :
    r.plan.MemoValid r.progress.states (r.orderDone o ps memo).2 ∧
      ((r.orderDone o ps memo).1 = true → ∀ p ∈ ps, r.progress.isDone p = true ∨
        o.relaxed = true ∧ r.plan.Demands r.progress.states p .pending) ∧
      ((r.orderDone o ps memo).1 = false → r.plan.Layered →
        ∃ p ∈ ps, r.progress.isDone p = false ∧
          (o.relaxed = true → r.plan.demandOf r.progress.states p ≠ .pending)) := by
  induction ps generalizing memo with
  | nil => simp [orderDone, hm]
  | cons p ps ih =>
    rw [orderDone]
    cases hd : r.progress.isDone p with
    | true =>
      obtain ⟨hv, ht, hf⟩ := ih hm
      refine ⟨hv, fun h q hq => ?_, fun h hp => ?_⟩
      · rcases List.mem_cons.1 hq with rfl | hq
        · exact .inl hd
        · exact ht h q hq
      · obtain ⟨q, hq, h⟩ := hf h hp
        exact ⟨q, List.mem_cons_of_mem p hq, h⟩
    | false =>
      cases ho : o.relaxed with
      | false =>
        exact ⟨hm, fun h => by simp at h, fun _ _ => ⟨p, List.mem_cons_self .., hd, by simp⟩⟩
      | true =>
        obtain ⟨hv, hp⟩ := Plan.demandMemo_demands (i := p) hm
        simp only [if_true, Bool.false_eq_true, if_false]
        by_cases hpend :
            (r.plan.demandMemo r.progress.states (r.plan.size + 1) p memo).1 = .pending
        · rw [hpend] at hp
          rw [if_pos hpend]
          obtain ⟨hv, ht, hf⟩ := ih hv
          refine ⟨hv, fun h q hq => ?_, fun h hpl => ?_⟩
          · rcases List.mem_cons.1 hq with rfl | hq
            · exact .inr ⟨trivial, hp⟩
            · simpa [ho] using ht h q hq
          · obtain ⟨q, hq, h⟩ := hf h hpl
            exact ⟨q, List.mem_cons_of_mem p hq, by simpa [ho] using h⟩
        · rw [if_neg hpend]
          refine ⟨hv,
            fun h => by simp at h, fun _ hpl => ⟨p, List.mem_cons_self .., hd, fun _ => ?_⟩⟩
          rw [← hp.exact hpl]
          exact hpend

theorem advance_spec {memo : Plan.Memo} (hm : r.plan.MemoValid r.progress.states memo) :
    (∀ new, (r.advance o i n memo).1 = some new → r.Verdict o i n new) ∧
      ((r.advance o i n memo).1 = none →
        r.plan.MemoValid r.progress.states (r.advance o i n memo).2 ∧
          (r.plan.Layered → r.Held o i n)) := by
  rw [advance]
  cases hs : o.stop with
  | true => simpa using Verdict.stopped hs
  | false =>
    obtain ⟨hv, hd⟩ := Plan.demandMemo_demands (i := i) hm
    simp only [Bool.false_eq_true, if_false]
    generalize r.plan.demandMemo r.progress.states (r.plan.size + 1) i memo = answer at hv hd
    obtain ⟨d, memo'⟩ := answer
    simp only at hv hd ⊢
    by_cases hu : d = .unwanted
    · subst hu
      simpa using Verdict.needless hs hd
    rw [if_neg hu]
    cases hb : n.dependencies.any r.progress.blocks with
    | true =>
      obtain ⟨b, hb, hblocks⟩ := List.any_eq_true.1 hb
      simpa using Verdict.blocked hs hd hu hb hblocks
    | false =>
      have hnb : ∀ b ∈ n.dependencies, r.progress.blocks b = false := by
        simpa using hb
      simp only [Bool.false_eq_true, if_false]
      by_cases hpend : d = .pending
      · subst hpend
        rw [if_pos rfl]
        exact ⟨by simp, fun _ => ⟨hv, fun hp => ⟨hs, hnb, .inl (hd.exact hp).symm⟩⟩⟩
      have hw : d = .wanted := by cases d <;> simp_all
      subst hw
      rw [if_neg hpend]
      cases hall : n.dependencies.all r.progress.satisfies && n.finalizes.all r.progress.isDone with
      | false =>
        refine ⟨by simp, fun _ => ⟨hv, fun hp => ⟨hs, hnb, .inr ⟨(hd.exact hp).symm, ?_⟩⟩⟩⟩
        rw [Bool.and_eq_false_iff] at hall
        rcases hall with hall | hall
        · exact .inl (by simpa using hall)
        · exact .inr (.inl (by simpa using hall))
      | true =>
        rw [Bool.and_eq_true, List.all_eq_true, List.all_eq_true] at hall
        obtain ⟨hvo, hot, hof⟩ := orderDone_spec (o := o) n.runAfter hv
        simp only [if_true]
        generalize r.orderDone o n.runAfter memo' = answer at hvo hot hof
        obtain ⟨done, memo''⟩ := answer
        simp only at hvo hot hof ⊢
        cases hex : done && n.afterExports.all (isPublished o) with
        | true =>
          rw [Bool.and_eq_true, List.all_eq_true] at hex
          have hc : r.Cleared o n := ⟨hall.1, hall.2, hot hex.1, hex.2⟩
          simpa using Verdict.cleared hs hd hc
        | false =>
          refine ⟨by simp, fun _ => ⟨hvo, fun hp => ⟨hs, hnb, .inr ⟨(hd.exact hp).symm, ?_⟩⟩⟩⟩
          rw [Bool.and_eq_false_iff] at hex
          rcases hex with hex | hex
          · exact .inr (.inr (.inl (hof hex hp)))
          · exact .inr (.inr (.inr (by simpa using hex)))

/-- A node that has no reason to move. -/
structure Rests (r : Run) (o : Outlook) (i : Nat) : Prop where
  scheduled : ∀ n, r.plan.nodes[i]? = some n → r.progress.state? i = some .scheduled →
    r.plan.Layered → r.Held o i n
  ready : (r.plan.nodes[i]?).isSome → r.progress.state? i = some .ready → o.stop = false

theorem settleNode_spec {memo : Plan.Memo} (hm : r.plan.MemoValid r.progress.states memo)
    (i : Nat) :
    ((settleNode o (r, memo) i).1 = r ∧
        r.plan.MemoValid r.progress.states (settleNode o (r, memo) i).2 ∧ r.Rests o i) ∨
      (Change r (.settled o) (settleNode o (r, memo) i).1 ∧
        (settleNode o (r, memo) i).2 = r.plan.emptyMemo) := by
  rw [settleNode]
  cases hs : r.progress.state? i with
  | none => exact .inl ⟨rfl, hm, ⟨by simp [hs], by simp [hs]⟩⟩
  | some st =>
    cases hn : r.plan.nodes[i]? with
    | none => cases st <;> exact .inl ⟨rfl, hm, ⟨by simp [hn], by simp [hn]⟩⟩
    | some n =>
      cases st with
      | ready =>
        cases ho : o.stop with
        | true => exact .inr ⟨.drop o ho hs, rfl⟩
        | false => exact .inl ⟨rfl, hm, ⟨by simp [hs], fun _ _ => ho⟩⟩
      | scheduled =>
        obtain ⟨hsome, hnone⟩ := advance_spec (r := r) (o := o) (i := i) (n := n) hm
        simp only
        generalize r.advance o i n memo = answer at hsome hnone
        obtain ⟨new, memo'⟩ := answer
        cases new with
        | none =>
          obtain ⟨hv, hh⟩ := hnone rfl
          refine .inl ⟨rfl, hv, ⟨fun m hm _ hp => ?_, by simp [hs]⟩⟩
          rw [hn] at hm
          cases hm
          exact hh hp
        | some new => exact .inr ⟨.judge o hn hs (hsome new rfl), rfl⟩
      | _ => exact .inl ⟨rfl, hm, ⟨by simp [hs], by simp [hs]⟩⟩

/-! ## The sweep -/

theorem Change.plan {c : Cause} (h : Change r c r') : r'.plan = r.plan := by
  cases h <;> simp

theorem Changes.plan {admits : Cause → Prop} (h : Changes admits r r') : r'.plan = r.plan := by
  induction h with
  | refl => rfl
  | tail _ hc ih =>
    obtain ⟨c, _, hc⟩ := hc
    rw [hc.plan, ih]

theorem waiting_moveAndPublish {old : NodeState} (hs : r.progress.state? i = some old)
    (hm : old.canBecome new = true) :
    (r.moveAndPublish i new).progress.waiting + old.movesLeft =
      r.progress.waiting + new.movesLeft := by
  rw [progress_moveAndPublish, Progress.move_eq hs hm]
  simp only [Progress.waiting, Array.toList_setIfInBounds]
  exact total_set _ (by simpa [Progress.state?] using hs) new

/-- The states that a verdict can lead to. -/
theorem Verdict.cases_new (h : r.Verdict o i n new) :
    new = .ready ∨ new = .skipped ∨ new = .mustNotRun := by
  cases h <;> simp

theorem Verdict.legal (h : r.Verdict o i n new) : NodeState.canBecome .scheduled new = true := by
  rcases h.cases_new with rfl | rfl | rfl <;> rfl

theorem waiting_settled (h : Change r (.settled o) r') :
    r'.progress.waiting < r.progress.waiting := by
  cases h with
  | judge _ hn hs hv =>
    have := waiting_moveAndPublish hs hv.legal
    rcases hv.cases_new with rfl | rfl | rfl <;> simp only [NodeState.movesLeft] at this <;> omega
  | drop _ ho hs =>
    have := waiting_moveAndPublish hs (show NodeState.canBecome .ready .skipped = true from rfl)
    simp only [NodeState.movesLeft] at this
    omega

/-- Over any part of the nodes a sweep is a chain of changes: none if they all rest, else it lowers
what is left to move. -/
theorem foldl_settleNode_spec {memo : Plan.Memo} (l : List Nat)
    (hm : r.plan.MemoValid r.progress.states memo) :
    let swept := l.foldl (settleNode o) (r, memo)
    swept.1.plan.MemoValid swept.1.progress.states swept.2 ∧
      Changes (· = .settled o) r swept.1 ∧
      (swept.1 = r ∧ (∀ i ∈ l, r.Rests o i) ∨ swept.1.progress.waiting < r.progress.waiting) := by
  induction l generalizing r memo with
  | nil => exact ⟨hm, .refl, .inl ⟨rfl, by simp⟩⟩
  | cons i l ih =>
    rw [List.foldl_cons]
    generalize hst : settleNode o (r, memo) i = st
    obtain ⟨r₁, memo₁⟩ := st
    rcases settleNode_spec (o := o) hm i with ⟨hr, hv, hrest⟩ | ⟨hc, hv⟩
    · rw [hst] at hr hv
      simp only at hr hv
      subst hr
      obtain ⟨hv', hch, hd⟩ := ih hv
      refine ⟨hv', hch, ?_⟩
      rcases hd with ⟨he, hl⟩ | hlt
      · refine .inl ⟨he, fun k hk => ?_⟩
        rcases List.mem_cons.1 hk with rfl | hk
        · exact hrest
        · exact hl k hk
      · exact .inr hlt
    · rw [hst] at hc hv
      simp only at hc hv
      have hv₁ : r₁.plan.MemoValid r₁.progress.states memo₁ := by
        rw [hv, ← hc.plan]
        exact r₁.plan.emptyMemo_valid _
      obtain ⟨hv', hch, hd⟩ := ih hv₁
      have hlt := waiting_settled hc
      refine ⟨hv', .head ⟨_, rfl, hc⟩ hch, .inr ?_⟩
      rcases hd with ⟨he, _⟩ | hlt'
      · rw [he]
        exact hlt
      · exact Nat.lt_trans hlt' hlt

theorem sweep_spec (r : Run) (o : Outlook) :
    Changes (· = .settled o) r (r.sweep o) ∧
      (r.sweep o = r ∧ (∀ i < r.plan.size, r.Rests o i) ∨
        (r.sweep o).progress.waiting < r.progress.waiting) := by
  obtain ⟨_, hch, hd⟩ := foldl_settleNode_spec (o := o) r.indices
    (r.plan.emptyMemo_valid r.progress.states)
  refine ⟨hch, ?_⟩
  rw [sweep]
  simpa only [indices, List.mem_range] using hd

/-! ## Settling -/

theorem settle_chain (r : Run) (o : Outlook) : Changes (· = .settled o) r (r.settle o) := by
  fun_induction settle r o with
  | case1 r swept hlt ih => exact (sweep_spec r o).1.trans ih
  | case2 r swept hlt => exact (sweep_spec r o).1

theorem plan_settle (r : Run) (o : Outlook) : (r.settle o).plan = r.plan := (settle_chain r o).plan

/-- After settling no node has a reason to move. -/
theorem settle_rests (r : Run) (o : Outlook) {i : Nat} (hi : i < r.plan.size) :
    (r.settle o).Rests o i := by
  fun_induction settle r o with
  | case1 r swept hlt ih =>
    apply ih
    rw [(sweep_spec r o).1.plan]
    exact hi
  | case2 r swept hlt =>
    rcases (sweep_spec r o).2 with ⟨he, hr⟩ | h
    · change (r.sweep o).Rests o i
      rw [he]
      exact hr i hi
    · exact absurd h hlt

end Run

end Foreman
