import Mathlib.Data.Finset.Card
import Mathlib.Data.Finset.Range
import Foreman.Proofs.Run.History

/-!
# Where settling ends

Settling asks for the demand of nodes, notes what it finds, and forgets its notes when a node moves.
The notes are always right (`Noting.exact`): every question, also each that a search for an answer
puts on its way, is answered by the demand as the recursion defines it, and only one demand obeys
the recursion (`Plan.Obeys.eq`). So settling comes to what plain judgements come to
(`settleNode_eq_visit`), each node moves once at most (`changesOf_le`), and round after round the
run comes to rest, whether or not notes are kept from one round to the next (`exists_rounds`).
-/

namespace Foreman

/-! ## The recursion -/

namespace Plan

variable {p : Plan} {states : Array NodeState} {i : Nat} {n : PlannedNode}

def IsDependent (p : Plan) (d i : Nat) : Prop := ∃ n, p.nodes[i]? = some n ∧ d ∈ n.dependents

/-- The demand for each node is what the recursion along its dependents makes of theirs. -/
structure Obeys (p : Plan) (states : Array NodeState) (demand : Nat → Demand) : Prop where
  wanted : ∀ i n, p.nodes[i]? = some n → (demand i = .wanted ↔
    n.required = true ∨ (∃ f ∈ n.finalizes, ∃ st, states[f]? = some st ∧ st.executed = true) ∨
      ∃ d ∈ n.dependents, isSettled states d = false ∧ demand d = .wanted)
  pending : ∀ i n, p.nodes[i]? = some n → (demand i = .pending ↔ demand i ≠ .wanted ∧
    ((∃ f ∈ n.finalizes, ∃ st, states[f]? = some st ∧ st.isTerminal = false) ∨
      ∃ d ∈ n.dependents, isSettled states d = false ∧ demand d = .pending))
  absent : ∀ i, p.nodes[i]? = none → demand i = .unwanted

theorem Layered.wellFounded (hp : p.Layered) : WellFounded p.IsDependent := by
  obtain ⟨rank, hr⟩ := hp
  exact Subrelation.wf (fun ⟨n, hn, hd⟩ => hr.lt _ n hn _ hd) (measure rank).wf

theorem demandOf_obeys (hp : p.Layered) (states : Array NodeState) :
    p.Obeys states (p.demandOf states) where
  wanted i n hn := demandOf_eq_wanted_iff hp hn
  pending i n hn := by
    constructor
    · intro h
      exact ⟨by simp [h], (exists_of_pending hp hn h).2⟩
    · rintro ⟨hw, hopen⟩
      cases hd : p.demandOf states i with
      | wanted => exact absurd hd hw
      | pending => rfl
      | unwanted =>
        obtain ⟨-, hfinalizes, hdependents⟩ := (demandOf_eq_unwanted_iff hp hn).mp hd
        rcases hopen with ⟨f, hf, st, hst, hnot⟩ | ⟨d, hd, hsettled, hpending⟩
        · rw [(hfinalizes f hf st hst).1] at hnot
          cases hnot
        · rw [hdependents d hd hsettled] at hpending
          cases hpending
  absent i hn := by rw [demandOf, demand, hn]

/-- Only one demand obeys the recursion. -/
theorem Obeys.eq (hp : p.Layered) {demand : Nat → Demand} (h : p.Obeys states demand) (i : Nat) :
    demand i = p.demandOf states i := by
  have hrec := demandOf_obeys hp states
  induction i using hp.wellFounded.induction with
  | _ i ih =>
    cases hn : p.nodes[i]? with
    | none => rw [h.absent i hn, hrec.absent i hn]
    | some n =>
      have hwanted : demand i = .wanted ↔ p.demandOf states i = .wanted := by
        rw [h.wanted i n hn, hrec.wanted i n hn]
        refine or_congr_right (or_congr_right (exists_congr fun d => ?_))
        exact and_congr_right fun hd => by rw [ih d ⟨n, hn, hd⟩]
      have hpending : demand i = .pending ↔ p.demandOf states i = .pending := by
        rw [h.pending i n hn, hrec.pending i n hn, ne_eq, hwanted]
        refine and_congr_right fun _ => or_congr_right (exists_congr fun d => ?_)
        exact and_congr_right fun hd => by rw [ih d ⟨n, hn, hd⟩]
      cases hd : demand i <;> cases hd' : p.demandOf states i <;> simp_all

/-! ## Questions -/

/-- A question for the demand of a node: what is noted, and how far the search may still go. -/
structure Question where
  fuel : Nat
  node : Nat
  memo : Memo

def question (p : Plan) (i : Nat) (memo : Memo) : Question := ⟨p.size + 1, i, memo⟩

def answer (p : Plan) (states : Array NodeState) (q : Question) : Demand :=
  (p.demandMemo states q.fuel q.node q.memo).1

/-- The questions that are put to answer a question: itself, and without a note of it the questions
for the dependents, one after another, until one is wanted. -/
inductive Raises (p : Plan) (states : Array NodeState) : Question → Question → Prop
  | self (q : Question) : Raises p states q q
  | dependent {fuel i : Nat} {memo : Memo} {n : PlannedNode} {before after : List Nat} {d : Nat}
      {found : Demand} {memo' : Memo} {q : Question}
      (hnew : memo[i]?.join = none) (hn : p.nodes[i]? = some n) (hreq : n.required = false)
      (hdependents : n.dependents = before ++ d :: after)
      (hbefore : demandOfDependents states (p.demandMemo states fuel) before
        (demandOfFinalized states n) memo = (found, memo'))
      (hfound : found ≠ .wanted) (hopen : isSettled states d = false)
      (h : Raises p states ⟨fuel, d, memo'⟩ q) : Raises p states ⟨fuel + 1, i, memo⟩ q

/-- The notes at hand are right, and the search cannot end too early. -/
def Question.Fair (p : Plan) (states : Array NodeState) (q : Question) : Prop :=
  p.MemoValid states q.memo ∧ ∀ rank, p.RankedBy rank → rank q.node < q.fuel

theorem question_fair {memo : Memo} (hm : p.MemoValid states memo) (i : Nat) :
    (p.question i memo).Fair p states :=
  ⟨hm, fun _ hr => Nat.lt_succ_of_le (hr.le_size i)⟩

theorem Raises.fair {q q' : Question} (h : p.Raises states q q') (hq : q.Fair p states) :
    q'.Fair p states := by
  induction h with
  | self q => exact hq
  | @dependent fuel i memo n before after d found memo' q hnew hn hreq hdependents hbefore _
      _ _ ih =>
    obtain ⟨hm, hfuel⟩ := hq
    have hrank (c : Nat) (hc : c ∈ n.dependents) (rank : Nat → Nat) (hr : p.RankedBy rank) :
        rank c < fuel := by
      have := hr.lt i n hn c hc
      have := hfuel rank hr
      dsimp only at this
      omega
    have hask (c : Nat) (hc : c ∈ before) (memo : Memo) (hm : p.MemoValid states memo) :
        p.MemoValid states (p.demandMemo states fuel c memo).2 ∧
          (p.Layered → (p.demandMemo states fuel c memo).1 = p.demandOf states c) := by
      have hc : c ∈ n.dependents := by simp [hdependents, hc]
      obtain ⟨hv, ha⟩ := demandMemo_spec hm (hrank c hc)
      refine ⟨hv, fun ⟨rank, hr⟩ => ?_⟩
      have := hrank c hc rank hr
      exact (ha (by omega)).exact ⟨rank, hr⟩
    have hmemo := (demandOfDependents_spec hask (demandOfFinalized states n) hm).1
    rw [hbefore] at hmemo
    exact ih ⟨hmemo, hrank d (by simp [hdependents])⟩

theorem Question.Fair.exact (hp : p.Layered) {q : Question} (h : q.Fair p states) :
    p.answer states q = p.demandOf states q.node := by
  obtain ⟨rank, hr⟩ := hp
  have hfuel := h.2 rank hr
  exact ((demandMemo_spec h.1 h.2).2 (by omega)).exact ⟨rank, hr⟩

end Plan

/-! ## Plain judgements -/

namespace Run

variable {r r' : Run} {o : Outlook} {i : Nat} {n : PlannedNode} {memo : Plan.Memo}

/-- The nodes that only come first in order let a node go on, by the demand for them. -/
def orderLets (r : Run) (o : Outlook) (ps : List Nat) : Bool :=
  ps.all fun p => r.progress.isDone p ||
    (o.relaxed && r.plan.demandOf r.progress.states p = .pending)

/-- The next state of a scheduled node, if it can move, by the demand for it. -/
def judge (r : Run) (o : Outlook) (i : Nat) (n : PlannedNode) : Option NodeState :=
  if o.stop then some .skipped
  else if r.plan.demandOf r.progress.states i = .unwanted then some .mustNotRun
  else if n.dependencies.any r.progress.blocks then some .skipped
  else if r.plan.demandOf r.progress.states i = .pending then none
  else if n.dependencies.all r.progress.satisfies && n.finalizes.all r.progress.isDone then
    if r.orderLets o n.runAfter && n.afterExports.all (isPublished o) then some .ready else none
  else none

theorem orderDone_eq (hp : r.plan.Layered) (hm : r.plan.MemoValid r.progress.states memo)
    (ps : List Nat) : (r.orderDone o ps memo).1 = r.orderLets o ps := by
  induction ps generalizing memo with
  | nil => rfl
  | cons p ps ih =>
    rw [orderDone, orderLets, List.all_cons, ← orderLets]
    cases r.progress.isDone p with
    | true => simpa using ih hm
    | false =>
      cases o.relaxed with
      | false => simp
      | true =>
        obtain ⟨hv, hd⟩ := Plan.demandMemo_demands (i := p) hm
        have hd := hd.exact hp
        by_cases hpending : r.plan.demandOf r.progress.states p = .pending
        · simpa [hd, hpending] using ih hv
        · simp [hd, hpending]

/-- Right notes do not show in a judgement. -/
theorem advance_eq_judge (hp : r.plan.Layered) (hm : r.plan.MemoValid r.progress.states memo)
    (o : Outlook) (i : Nat) (n : PlannedNode) : (r.advance o i n memo).1 = r.judge o i n := by
  obtain ⟨hv, hd⟩ := Plan.demandMemo_demands (i := i) hm
  have hd := hd.exact hp
  have horder := orderDone_eq (o := o) hp hv n.runAfter
  unfold advance judge
  split
  · rfl
  dsimp only
  rw [hd]
  split
  · rfl
  split
  · rfl
  split
  · rfl
  split
  · simp only [horder]
  · rfl

theorem Held.judge_eq_none (h : r.Held o i n) : r.judge o i n = none := by
  have hnot : ¬ n.dependencies.any r.progress.blocks = true := by
    simpa using h.dependencies
  have hrelaxed (p : Nat) (hdone : r.progress.isDone p = false)
      (hknown : o.relaxed = true → r.plan.demandOf r.progress.states p ≠ .pending) :
      ¬ (r.progress.isDone p ||
        (o.relaxed && r.plan.demandOf r.progress.states p = .pending)) = true := by
    rw [hdone, Bool.false_or, Bool.and_eq_true, decide_eq_true_eq]
    exact fun hopen => hknown hopen.1 hopen.2
  unfold judge
  rw [if_neg (by simp [h.stop])]
  rcases h.reason with hpending | ⟨hwanted, hwaits⟩
  · rw [if_neg (by simp [hpending]), if_neg hnot, if_pos hpending]
  rw [if_neg (by simp [hwanted]), if_neg hnot, if_neg (by simp [hwanted])]
  rcases hwaits with ⟨d, hd, hopen⟩ | ⟨f, hf, hopen⟩ | ⟨p, hp, hdone, hknown⟩ | ⟨e, he, hopen⟩
  · rw [if_neg]
    simp only [Bool.and_eq_true, List.all_eq_true, not_and]
    exact fun hall => absurd (hall d hd) (by simp [hopen])
  · rw [if_neg]
    simp only [Bool.and_eq_true, List.all_eq_true, not_and]
    exact fun _ hall => absurd (hall f hf) (by simp [hopen])
  · split
    · rw [if_neg]
      simp only [orderLets, Bool.and_eq_true (List.all _ _), List.all_eq_true, not_and]
      exact fun hall => absurd (hall p hp) (hrelaxed p hdone hknown)
    · rfl
  · split
    · rw [if_neg]
      simp only [Bool.and_eq_true, List.all_eq_true, not_and]
      exact fun _ hall => absurd (hall e he) (by simp [hopen])
    · rfl

/-- Where a node moves to. -/
theorem cases_of_judge {new : NodeState} (h : r.judge o i n = some new) :
    o.stop = true ∧ new = .skipped ∨
      o.stop = false ∧ (new = .ready ∨ new = .skipped ∨ new = .mustNotRun) := by
  unfold judge at h
  split at h
  · next hs => exact .inl ⟨hs, (Option.some.inj h).symm⟩
  · next hs =>
    refine .inr ⟨by simpa using hs, ?_⟩
    repeat' split at h
    all_goals simp_all

/-! ## Visits -/

def visit (r : Run) (o : Outlook) (i : Nat) : Run :=
  match r.progress.state? i, r.plan.nodes[i]? with
  | some .ready, some _ => if o.stop then r.moveAndPublish i .skipped else r
  | some .scheduled, some n =>
    match r.judge o i n with
    | some new => r.moveAndPublish i new
    | none => r
  | _, _ => r

theorem settleNode_eq_visit (hp : r.plan.Layered) (hm : r.plan.MemoValid r.progress.states memo)
    (o : Outlook) (i : Nat) : (settleNode o (r, memo) i).1 = r.visit o i := by
  rw [settleNode, visit]
  cases r.progress.state? i with
  | none => simp only
  | some st =>
    cases r.plan.nodes[i]? with
    | none => cases st <;> simp only
    | some n =>
      cases st with
      | ready =>
        simp only
        split <;> rfl
      | scheduled =>
        simp only
        rw [← advance_eq_judge hp hm o i n]
        generalize r.advance o i n memo = judged
        obtain ⟨new, memo'⟩ := judged
        cases new <;> rfl
      | _ => simp only

/-- A node that this settling can still move. -/
def Stirs (r : Run) (o : Outlook) (i : Nat) : Prop :=
  r.progress.state? i = some .scheduled ∨ o.stop = true ∧ r.progress.state? i = some .ready

instance (r : Run) (o : Outlook) (i : Nat) : Decidable (r.Stirs o i) :=
  inferInstanceAs (Decidable (_ ∨ _ ∧ _))

/-- A node moves, and is done with; nothing else changes. -/
structure Calmed (r r' : Run) (o : Outlook) (i : Nat) : Prop where
  plan : r'.plan = r.plan
  planned : i < r.plan.size
  before : r.Stirs o i
  after : ¬ r'.Stirs o i
  others : ∀ k ≠ i, r'.progress.state? k = r.progress.state? k

theorem Calmed.stirs_iff (h : Calmed r r' o i) {k : Nat} (hk : k ≠ i) :
    r'.Stirs o k ↔ r.Stirs o k := by
  unfold Stirs
  rw [h.others k hk]

theorem calmed_of_moved {old new : NodeState} (h : Moved r r' i old new) (hi : i < r.plan.size)
    (hbefore : r.Stirs o i) (hnew : new ≠ .scheduled ∧ (o.stop = true → new ≠ .ready)) :
    Calmed r r' o i where
  plan := h.plan
  planned := hi
  before := hbefore
  after := by
    unfold Stirs
    rw [h.after, if_pos rfl, Option.some.injEq, Option.some.injEq]
    rintro (hs | ⟨hstop, hs⟩)
    · exact hnew.1 hs
    · exact hnew.2 hstop hs
  others k hk := by rw [h.after, if_neg hk]

theorem visit_cases (r : Run) (o : Outlook) (i : Nat) :
    r.visit o i = r ∨ Calmed r (r.visit o i) o i := by
  unfold visit
  split
  · next n hs hn =>
    split
    · next hstop =>
      have hi : i < r.plan.size := (Array.getElem?_eq_some_iff.mp hn).1
      exact .inr (calmed_of_moved (moved_moveAndPublish hs (by simp [NodeState.moves])) hi
        (.inr ⟨hstop, hs⟩) (by simp))
    · exact .inl rfl
  · next n hs hn =>
    have hi : i < r.plan.size := (Array.getElem?_eq_some_iff.mp hn).1
    split
    · next new hnew =>
      have hto := cases_of_judge hnew
      have hmoves : new ∈ NodeState.scheduled.moves := by
        rcases hto with ⟨-, rfl⟩ | ⟨-, rfl | rfl | rfl⟩ <;> simp [NodeState.moves]
      refine .inr (calmed_of_moved (moved_moveAndPublish hs hmoves) hi (.inl hs) ?_)
      rcases hto with ⟨-, rfl⟩ | ⟨hstop, rfl | rfl | rfl⟩ <;> simp_all
    · exact .inl rfl
  · exact .inl rfl

/-- What a visit does, whatever right notes there are. -/
theorem settleNode_cases (hp : r.plan.Layered) (hm : r.plan.MemoValid r.progress.states memo)
    (o : Outlook) (i : Nat) :
    (settleNode o (r, memo) i).1.plan.MemoValid (settleNode o (r, memo) i).1.progress.states
        (settleNode o (r, memo) i).2 ∧
      ((settleNode o (r, memo) i).1 = r ∨ Calmed r (settleNode o (r, memo) i).1 o i) := by
  constructor
  · rcases settleNode_spec (o := o) hm i with ⟨hsame, hv, -⟩ | ⟨hc, hempty⟩
    · rw [hsame]
      exact hv
    · rw [hempty, ← hc.plan]
      exact Plan.emptyMemo_valid _ _
  · rw [settleNode_eq_visit hp hm]
    exact visit_cases r o i

/-! ## Visit after visit -/

/-- What a run and its notes become by visits, and by questions between them: a visit that judges a
node asks for it and for the nodes before it in order. -/
inductive Noting (r : Run) (o : Outlook) : Run × Plan.Memo → Prop
  | start : Noting r o (r, r.plan.emptyMemo)
  | visit {s : Run × Plan.Memo} (h : Noting r o s) (i : Nat) : Noting r o (settleNode o s i)
  | ask {r' : Run} {memo : Plan.Memo} (h : Noting r o (r', memo)) (i : Nat) :
      Noting r o (r', (r'.plan.demandMemo r'.progress.states (r'.plan.size + 1) i memo).2)

/-- The plan stays, and the notes are right. -/
theorem Noting.valid (hp : r.plan.Layered) {s : Run × Plan.Memo} (h : r.Noting o s) :
    s.1.plan = r.plan ∧ s.1.plan.MemoValid s.1.progress.states s.2 := by
  induction h with
  | start => exact ⟨rfl, r.plan.emptyMemo_valid r.progress.states⟩
  | visit _ i ih =>
    obtain ⟨hplan, hm⟩ := ih
    obtain ⟨hv, hstep⟩ := settleNode_cases (hplan.symm ▸ hp) hm o i
    refine ⟨?_, hv⟩
    rcases hstep with hsame | hcalmed
    · rw [hsame, hplan]
    · rw [hcalmed.plan, hplan]
  | ask _ i ih => exact ⟨ih.1, (Plan.demandMemo_demands ih.2).1⟩

/-- The questions for the nodes that come first in order are among those between two visits. -/
theorem Noting.orderDone (h : r.Noting o (r', memo)) (ps : List Nat) :
    r.Noting o (r', (r'.orderDone o ps memo).2) := by
  induction ps generalizing memo with
  | nil => exact h
  | cons p ps ih =>
    rw [Run.orderDone]
    split
    · exact ih h
    split
    · dsimp only
      split
      · exact ih (h.ask p)
      · exact h.ask p
    · exact h

/-- Whatever is found is the demand as it is at that moment. -/
theorem Noting.exact (hp : r.plan.Layered) (h : r.Noting o (r', memo)) (i : Nat) {q : Plan.Question}
    (hq : r'.plan.Raises r'.progress.states (r'.plan.question i memo) q) :
    r'.plan.answer r'.progress.states q = r'.plan.demandOf r'.progress.states q.node := by
  obtain ⟨hplan, hm⟩ := h.valid hp
  exact (hq.fair (Plan.question_fair hm i)).exact (hplan.symm ▸ hp)

/-- How often a node changes its state in visits to some nodes. -/
def changesOf (o : Outlook) (k : Nat) : Run × Plan.Memo → List Nat → Nat
  | _, [] => 0
  | s, i :: is =>
    (if (settleNode o s i).1.progress.state? k = s.1.progress.state? k then 0 else 1) +
      changesOf o k (settleNode o s i) is

/-- A node moves only while it stirs, and then once. -/
theorem changesOf_le (hp : r.plan.Layered) (hm : r.plan.MemoValid r.progress.states memo)
    (o : Outlook)
    (k : Nat) (is : List Nat) : changesOf o k (r, memo) is ≤ if r.Stirs o k then 1 else 0 := by
  induction is generalizing r memo with
  | nil => exact Nat.zero_le _
  | cons i is ih =>
    obtain ⟨hv, hstep⟩ := settleNode_cases hp hm o i
    rw [changesOf]
    generalize settleNode o (r, memo) i = next at hv hstep
    obtain ⟨r₁, memo₁⟩ := next
    dsimp only at hv hstep ⊢
    rcases hstep with rfl | hcalmed
    · rw [if_pos rfl, Nat.zero_add]
      exact ih hp hv
    · have hrest := ih (hcalmed.plan.symm ▸ hp) hv
      by_cases hk : k = i
      · subst hk
        rw [if_neg hcalmed.after] at hrest
        rw [if_pos hcalmed.before]
        split <;> omega
      · have hstate := hcalmed.others k hk
        rw [if_pos hstate, Nat.zero_add]
        simpa only [hcalmed.stirs_iff hk] using hrest

/-! ## Round after round -/

def stirring (r : Run) (o : Outlook) : Finset Nat := (Finset.range r.plan.size).filter (r.Stirs o)

theorem Calmed.stirring_ssubset (h : Calmed r r' o i) : r'.stirring o ⊂ r.stirring o := by
  have hmem (k : Nat) (hk : k ∈ r'.stirring o) : k ∈ r.stirring o ∧ k ≠ i := by
    rw [stirring, Finset.mem_filter, Finset.mem_range, h.plan] at hk
    obtain ⟨hsize, hstirs⟩ := hk
    have hki : k ≠ i := fun heq => h.after (heq ▸ hstirs)
    refine ⟨?_, hki⟩
    rw [stirring, Finset.mem_filter, Finset.mem_range]
    refine ⟨hsize, ?_⟩
    exact (h.stirs_iff hki).mp hstirs
  rw [Finset.ssubset_iff_of_subset fun k hk => (hmem k hk).1]
  refine ⟨i, ?_, fun hi => (hmem i hi).2 rfl⟩
  rw [stirring, Finset.mem_filter, Finset.mem_range]
  exact ⟨h.planned, h.before⟩

def rounds (r : Run) (k : Nat) : List Nat := (List.replicate k r.indices).flatten

/-- What visits come to does not depend on the notes at hand, and if anything changes, less
stirs. -/
theorem foldl_settleNode_calms (hp : r.plan.Layered) (hm : r.plan.MemoValid r.progress.states memo)
    (o : Outlook) (is : List Nat) :
    (is.foldl (settleNode o) (r, memo)).1 = is.foldl (·.visit o ·) r ∧
      (is.foldl (settleNode o) (r, memo)).1.plan = r.plan ∧
      r.plan.MemoValid (is.foldl (settleNode o) (r, memo)).1.progress.states
        (is.foldl (settleNode o) (r, memo)).2 ∧
      ((is.foldl (settleNode o) (r, memo)).1 = r ∨
        (is.foldl (settleNode o) (r, memo)).1.stirring o ⊂ r.stirring o) := by
  induction is generalizing r memo with
  | nil => exact ⟨rfl, rfl, hm, .inl rfl⟩
  | cons i is ih =>
    obtain ⟨hv, hstep⟩ := settleNode_cases hp hm o i
    have hvisit := settleNode_eq_visit hp hm o i
    rw [List.foldl_cons, List.foldl_cons, ← hvisit]
    generalize settleNode o (r, memo) i = next at hv hstep
    obtain ⟨r₁, memo₁⟩ := next
    dsimp only at hv hstep ⊢
    rcases hstep with rfl | hcalmed
    · exact ih hp hv
    · obtain ⟨hrun, hplan, hvalid, hcalm⟩ := ih (hcalmed.plan.symm ▸ hp) hv
      rw [hcalmed.plan] at hplan hvalid
      refine ⟨hrun, hplan, hvalid, .inr ?_⟩
      rcases hcalm with hsame | hless
      · rw [hsame]
        exact hcalmed.stirring_ssubset
      · exact hless.trans hcalmed.stirring_ssubset

/-- Rounds that keep their notes come to what sweeps come to, which forget them. -/
theorem foldl_rounds (hp : r.plan.Layered) (hm : r.plan.MemoValid r.progress.states memo)
    (o : Outlook) (k : Nat) :
    ((r.rounds k).foldl (settleNode o) (r, memo)).1 = (fun r : Run => r.sweep o)^[k] r := by
  induction k generalizing r memo with
  | zero => rfl
  | succ k ih =>
    obtain ⟨hrun, hplan, hvalid, -⟩ := foldl_settleNode_calms hp hm o r.indices
    obtain ⟨hsweep, -⟩ := foldl_settleNode_calms hp (r.plan.emptyMemo_valid r.progress.states) o
      r.indices
    rw [rounds, List.replicate_succ, List.flatten_cons, List.foldl_append, ← rounds,
      Function.iterate_succ_apply, sweep, hsweep, ← hrun]
    generalize r.indices.foldl (settleNode o) (r, memo) = next at hplan hvalid
    obtain ⟨r₁, memo₁⟩ := next
    dsimp only at hplan hvalid ⊢
    rw [← hplan] at hp hvalid
    have hrounds : r.rounds k = r₁.rounds k := by rw [rounds, rounds, indices, indices, hplan]
    rw [hrounds]
    exact ih hp hvalid

/-- Sweep after sweep changes something, until one does not: then the run is settled. -/
theorem exists_sweeps (hp : r.plan.Layered) (o : Outlook) : ∃ k ≤ (r.stirring o).card,
    (∀ j < k, (fun r : Run => r.sweep o)^[j + 1] r ≠ (fun r : Run => r.sweep o)^[j] r) ∧
      (r.settle o).sweep o = r.settle o ∧ (fun r : Run => r.sweep o)^[k] r = r.settle o := by
  fun_induction settle r o with
  | case1 r swept hlt ih =>
    obtain ⟨-, -, -, hcalm⟩ :=
      foldl_settleNode_calms hp (r.plan.emptyMemo_valid r.progress.states) o r.indices
    have hmoved : swept ≠ r := fun hsame => by
      rw [hsame] at hlt
      exact Nat.lt_irrefl _ hlt
    have hless : swept.stirring o ⊂ r.stirring o := hcalm.resolve_left hmoved
    obtain ⟨k, hk, hmoves, hrest, hsettled⟩ := ih ((sweep_spec r o).1.plan.symm ▸ hp)
    refine ⟨k + 1, Nat.lt_of_le_of_lt hk (Finset.card_lt_card hless), fun j hj => ?_, hrest,
      hsettled⟩
    cases j with
    | zero => exact hmoved
    | succ j => exact hmoves j (Nat.lt_of_succ_lt_succ hj)
  | case2 r swept hlt =>
    have hsame : swept = r := ((sweep_spec r o).2.resolve_right hlt).1
    refine ⟨0, Nat.zero_le _, fun j hj => absurd hj (Nat.not_lt_zero j), ?_, hsame.symm⟩
    rw [hsame]
    exact hsame

/-- Settling is rounds of visits, no more than there are nodes, until one changes nothing. -/
theorem exists_rounds (hp : r.plan.Layered) (hm : r.plan.MemoValid r.progress.states memo)
    (o : Outlook) :
    ∃ k ≤ r.plan.size,
      (∀ j < k, ((r.rounds (j + 1)).foldl (settleNode o) (r, memo)).1 ≠
        ((r.rounds j).foldl (settleNode o) (r, memo)).1) ∧
      ((r.rounds (k + 1)).foldl (settleNode o) (r, memo)).1 =
        ((r.rounds k).foldl (settleNode o) (r, memo)).1 ∧
      ((r.rounds k).foldl (settleNode o) (r, memo)).1 = r.settle o := by
  obtain ⟨k, hk, hmoves, hrest, hsettled⟩ := exists_sweeps hp o
  simp only [foldl_rounds hp hm]
  refine ⟨k, hk.trans ?_, hmoves, ?_, hsettled⟩
  · exact (Finset.card_filter_le _ _).trans_eq (Finset.card_range _)
  · rw [Function.iterate_succ_apply', hsettled, hrest]

/-! ## At rest -/

/-- No node is left to move. -/
structure AtRest (r : Run) (o : Outlook) : Prop where
  stopped : o.stop = true → ∀ i < r.plan.size,
    r.progress.state? i ≠ some .scheduled ∧ r.progress.state? i ≠ some .ready
  waiting : o.stop = false → ∀ i n, r.plan.nodes[i]? = some n →
    r.progress.state? i = some .scheduled →
    ∀ memo, r.plan.MemoValid r.progress.states memo → (r.advance o i n memo).1 = none

theorem settle_atRest (hp : r.plan.Layered) (o : Outlook) : (r.settle o).AtRest o := by
  have hplan := plan_settle r o
  have hrests (i : Nat) (n : PlannedNode) (hn : (r.settle o).plan.nodes[i]? = some n) :
      (r.settle o).Rests o i := by
    rw [hplan] at hn
    exact settle_rests r o (Array.getElem?_eq_some_iff.mp hn).1
  have hp : (r.settle o).plan.Layered := hplan.symm ▸ hp
  constructor
  · intro hstop i hi
    have hn : (r.settle o).plan.nodes[i]? = some _ := Array.getElem?_eq_getElem hi
    constructor
    · intro hs
      have hheld := (hrests i _ hn).scheduled _ hn hs hp
      exact absurd hheld.stop (by simp [hstop])
    · intro hs
      have hgo := (hrests i _ hn).ready (by simp [hn]) hs
      exact absurd hgo (by simp [hstop])
  · intro _ i n hn hs memo hm
    rw [advance_eq_judge hp hm]
    exact ((hrests i n hn).scheduled n hn hs hp).judge_eq_none

/-- What settling does: it asks for a demand that is well defined, finds it whatever it has noted,
and moves each node once at most until none can move. -/
structure Settles (r : Run) (o : Outlook) : Prop where
  wellFounded : WellFounded r.plan.IsDependent
  obeys_iff : ∀ states demand, r.plan.Obeys states demand ↔ demand = r.plan.demandOf states
  exact : ∀ r' memo, r.Noting o (r', memo) → r'.plan = r.plan ∧
    (∀ i q, r'.plan.Raises r'.progress.states (r'.plan.question i memo) q →
      r'.plan.answer r'.progress.states q = r'.plan.demandOf r'.progress.states q.node) ∧
    ∀ i, (settleNode o (r', memo) i).1 = r'.visit o i
  order : ∀ r' memo ps, r.Noting o (r', memo) → r.Noting o (r', (r'.orderDone o ps memo).2)
  once : ∀ k is, changesOf o k (r, r.plan.emptyMemo) is ≤ 1
  rounds : ∃ k ≤ r.plan.size,
    (∀ j < k, ((r.rounds (j + 1)).foldl (settleNode o) (r, r.plan.emptyMemo)).1 ≠
      ((r.rounds j).foldl (settleNode o) (r, r.plan.emptyMemo)).1) ∧
    ((r.rounds (k + 1)).foldl (settleNode o) (r, r.plan.emptyMemo)).1 =
      ((r.rounds k).foldl (settleNode o) (r, r.plan.emptyMemo)).1 ∧
    ((r.rounds k).foldl (settleNode o) (r, r.plan.emptyMemo)).1 = r.settle o
  atRest : (r.settle o).AtRest o

theorem settles (hp : r.plan.Layered) (o : Outlook) : r.Settles o := by
  have hm := r.plan.emptyMemo_valid r.progress.states
  constructor
  case wellFounded => exact hp.wellFounded
  case obeys_iff =>
    intro states demand
    constructor
    · exact fun h => funext (h.eq hp)
    · rintro rfl
      exact Plan.demandOf_obeys hp states
  case exact =>
    intro r' memo h
    obtain ⟨hplan, hvalid⟩ := h.valid hp
    exact ⟨hplan, h.exact hp, settleNode_eq_visit (hplan.symm ▸ hp) hvalid o⟩
  case order => exact fun r' memo ps h => h.orderDone ps
  case once =>
    intro k is
    refine (changesOf_le hp hm o k is).trans ?_
    split <;> omega
  case rounds => exact exists_rounds hp hm o
  case atRest => exact settle_atRest hp o

end Run

end Foreman
