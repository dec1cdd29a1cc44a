import Foreman.Proofs.Run.Choosing

/-!
# Standstill

Where nothing can move in strict order a selection relaxes it, and lets a node overtake others of
which it is open whether they will be needed (`Run.LetsPass`). Which nodes are needed, and what they
wait for, depends on the nodes that are over alone (`SameEnds.demandOf`). So no node comes to its
turn by what a selection does: until the next node ends, the run stands still (`Standstill.select`).
-/

namespace Foreman

def NodeState.ended? (st : NodeState) : Option NodeState := if st.isTerminal then some st else none

theorem NodeState.ended?_eq_some_iff {st st' : NodeState} :
    st.ended? = some st' ↔ st = st' ∧ st'.isTerminal = true := by
  rw [ended?]
  split
  · rename_i hst
    rw [Option.some.injEq]
    exact ⟨fun he => ⟨he, he ▸ hst⟩, And.left⟩
  · rename_i hst
    exact iff_of_false (by simp) fun he => hst (he.1 ▸ he.2)

theorem Plan.isSettled_eq_all (states : Array NodeState) (k : Nat) :
    isSettled states k = ((states[k]?).map NodeState.ended?).all Option.isSome := by
  rw [isSettled]
  cases states[k]? with
  | none => rfl
  | some st => cases st <;> rfl

/-- What a node wants of its finalizer hinges on how it ended. -/
theorem Demand.ofFinalized_congr {s s' : Option NodeState}
    (he : s'.map NodeState.ended? = s.map NodeState.ended?) : ofFinalized s' = ofFinalized s := by
  cases s' with
  | none =>
    cases s with
    | none => rfl
    | some st => cases he
  | some st' =>
    cases s with
    | none => cases he
    | some st =>
      simp only [Option.map_some, Option.some.injEq, NodeState.ended?] at he
      cases st' <;> cases st <;> first | rfl | cases he

namespace Run

variable {r r' r₁ : Run} {c : Cause} {o : Outlook} {i k q : Nat} {n : PlannedNode}
  {old new st : NodeState} {foreign : Foreign} {locks : ProjectLocks} {worker : Worker}
  {table table' : LockTable}

/-! ## What depends on the ends alone -/

/-- In two runs of one plan the same nodes are over, in the same states, with the same failures
ignored. -/
structure SameEnds (r r' : Run) : Prop where
  plan : r'.plan = r.plan
  ended : ∀ k, (r'.progress.state? k).map NodeState.ended? =
    (r.progress.state? k).map NodeState.ended?
  tolerated : ∀ k, r.progress.isDone k = true →
    (k ∈ r'.progress.tolerated ↔ k ∈ r.progress.tolerated)

namespace SameEnds

theorem refl (r : Run) : r.SameEnds r := ⟨rfl, fun _ => rfl, fun _ _ => .rfl⟩

variable (h : r.SameEnds r')
include h

theorem state?_iff (hst : st.isTerminal = true) (k : Nat) :
    r'.progress.state? k = some st ↔ r.progress.state? k = some st := by
  have hover : ∀ s : Option NodeState, s = some st ↔ s.map NodeState.ended? = some (some st) := by
    intro s
    rw [Option.map_eq_some_iff]
    constructor
    · rintro rfl
      exact ⟨st, rfl, NodeState.ended?_eq_some_iff.2 ⟨rfl, hst⟩⟩
    · rintro ⟨st', rfl, he⟩
      rw [(NodeState.ended?_eq_some_iff.1 he).1]
  rw [hover, hover, h.ended]

theorem isDone (k : Nat) : r'.progress.isDone k = r.progress.isDone k := by
  rw [Bool.eq_iff_iff, Progress.isDone_iff, Progress.isDone_iff]
  constructor
  · rintro ⟨st, hk, hst⟩
    exact ⟨st, (h.state?_iff hst k).1 hk, hst⟩
  · rintro ⟨st, hk, hst⟩
    exact ⟨st, (h.state?_iff hst k).2 hk, hst⟩

theorem tolerated_iff (hk : r.progress.state? k = some .failed) :
    k ∈ r'.progress.tolerated ↔ k ∈ r.progress.tolerated :=
  h.tolerated k (Progress.isDone_iff.2 ⟨_, hk, rfl⟩)

theorem satisfies (k : Nat) : r'.progress.satisfies k = r.progress.satisfies k := by
  rw [Bool.eq_iff_iff, Progress.satisfies_iff, Progress.satisfies_iff, h.state?_iff rfl,
    h.state?_iff rfl]
  exact or_congr_right (and_congr_right fun hk => h.tolerated_iff hk)

theorem blocks (k : Nat) : r'.progress.blocks k = r.progress.blocks k := by
  rw [Bool.eq_iff_iff, Progress.blocks_iff, Progress.blocks_iff, h.state?_iff rfl, h.state?_iff rfl,
    h.state?_iff rfl]
  exact or_congr_right (or_congr_right (and_congr_right fun hk => not_congr (h.tolerated_iff hk)))

theorem demand (fuel i : Nat) :
    r'.plan.demand r'.progress.states fuel i = r.plan.demand r.progress.states fuel i := by
  have hended : ∀ k : Nat, (r'.progress.states[k]?).map NodeState.ended? =
      (r.progress.states[k]?).map NodeState.ended? := h.ended
  rw [h.plan]
  induction fuel generalizing i with
  | zero => rfl
  | succ fuel ih =>
    cases hn : r.plan.nodes[i]? with
    | none => simp [Plan.demand, hn]
    | some n =>
      have hfinal : Plan.demandOfFinalized r'.progress.states n =
          Plan.demandOfFinalized r.progress.states n :=
        List.foldl_ext _ _ _ fun d f _ => by rw [Demand.ofFinalized_congr (hended f)]
      rw [Plan.demand_succ hn, Plan.demand_succ hn, hfinal]
      simp only [Plan.isSettled_eq_all, hended, ih]

theorem demandOf (i : Nat) :
    r'.plan.demandOf r'.progress.states i = r.plan.demandOf r.progress.states i := by
  rw [Plan.demandOf, Plan.demandOf, h.demand, h.plan]

theorem trans {r'' : Run} (h' : r'.SameEnds r'') : r.SameEnds r'' where
  plan := h'.plan.trans h.plan
  ended k := (h'.ended k).trans (h.ended k)
  tolerated k hk := (h'.tolerated k (h.isDone k ▸ hk)).trans (h.tolerated k hk)

/-- What holds a node goes on to hold it. -/
theorem held (hh : r.Held o i n) : r'.Held o i n where
  stop := hh.stop
  dependencies d hd := (h.blocks d).trans (hh.dependencies d hd)
  reason := by
    simp only [h.demandOf, h.satisfies, h.isDone]
    exact hh.reason

end SameEnds

/-- A node that moves without coming to its end leaves the ends as they are. -/
theorem Moved.sameEnds (h : Moved r r' i old new) (hnew : new.isTerminal = false) :
    r.SameEnds r' where
  plan := h.plan
  ended k := by
    rw [h.after]
    split
    · rename_i hk
      rw [hk, h.before]
      simp [NodeState.ended?, hnew, h.not_isTerminal]
    · rfl
  tolerated k hk := h.tolerated k (h.ne_of_isDone hk)

/-! ## Standing still -/

/-- A waiting node whose turn it is: it was judged free to run or is wanted, its dependencies let it
run, and the nodes that it finalizes and those that come first in order are over. -/
structure InTurn (r : Run) (i : Nat) (n : PlannedNode) : Prop where
  node : r.plan.nodes[i]? = some n
  waits : r.progress.state? i = some .ready ∨
    r.progress.state? i = some .scheduled ∧ r.plan.demandOf r.progress.states i = .wanted
  dependencies : ∀ d ∈ n.dependencies, r.progress.satisfies d = true
  finalizes : ∀ f ∈ n.finalizes, r.progress.isDone f = true
  runAfter : ∀ q ∈ n.runAfter, r.progress.isDone q = true

/-- In strict order no waiting node would move, and those that are free to run overtake others. -/
structure Standstill (r : Run) : Prop where
  scheduled : ∀ i n foreign, r.progress.state? i = some .scheduled → r.plan.nodes[i]? = some n →
    r.Held ⟨false, false, foreign⟩ i n
  ready : ∀ i n, r.progress.state? i = some .ready → r.plan.nodes[i]? = some n →
    ∃ q ∈ n.runAfter, r.progress.isDone q = false

theorem Standstill.not_inTurn (h : r.Standstill) (hl : r.plan.Local) : ¬ r.InTurn i n := by
  intro ht
  rcases ht.waits with hready | ⟨hsched, hwanted⟩
  · obtain ⟨q, hq, hopen⟩ := h.ready i n hready ht.node
    rw [ht.runAfter q hq] at hopen
    cases hopen
  · rcases (h.scheduled i n (fun _ _ => none) hsched ht.node).reason with
      hpend | ⟨-, ⟨d, hd, hno⟩ | ⟨f, hf, hno⟩ | ⟨q, hq, hno, -⟩ | ⟨e, he, -⟩⟩
    · rw [hwanted] at hpend
      cases hpend
    · rw [ht.dependencies d hd] at hno
      cases hno
    · rw [ht.finalizes f hf] at hno
      cases hno
    · rw [ht.runAfter q hq] at hno
      cases hno
    · rw [hl.afterExports i n ht.node] at he
      cases he

/-- A run in which nothing moves in strict order stands still. -/
theorem Stuck.standstill (h : r.Stuck ⟨false, false, foreign⟩) (hl : r.plan.Local) :
    r.Standstill where
  scheduled i n foreign' hs hn := by
    have hh := h.held i n hs hn
    refine { hh with reason := hh.reason.imp id (And.imp id fun hr => ?_) }
    rcases hr with hr | hr | hr | ⟨e, he, -⟩
    · exact .inl hr
    · exact .inr (.inl hr)
    · exact .inr (.inr (.inl hr))
    · rw [hl.afterExports i n hn] at he
      cases he
  ready i n hs _ := by
    cases h.ended i _ hs (by decide)

/-- A run goes on standing still when a node moves on that waits for its order if it is ready
now. -/
theorem Standstill.moved (h : r.Standstill) (hm : Moved r r' i old new)
    (hterm : new.isTerminal = false) (hsched : new ≠ .scheduled)
    (hready : ∀ n, r.plan.nodes[i]? = some n → new = .ready →
      ∃ q ∈ n.runAfter, r.progress.isDone q = false) : r'.Standstill := by
  have he := hm.sameEnds hterm
  refine ⟨fun k m foreign hk hn => ?_, fun k m hk hn => ?_⟩
  · rw [hm.plan] at hn
    rw [hm.after] at hk
    split at hk
    · exact absurd (Option.some.inj hk) hsched
    · exact he.held (h.scheduled k m foreign hk hn)
  · rw [hm.plan] at hn
    rw [hm.after] at hk
    simp only [he.isDone]
    split at hk
    · rename_i hki
      subst hki
      exact hready m hn (Option.some.inj hk)
    · exact h.ready k m hk hn

/-- Letting a node pass and starting one keep a run standing still. -/
theorem Standstill.change (h : r.Standstill) (hp : r.plan.Layered) (hc : Change r c r')
    (hcause : c.OfAttempt false foreign) : r.SameEnds r' ∧ r'.Standstill := by
  cases hc with
  | judge o hn hs hv =>
    obtain ⟨rfl, -, hq⟩ := (h.scheduled _ _ o.foreign hs hn).of_verdict hp hcause.1 rfl hv
    have hm := moved_moveAndPublish hs hv.mem_moves
    refine ⟨hm.sameEnds rfl, h.moved hm rfl (by decide) fun m hm _ => ?_⟩
    cases hn.symm.trans hm
    exact hq
  | drop o ho =>
    rw [hcause.1] at ho
    cases ho
  | start hs =>
    have hm := moved_launch hs
    exact ⟨hm.sameEnds rfl, h.moved hm rfl (by decide) fun _ _ hne => by cases hne⟩
  | giveUp => exact hcause.elim
  | finish => exact hcause.elim

theorem Standstill.changes {admits : Cause → Prop} (h : r.Standstill) (hp : r.plan.Layered)
    (hc : Changes admits r r') (hadmits : ∀ c, admits c → c.OfAttempt false foreign) :
    r.SameEnds r' ∧ r'.Standstill := by
  induction hc with
  | refl => exact ⟨.refl r, h⟩
  | tail hc₁ hc ih =>
    obtain ⟨c, hadm, hc⟩ := hc
    obtain ⟨he, hs⟩ := ih
    obtain ⟨he', hs'⟩ := hs.change (Changes.plan hc₁ ▸ hp) hc (hadmits c hadm)
    exact ⟨he.trans he', hs'⟩

/-- Where a run has given up nothing waits. -/
theorem skipStuck_standstill (hc : r.Consistent) : r.skipStuck.Standstill := by
  have hnone : ∀ k st, (st = .scheduled ∨ st = .ready) →
      r.skipStuck.progress.state? k ≠ some st := by
    intro k st hst hk
    rw [state?_skipStuck r hc] at hk
    split at hk
    · rcases hst with rfl | rfl <;> cases hk
    · rename_i hnot
      rcases hst with rfl | rfl
      · exact hnot (.inl hk)
      · exact hnot (.inr hk)
  exact ⟨fun i _ _ hi => absurd hi (hnone i _ (.inl rfl)),
    fun i _ hi => absurd hi (hnone i _ (.inr rfl))⟩

/-! ## Selections -/

theorem standstill_select_of_settle (hp : r.plan.Sound) (hc : r.Consistent)
    (h : (r.settle ⟨false, false, foreign⟩).Standstill) (locks : ProjectLocks) (worker : Worker)
    (table : LockTable) : (r.select false foreign locks worker table).2.1.Standstill := by
  have hplan : (r.settle ⟨false, false, foreign⟩).plan = r.plan := plan_settle r _
  have hlayered : (r.settle ⟨false, false, foreign⟩).plan.Layered := hplan ▸ hp.layered
  have hsel := select_spec r false foreign locks worker table
  generalize r.select false foreign locks worker table = answer at hsel
  obtain ⟨selection, r', table'⟩ := answer
  dsimp only at hsel ⊢
  cases hsel with
  | strict ha =>
    cases ha with
    | finished => exact h
    | run _ hl =>
      have hcause : Cause.OfAttempt false foreign .started := trivial
      exact (h.change hlayered hl.change hcause).2
    | wait => exact h
  | relaxed h₁ h₂ =>
    cases h₁
    exact (h.changes hlayered h₂.chain fun _ hc => hc).2
  | gaveUp h₁ h₂ => exact skipStuck_standstill (hc.changes (h₁.chain.trans h₂.chain))

/-- What stands still does so until a node ends. -/
theorem Standstill.select (h : r.Standstill) (hp : r.plan.Sound) (hc : r.Consistent)
    (locks : ProjectLocks) (worker : Worker) (table : LockTable) :
    (r.select false foreign locks worker table).2.1.Standstill := by
  have hcause : ∀ c : Cause, c = .settled ⟨false, false, foreign⟩ → c.OfAttempt false foreign := by
    rintro c rfl
    exact ⟨rfl, rfl⟩
  have hsettle := (h.changes hp.layered (settle_chain r _) hcause).2
  exact standstill_select_of_settle hp hc hsettle locks worker table

/-- A selection finds that nothing moves in strict order, while `i` waits and it is open whether `q`
will be needed. -/
structure LetsPass (r : Run) (foreign : Foreign) (i q : Nat) : Prop where
  stuck : (r.settle ⟨false, false, foreign⟩).Stuck ⟨false, false, foreign⟩
  waits : (r.settle ⟨false, false, foreign⟩).progress.state? i = some .scheduled
  undecided : (r.settle ⟨false, false, foreign⟩).plan.demandOf
    (r.settle ⟨false, false, foreign⟩).progress.states q = .pending

theorem LetsPass.standstill (h : r.LetsPass foreign i q) (hp : r.plan.Sound) (hl : r.plan.Local)
    (hc : r.Consistent) (locks : ProjectLocks) (worker : Worker) (table : LockTable) :
    (r.select false foreign locks worker table).2.1.Standstill :=
  standstill_select_of_settle hp hc (h.stuck.standstill (plan_settle r _ ▸ hl)) locks worker table

/-- Where the order is relaxed no node is running, and so one at most is afterwards. -/
theorem LetsPass.alone (h : r.LetsPass foreign i q) (hp : r.plan.Sound) (hc : r.Consistent)
    {k k' : Nat}
    (hk : (r.select false foreign locks worker table).2.1.progress.state? k = some .running)
    (hk' : (r.select false foreign locks worker table).2.1.progress.state? k' = some .running) :
    k = k' := by
  have hnone : ∀ k, r.progress.state? k ≠ some .running := by
    intro k hk
    rw [← state?_running_settle r ⟨false, false, foreign⟩] at hk
    cases h.stuck.ended k _ hk (by decide)
  have hchosen := select_chosen hc hp false foreign locks worker table
  generalize r.select false foreign locks worker table = answer at hk hk' hchosen
  obtain ⟨selection, r', table'⟩ := answer
  dsimp only at hk hk' hchosen
  cases hchosen with
  | wait hrunning => exact absurd ((hrunning k).1 hk) (hnone k)
  | done hrunning => exact absurd ((hrunning k).1 hk) (hnone k)
  | run _ _ hrunning =>
    rw [((hrunning k).1 hk).resolve_right (hnone k), ((hrunning k').1 hk').resolve_right (hnone k')]

/-- What one pass judges free to run ahead of `q`, it judges so in relaxed order and while it is
open whether `q` will be needed. -/
theorem Attempted.overtakes {selection : Option Selection} (hp : r.plan.Layered) (hc : r.Consistent)
    (h : Attempted r o locks worker table selection r' table') (hn : r.plan.nodes[i]? = some n)
    (hi : r'.progress.state? i = some st) (hst : st.isCleared = true) (hq : q ∈ n.runAfter)
    (hopen : r'.progress.isDone q = false) :
    (∃ st, r.progress.state? i = some st ∧ st.isCleared = true) ∨
      o.relaxed = true ∧ r.progress.state? i = some .scheduled ∧
        ∃ r₁, Changes (Cause.OfPass o) r r₁ ∧
          r₁.plan.demandOf r₁.progress.states q = .pending := by
  rcases cleared_of_changes h.pass hn hi hst with hbefore | ⟨o', r₁, ho, h₁, h₂, hs, hv⟩
  · exact .inl hbefore
  · obtain rfl : o' = o := by
      rcases ho with ho | ho
      · exact Cause.settled.inj ho
      · cases ho
    refine .inr ?_
    cases hv with
    | cleared _ _ hcleared =>
      rcases hcleared.runAfter q hq with hdone | ⟨hrelaxed, hpend⟩
      · rw [isDone_changes h₂ hdone] at hopen
        cases hopen
      · exact ⟨hrelaxed, state?_scheduled_changes hc h₁ hs, r₁, h₁,
          (hpend.exact (h₁.plan ▸ hp)).symm⟩

/-- What a relaxed pass after one in vain judges free to run ahead of `q` is let pass. -/
theorem Attempted.overtakes_relaxed {selection : Option Selection} {r₂ : Run} {table₂ : LockTable}
    (hp : r.plan.Sound) (hl : r.plan.Local) (hc : r.Consistent)
    (h₁ : Attempted r ⟨false, false, foreign⟩ locks worker table none r₁ table)
    (h₂ : Attempted r₁ ⟨false, true, foreign⟩ locks worker table selection r₂ table₂)
    (hn : r.plan.nodes[i]? = some n) (hi : r₂.progress.state? i = some st)
    (hst : st.isCleared = true) (hq : q ∈ n.runAfter) (hopen : r₂.progress.isDone q = false) :
    (∃ st, r.progress.state? i = some st ∧ st.isCleared = true) ∨ r.LetsPass foreign i q := by
  have hplan : r₁.plan = r.plan := h₁.chain.plan
  obtain ⟨hstuck, hc₁⟩ := stuck_of_attempted hp hc h₁
  rcases h₂.overtakes (hplan ▸ hp.layered) hc₁ (hplan ▸ hn) hi hst hq hopen with
    ⟨st₁, hi₁, hst₁⟩ | ⟨-, hwaits, r', hchain, hpend⟩
  · have hopen₁ := not_isDone_of_changes h₂.pass hopen
    rcases h₁.overtakes hp.layered hc hn hi₁ hst₁ hq hopen₁ with hbefore | ⟨hno, -⟩
    · exact .inl hbefore
    · cases hno
  · -- what is needed was as undecided before the pass as in the middle of it
    have he := ((hstuck.standstill (hplan ▸ hl)).changes (hplan ▸ hp.layered) hchain
      fun _ hc => hc.ofAttempt).1
    rw [he.demandOf] at hpend
    cases h₁
    exact .inr ⟨hstuck, hwaits, hpend⟩

/-- What a selection judges free to run ahead of `q`, it lets pass. -/
theorem select_overtakes (hp : r.plan.Sound) (hl : r.plan.Local) (hc : r.Consistent)
    (hn : r.plan.nodes[i]? = some n)
    (hi : (r.select false foreign locks worker table).2.1.progress.state? i = some st)
    (hst : st.isCleared = true) (hq : q ∈ n.runAfter)
    (hopen : (r.select false foreign locks worker table).2.1.progress.isDone q = false) :
    (∃ st, r.progress.state? i = some st ∧ st.isCleared = true) ∨ r.LetsPass foreign i q := by
  have hsel := select_spec r false foreign locks worker table
  generalize r.select false foreign locks worker table = answer at hsel hi hopen
  obtain ⟨selection, r', table'⟩ := answer
  dsimp only at hsel hi hopen
  cases hsel with
  | strict h =>
    rcases h.overtakes hp.layered hc hn hi hst hq hopen with hbefore | ⟨hno, -⟩
    · exact .inl hbefore
    · cases hno
  | relaxed h₁ h₂ => exact h₁.overtakes_relaxed hp hl hc h₂ hn hi hst hq hopen
  | @gaveUp r₁ r₂ h₁ h₂ =>
    have hskip := skipStuck_chain r₂
    have hplan : r₂.plan = r.plan := (h₁.chain.trans h₂.chain).plan
    have hopen₂ := not_isDone_of_changes hskip hopen
    rcases cleared_of_changes hskip (hplan ▸ hn) hi hst with ⟨st₂, hi₂, hst₂⟩ | ⟨_, _, hno, -⟩
    · exact h₁.overtakes_relaxed hp hl hc h₂ hn hi₂ hst₂ hq hopen₂
    · cases hno

end Run

end Foreman
