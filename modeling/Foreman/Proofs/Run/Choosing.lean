import Foreman.Proofs.Lock.Table
import Foreman.Proofs.Run.Skipping

/-!
# What a selection means for the worker

`Run.Chosen` tells what a selection comes to for the worker that asks: nothing, the end of the run,
or one more running node with its lease and its keys. A worker has to wait although nobody holds a
lease or a key exactly where the run is held up (`Run.HeldUp`): no node is ready, and each one that
is left waits for something that is not over.
-/

namespace Foreman

/-- A footprint that touches nothing conflicts with none. -/
theorem Footprint.none_conflicts (f : Footprint) : Footprint.none.conflicts f = false := by
  simp [Footprint.conflicts, Footprint.none, Places.overlaps]

namespace Run

variable {r r' : Run} {c : Cause} {o : Outlook} {i k : Nat} {n : PlannedNode} {stop : Bool}
  {foreign : Foreign} {locks : ProjectLocks} {worker : Worker} {table table' : LockTable}
  {selection : Selection}

/-! ## The nodes that are running -/

/-- A cause for which only waiting nodes move. -/
def Cause.LeavesRunning : Cause → Prop
  | settled _ | gaveUp => True
  | started | ended _ => False

theorem state?_running_change (h : Change r c r') (hc : c.LeavesRunning) :
    r'.progress.state? k = some .running ↔ r.progress.state? k = some .running := by
  have hkeep : ∀ {i : Nat} {old new : NodeState}, r.progress.state? i = some old →
      new ∈ old.moves → old ≠ .running → new ≠ .running →
      ((r.moveAndPublish i new).progress.state? k = some .running ↔
        r.progress.state? k = some .running) := by
    intro i old new hs hm hold hnew
    rw [(moved_moveAndPublish hs hm).after]
    by_cases hk : k = i
    · subst hk
      simp [hs, hold, hnew]
    · rw [if_neg hk]
  cases h with
  | judge o hn hs hv =>
    refine hkeep hs hv.mem_moves (by decide) ?_
    rcases hv.cases_new with rfl | rfl | rfl <;> decide
  | drop o ho hs => exact hkeep hs (by decide) (by decide) (by decide)
  | start => exact hc.elim
  | giveUp hs =>
    rcases hs with hs | hs
    · exact hkeep hs (by decide) (by decide) (by decide)
    · exact hkeep hs (by decide) (by decide) (by decide)
  | finish => exact hc.elim

theorem state?_running_changes {admits : Cause → Prop} (h : Changes admits r r')
    (hadmits : ∀ c, admits c → c.LeavesRunning) :
    r'.progress.state? k = some .running ↔ r.progress.state? k = some .running := by
  induction h with
  | refl => rfl
  | tail _ hc ih =>
    obtain ⟨c, hadm, hc⟩ := hc
    exact (state?_running_change hc (hadmits c hadm)).trans ih

theorem state?_running_settle (r : Run) (o : Outlook) :
    (r.settle o).progress.state? k = some .running ↔ r.progress.state? k = some .running := by
  refine state?_running_changes (settle_chain r o) fun c hc => ?_
  subst hc
  trivial

/-- No change makes a node wait. -/
theorem state?_scheduled_changes {admits : Cause → Prop} (hc : r.Consistent)
    (h : Changes admits r r') (hk : r'.progress.state? k = some .scheduled) :
    r.progress.state? k = some .scheduled := by
  induction h with
  | refl => exact hk
  | @tail r₁ r₂ h hch ih =>
    obtain ⟨c, _, hch⟩ := hch
    obtain ⟨i, old, new, hm⟩ := hch.moved
    apply ih
    by_cases hki : k = i
    · subst hki
      have hknown := (hc.changes h).known k old hm.before
      have hlegal := hm.legal
      rw [hm.after, if_pos rfl, Option.some.injEq] at hk
      subst hk
      cases old <;> simp_all [NodeState.moves]
    · rwa [hm.state?_of_ne hki] at hk

/-! ## Nodes that are over -/

theorem isDone_changes {admits : Cause → Prop} (h : Changes admits r r')
    (hk : r.progress.isDone k = true) : r'.progress.isDone k = true := by
  induction h with
  | refl => exact hk
  | tail _ hc ih =>
    obtain ⟨c, _, hc⟩ := hc
    obtain ⟨_, _, _, hm⟩ := hc.moved
    exact hm.isDone ih

theorem not_isDone_of_changes {admits : Cause → Prop} (h : Changes admits r r')
    (hk : r'.progress.isDone k = false) : r.progress.isDone k = false := by
  by_contra hdone
  rw [isDone_changes h (Bool.eq_true_of_not_eq_false hdone)] at hk
  cases hk

theorem isOpen_of_changes {admits : Cause → Prop} (hc : r.Consistent) (h : Changes admits r r')
    (hk : r'.progress.IsOpen k) : r.progress.IsOpen k := by
  obtain ⟨st, hst, hterm⟩ := hk
  have hlt : k < r.plan.size := by
    rw [← h.plan]
    exact (hc.changes h).lt_size hst
  obtain ⟨old, hold⟩ := hc.exists_state hlt
  refine ⟨old, hold, ?_⟩
  by_contra hdone
  rw [Bool.not_eq_false] at hdone
  obtain ⟨st', hst', hterm'⟩ := Progress.isDone_iff.1
    (isDone_changes h (Progress.isDone_iff.2 ⟨old, hold, hdone⟩))
  rw [hst, Option.some.injEq] at hst'
  subst hst'
  rw [hterm] at hterm'
  cases hterm'

/-- Where something changes but the running nodes, and no node is ready afterwards, some node has
come to its end. -/
theorem exists_over_of_changes {admits : Cause → Prop} (hc : r.Consistent) (h : Changes admits r r')
    (hrunning : ∀ k, r'.progress.state? k = some .running ↔ r.progress.state? k = some .running)
    (hready : ∀ k, r'.progress.state? k ≠ some .ready) (hne : r' ≠ r) :
    ∃ k, r.progress.IsOpen k ∧ ¬ r'.progress.IsOpen k := by
  rcases h.cases_head with rfl | ⟨r₁, ⟨c, _, hch⟩, hrest⟩
  · exact absurd rfl hne
  · obtain ⟨i, old, new, hm⟩ := hch.moved
    refine ⟨i, ⟨old, hm.before, hm.not_isTerminal⟩, ?_⟩
    rintro ⟨st, hst, hterm⟩
    have hc₁ := hc.change hch
    have hnew : r₁.progress.state? i = some new := by rw [hm.after, if_pos rfl]
    have hknown := hc.known i old hm.before
    have hlegal := hm.legal
    have hknown' := (hc₁.changes hrest).known i st hst
    cases st with
    | running =>
      -- then it was running before the first change, which can only have ended it
      have hold := (hrunning i).1 hst
      rw [hm.before, Option.some.injEq] at hold
      subst hold
      have hdone : r₁.progress.isDone i = true := by
        refine Progress.isDone_iff.2 ⟨new, hnew, ?_⟩
        cases new <;> simp_all [NodeState.moves, NodeState.isTerminal]
      obtain ⟨st', hst', hterm'⟩ := Progress.isDone_iff.1 (isDone_changes hrest hdone)
      rw [hst, Option.some.injEq] at hst'
      subst hst'
      cases hterm'
    | scheduled =>
      have hsched := state?_scheduled_changes hc₁ hrest hst
      rw [hnew, Option.some.injEq] at hsched
      subst hsched
      cases old <;> simp_all [NodeState.moves]
    | ready => exact hready i hst
    | notScheduled => exact hknown'.1 rfl
    | queued => exact hknown'.2 rfl
    | _ => cases hterm

/-! ## What is chosen -/

/-- What a selection comes to for the worker. -/
inductive Chosen (r : Run) (locks : ProjectLocks) (worker : Worker) (table : LockTable) :
    Selection → Run → LockTable → Prop
  | wait {r' : Run}
      (hrunning : ∀ k, r'.progress.state? k = some .running ↔ r.progress.state? k = some .running) :
      Chosen r locks worker table .wait r' table
  | done {r' : Run}
      (hrunning : ∀ k, r'.progress.state? k = some .running ↔ r.progress.state? k = some .running)
      (hover : ∀ k st, r'.progress.state? k = some st → st.isTerminal = true) :
      Chosen r locks worker table .done r' table
  | run {r' : Run} {i : Nat} {n : PlannedNode} {leased table' : LockTable}
      (hn : r.plan.nodes[i]? = some n) (hnew : r.progress.state? i ≠ some .running)
      (hrunning : ∀ k, r'.progress.state? k = some .running ↔
        k = i ∨ r.progress.state? k = some .running)
      (hlease : table.lease? worker = some leased)
      (hkeys : leased.acquire? (n.lockKeys r.plan.build locks) worker = some table') :
      Chosen r locks worker table (.run i (n.lockKeys r.plan.build locks)) r' table'

theorem Attempted.chosen (hc : r.Consistent)
    (h : Attempted r o locks worker table (some selection) r' table') :
    Chosen r locks worker table selection r' table' := by
  have hsettle := fun k => state?_running_settle (k := k) r o
  have hcs := hc.settle o
  cases h with
  | finished h => exact .done hsettle (hcs.isFinished_iff.1 h)
  | @run n i keys table' _ hl =>
    obtain ⟨hn, hready, _, rfl, leased, hlease, hkeys⟩ := hl
    have hs := (mem_readyNodes.1 hready).2
    rw [plan_settle] at hn hkeys ⊢
    refine .run hn (fun hrun => ?_) (fun k => ?_) hlease hkeys
    · rw [← hsettle, hs] at hrun
      cases hrun
    · rw [state?_launch hs]
      by_cases hk : k = i
      · simp [hk]
      · simp [hk, hsettle]
  | wait => exact .wait hsettle

theorem select_chosen (hc : r.Consistent) (hp : r.plan.Sound) (stop : Bool) (foreign : Foreign)
    (locks : ProjectLocks) (worker : Worker) (table : LockTable) :
    Chosen r locks worker table (r.select stop foreign locks worker table).1
      (r.select stop foreign locks worker table).2.1
      (r.select stop foreign locks worker table).2.2 := by
  have hsel := select_spec r stop foreign locks worker table
  generalize r.select stop foreign locks worker table = answer at hsel
  obtain ⟨selection, r', table'⟩ := answer
  simp only at hsel ⊢
  cases hsel with
  | strict h => exact h.chosen hc
  | @relaxed _ r₁ r' table' h₁ h =>
    have hsettle := fun k => state?_running_settle (k := k) r ⟨stop, false, foreign⟩
    cases h₁ with
    | nothing =>
      have hchosen := h.chosen (hc.settle _)
      cases hchosen with
      | wait hrunning => exact .wait fun k => (hrunning k).trans (hsettle k)
      | done hrunning hover => exact .done (fun k => (hrunning k).trans (hsettle k)) hover
      | run hn hnew hrunning hlease hkeys =>
        rw [plan_settle] at hn hkeys ⊢
        refine .run hn (fun hrun => hnew ((hsettle _).2 hrun)) (fun k => ?_) hlease hkeys
        rw [hrunning, hsettle]
  | @gaveUp r₁ r₂ h₁ h₂ =>
    have hplan₁ : r₁.plan = r.plan := h₁.chain.plan
    have hc₁ := (stuck_of_attempted hp hc h₁).2
    obtain ⟨hstuck, hc₂⟩ := stuck_of_attempted (hplan₁ ▸ hp) hc₁ h₂
    have hskip := state?_skipStuck r₂ hc₂
    refine .done (fun k => ?_) fun k st hk => ?_
    · have hrunning : r₂.progress.state? k = some .running ↔
          r.progress.state? k = some .running := by
        cases h₁
        cases h₂
        exact (state?_running_settle _ _).trans (state?_running_settle _ _)
      rw [hskip, ← hrunning]
      split
      · rename_i hk
        rcases hk with hk | hk <;> simp [hk]
      · rfl
    · rw [hskip] at hk
      split at hk
      · cases hk
        rfl
      · rename_i hnot
        exact hstuck.ended k st hk fun hs => hnot (.inl (hs ▸ hk))

/-- A worker is sent home when every node is over. -/
theorem isDone_of_select_done (hc : r.Consistent) (hp : r.plan.Sound)
    (hdone : (r.select stop foreign locks worker table).1 = .done) (hi : i < r.plan.size) :
    (r.select stop foreign locks worker table).2.1.progress.isDone i = true := by
  have hchosen := select_chosen hc hp stop foreign locks worker table
  have hchain := (select_spec r stop foreign locks worker table).chain
  generalize r.select stop foreign locks worker table = answer at hdone hchosen hchain ⊢
  obtain ⟨selection, r', table'⟩ := answer
  dsimp only at hdone hchosen hchain ⊢
  subst hdone
  cases hchosen with
  | done _ hover =>
    obtain ⟨st, hst⟩ := (hc.changes hchain).exists_state (hchain.plan ▸ hi)
    exact Progress.isDone_iff.2 ⟨st, hst, hover i st hst⟩

/-! ## Runs that are held up -/

/-- No node is ready, each one that waits is held by something that is not over, and something is
going on: a node is running, or one waits for a task of another build. -/
structure HeldUp (r : Run) (stop : Bool) (foreign : Foreign) : Prop where
  ready : ∀ i, r.progress.state? i ≠ some .ready
  held : ∀ (i : Nat) (n : PlannedNode), r.progress.state? i = some .scheduled →
    r.plan.nodes[i]? = some n → r.Held ⟨stop, false, foreign⟩ i n
  busy : (∃ i, r.progress.state? i = some .running) ∨ ∃ (i : Nat) (n : PlannedNode),
    r.progress.state? i = some .scheduled ∧ r.plan.nodes[i]? = some n ∧
      ∃ e ∈ n.afterExports, (foreign e.1 e.2) = none

/-- What is held does not move but where the order is relaxed that held it, and then to overtake. -/
theorem Held.of_verdict {o' : Outlook} {new : NodeState} (h : r.Held o i n) (hp : r.plan.Layered)
    (hstop : o'.stop = false) (hforeign : o'.foreign = o.foreign) (hv : r.Verdict o' i n new) :
    new = .ready ∧ (o.relaxed = false ∧ o'.relaxed = true) ∧
      ∃ q ∈ n.runAfter, r.progress.isDone q = false := by
  cases hv with
  | stopped hs =>
    rw [hstop] at hs
    cases hs
  | needless _ hd =>
    have hd := hd.exact hp
    rcases h.reason with hr | ⟨hr, _⟩ <;> simp [hr] at hd
  | blocked _ _ _ hb hblocks =>
    rw [h.dependencies _ hb] at hblocks
    cases hblocks
  | cleared _ hd hc =>
    have hd := hd.exact hp
    rcases h.reason with hr | ⟨_, ⟨d, hm, hr⟩ | ⟨f, hm, hr⟩ | ⟨q, hm, hr, hrel⟩ | ⟨e, hm, hr⟩⟩
    · simp [hr] at hd
    · rw [hc.dependencies d hm] at hr
      cases hr
    · rw [hc.finalizes f hm] at hr
      cases hr
    · rcases hc.runAfter q hm with hdone | ⟨ho, hq⟩
      · rw [hdone] at hr
        cases hr
      · have hstrict : o.relaxed = false := by
          by_contra hrelaxed
          exact hrel (Bool.eq_true_of_not_eq_false hrelaxed) (hq.exact hp).symm
        exact ⟨rfl, ⟨hstrict, ho⟩, q, hm, hr⟩
    · have he := hc.afterExports e hm
      rw [isPublished, hforeign] at he
      rw [isPublished, he] at hr
      cases hr

/-- A held node has no reason to move. -/
theorem Held.not_verdict {new : NodeState} (h : r.Held o i n) (hp : r.plan.Layered) :
    ¬ r.Verdict o i n new := by
  intro hv
  obtain ⟨-, ⟨hstrict, hrelaxed⟩, -⟩ := h.of_verdict hp h.stop rfl hv
  rw [hstrict] at hrelaxed
  cases hrelaxed

theorem HeldUp.settle (h : r.HeldUp stop foreign) (hp : r.plan.Layered) :
    r.settle ⟨stop, false, foreign⟩ = r := by
  have hstay : ∀ r', Changes (· = .settled ⟨stop, false, foreign⟩) r r' → r' = r := by
    intro r' hch
    induction hch with
    | refl => rfl
    | tail _ hc ih =>
      obtain ⟨c, rfl, hc⟩ := hc
      subst ih
      cases hc with
      | judge _ hn hs hv => exact absurd hv ((h.held _ _ hs hn).not_verdict hp)
      | drop _ _ hs => exact absurd hs (h.ready _)
  exact hstay _ (settle_chain r _)

theorem awaitsOthers_iff : r.awaitsOthers o = true ↔ ∃ (i : Nat) (n : PlannedNode),
    i < r.plan.size ∧ r.progress.state? i = some .scheduled ∧ r.plan.nodes[i]? = some n ∧
      ∃ e ∈ n.afterExports, o.foreign e.1 e.2 = none := by
  simp only [awaitsOthers, indices, List.any_eq_true, List.mem_range, Bool.and_eq_true,
    Progress.isIn_iff, Option.any_eq_true, Bool.not_eq_true', List.all_eq_false, isPublished,
    Bool.not_eq_true, Option.isSome_eq_false_iff, Option.isNone_iff_eq_none]
  constructor
  · rintro ⟨i, hi, hs, n, hn, he⟩
    exact ⟨i, n, hi, hs, hn, he⟩
  · rintro ⟨i, n, hi, hs, hn, he⟩
    exact ⟨i, hi, hs, n, hn, he⟩

/-- In a run that is held up a worker has to wait, and nothing changes. -/
theorem HeldUp.select (h : r.HeldUp stop foreign) (hc : r.Consistent) (hp : r.plan.Sound)
    (locks : ProjectLocks) (worker : Worker) (table : LockTable) :
    r.select stop foreign locks worker table = (.wait, r, table) := by
  have hready : r.readyNodes = [] := by
    rw [List.eq_nil_iff_forall_not_mem]
    intro i hi
    exact h.ready i (mem_readyNodes.1 hi).2
  have hnot : ¬ r.IsFinished := by
    rw [hc.isFinished_iff]
    intro hover
    rcases h.busy with ⟨i, hi⟩ | ⟨i, n, hi, _⟩
    · exact absurd (hover i _ hi) (by decide)
    · exact absurd (hover i _ hi) (by decide)
  have hbusy : r.progress.running ≠ [] ∨ r.awaitsOthers ⟨stop, false, foreign⟩ = true := by
    rcases h.busy with ⟨i, hi⟩ | ⟨i, n, hi, hn, he⟩
    · exact .inl (List.ne_nil_of_mem ((hc.running i).2 hi))
    · exact .inr (awaitsOthers_iff.2 ⟨i, n, hc.lt_size hi, hi, hn, he⟩)
  have hattempt := attempt_spec r ⟨stop, false, foreign⟩ locks worker table
  rw [Run.select]
  generalize r.attempt ⟨stop, false, foreign⟩ locks worker table = answer at hattempt
  obtain ⟨selection, r', table'⟩ := answer
  simp only at hattempt
  have hsettle := h.settle hp.layered
  cases hattempt with
  | finished hf => exact absurd (hsettle ▸ hf) hnot
  | run _ hl =>
    have := hl.ready
    rw [hsettle, hready] at this
    cases this
  | wait => rw [hsettle]
  | nothing _ _ hrunning hothers =>
    rw [hsettle] at hrunning hothers
    rcases hbusy with hb | hb
    · exact absurd hrunning hb
    · rw [hothers] at hb
      cases hb

/-- Nothing that others hold or touch keeps a worker from starting a node. -/
structure Free (r : Run) (table : LockTable) : Prop where
  unleased : table.Unleased
  unlocked : table.Unlocked
  running : ∀ (i : Nat) (n : PlannedNode), r.progress.state? i = some .running →
    r.plan.nodes[i]? = some n → n.footprint = .none

theorem Free.not_hindered (h : r.Free table) {r' : Run}
    (hc' : r'.Consistent) (hplan : r'.plan = r.plan)
    (hrunning : ∀ k, r'.progress.state? k = some .running ↔ r.progress.state? k = some .running)
    (hn : r'.plan.nodes[i]? = some n) : ¬ r'.Hindered locks worker table i := by
  intro hh
  rcases hh n hn with hclash | hlease | ⟨leased, hlease, hkeys⟩
  · rw [clashes, List.any_eq_true] at hclash
    obtain ⟨k, hk, hclash⟩ := hclash
    rw [Option.any_eq_true] at hclash
    obtain ⟨m, hm, hclash⟩ := hclash
    rw [hc'.running, hrunning] at hk
    rw [h.running k m hk (hplan ▸ hm), Footprint.none_conflicts] at hclash
    cases hclash
  · rw [h.unleased.lease?] at hlease
    cases hlease
  · have hun : leased.Unlocked := by
      intro key
      rw [LockTable.owner?, LockTable.owners_lease? hlease]
      exact h.unlocked key
    rw [hun.acquire?] at hkeys
    cases hkeys

/-- Where nothing hinders a worker, settling leaves no ready node to an attempt that waits. -/
theorem Free.settle_ready (h : r.Free table) (hc : r.Consistent)
    (hh : ∀ i ∈ (r.settle o).readyNodes, (r.settle o).Hindered locks worker table i) :
    (r.settle o).readyNodes = [] := by
  have hcs := hc.settle o
  rw [List.eq_nil_iff_forall_not_mem]
  intro i hi
  obtain ⟨n, hn⟩ := hcs.exists_node (mem_readyNodes.1 hi).2
  exact h.not_hindered hcs (plan_settle r o) (fun k => state?_running_settle r o) hn (hh i hi)

/-- A worker that has to wait though nothing hinders it leaves a run that is held up. -/
theorem heldUp_of_wait (hfree : r.Free table) (hc : r.Consistent) (hp : r.plan.Sound)
    (hwait : (r.select stop foreign locks worker table).1 = .wait) :
    (r.select stop foreign locks worker table).2.1.HeldUp stop foreign := by
  have hsel := select_spec r stop foreign locks worker table
  generalize r.select stop foreign locks worker table = answer at hsel hwait
  obtain ⟨selection, r', table'⟩ := answer
  simp only at hwait hsel ⊢
  subst hwait
  cases hsel with
  | strict h =>
    cases h with
    | wait _ hh hw =>
      have hcs := hc.settle ⟨stop, false, foreign⟩
      have hready := hfree.settle_ready hc hh
      refine ⟨fun i hi => ?_, fun i n hs hn => ?_, ?_⟩
      · have hmem : i ∈ (r.settle ⟨stop, false, foreign⟩).readyNodes :=
          mem_readyNodes.2 ⟨hcs.lt_size hi, hi⟩
        rw [hready] at hmem
        cases hmem
      · have hlt : i < r.plan.size := by
          rw [← plan_settle r ⟨stop, false, foreign⟩]
          exact hcs.lt_size hs
        refine (settle_rests r _ hlt).scheduled n hn hs ?_
        rw [plan_settle]
        exact hp.layered
      · rcases hw with hw | hw | hw
        · exact absurd hready hw
        · obtain ⟨i, hi⟩ := List.exists_mem_of_ne_nil _ hw
          exact .inl ⟨i, (hcs.running i).1 hi⟩
        · obtain ⟨i, n, _, hs, hn, he⟩ := awaitsOthers_iff.1 hw
          exact .inr ⟨i, n, hs, hn, he⟩
  | relaxed h₁ h =>
    cases h₁ with
    | nothing _ _ hrunning hothers =>
      have hcs := hc.settle ⟨stop, false, foreign⟩
      have hfree' : (r.settle ⟨stop, false, foreign⟩).Free table := by
        refine ⟨hfree.unleased, hfree.unlocked, fun i n hi hn => hfree.running i n ?_ ?_⟩
        · exact (state?_running_settle r _).1 hi
        · rwa [plan_settle] at hn
      cases h with
      | wait _ hh hw =>
        rcases hw with hw | hw | hw
        · exact absurd (hfree'.settle_ready hcs hh) hw
        · obtain ⟨i, hi⟩ := List.exists_mem_of_ne_nil _ hw
          have hi' := (state?_running_settle _ _).1 (((hcs.settle _).running i).1 hi)
          rw [← hcs.running, hrunning] at hi'
          cases hi'
        · obtain ⟨i, n, _, hs, hn, he⟩ := awaitsOthers_iff.1 hw
          rw [plan_settle] at hn
          have hs' := state?_scheduled_changes hcs (settle_chain _ _) hs
          have : (r.settle ⟨stop, false, foreign⟩).awaitsOthers ⟨stop, false, foreign⟩ = true :=
            awaitsOthers_iff.2 ⟨i, n, hcs.lt_size hs', hs', hn, he⟩
          rw [hothers] at this
          cases this

/-- In a plan without regard to other builds a worker that nothing hinders waits for a node that is
running. -/
theorem exists_running_of_wait (hfree : r.Free table) (hc : r.Consistent) (hp : r.plan.Sound)
    (hlocal : r.plan.Local) (hwait : (r.select stop foreign locks worker table).1 = .wait) :
    ∃ i, r.progress.state? i = some .running := by
  have hheld := heldUp_of_wait hfree hc hp hwait
  have hchosen := select_chosen hc hp stop foreign locks worker table
  have hchain := (select_spec r stop foreign locks worker table).chain
  generalize r.select stop foreign locks worker table = answer at hwait hheld hchosen hchain
  obtain ⟨selection, r', table'⟩ := answer
  dsimp only at hwait hheld hchosen hchain
  subst hwait
  rcases hheld.busy with ⟨i, hi⟩ | ⟨i, n, _, hn, e, he, _⟩
  · cases hchosen with
    | wait hrunning => exact ⟨i, (hrunning i).1 hi⟩
  · rw [hchain.plan] at hn
    rw [hlocal.afterExports i n hn] at he
    cases he

end Run

end Foreman
