import Foreman.Proofs.WorkGraph.Determined

/-!
# What runs only on demand

A node that is not required is wanted exactly for the sake of nodes that have run: it finalizes one,
or something wanted depends on it (`Run.CalledFor`). What has called for a node when it was judged
free to run calls for it ever after, so nothing else that is not required ever runs, and a node is
ruled out only when all that it finalizes is over and has not run (`runs_on_demand`).
-/

namespace Foreman

namespace Run

variable {r r' : Run} {c : Cause} {i k : Nat} {old new st : NodeState} {n : PlannedNode}

/-- The node finalizes one that has executed, or such a finalizer depends on it, perhaps through
others that do. -/
inductive CalledFor (r : Run) : Nat → Prop
  | finalizer {i f : Nat} {n : PlannedNode} {st : NodeState} (hn : r.plan.nodes[i]? = some n)
      (hf : f ∈ n.finalizes) (hs : r.progress.state? f = some st) (he : st.executed = true) :
      CalledFor r i
  | dependency {i d : Nat} {m : PlannedNode} (h : CalledFor r d) (hm : r.plan.nodes[d]? = some m)
      (hi : i ∈ m.dependencies) : CalledFor r i

/-- The more nodes have executed, the more is called for. -/
theorem CalledFor.mono (h : r.CalledFor i) (hplan : r'.plan = r.plan)
    (hex : ∀ k st, r.progress.state? k = some st → st.executed = true →
      r'.progress.state? k = some st) : r'.CalledFor i := by
  induction h with
  | finalizer hn hf hs he => exact .finalizer (hplan ▸ hn) hf (hex _ _ hs he) he
  | dependency _ hm hi ih => exact .dependency ih (hplan ▸ hm) hi

theorem isTerminal_of_executed (h : st.executed = true) : st.isTerminal = true := by
  cases st <;> first | rfl | cases h

theorem CalledFor.moved (h : r.CalledFor i) (hm : Moved r r' k old new) : r'.CalledFor i := by
  refine h.mono hm.plan fun f st hs he => ?_
  rw [hm.state?_of_isDone (Progress.isDone_iff.2 ⟨st, hs, isTerminal_of_executed he⟩)]
  exact hs

/-- What is called for though nothing depends on it finalizes a node that has executed. -/
theorem CalledFor.exists_executed (h : r.CalledFor i) (hp : r.plan.Sound)
    (hn : r.plan.nodes[i]? = some n) (hlast : n.dependents = []) :
    ∃ f ∈ n.finalizes, ∃ st, r.progress.state? f = some st ∧ st.executed = true := by
  cases h with
  | finalizer hn' hf hs he =>
    cases hn.symm.trans hn'
    exact ⟨_, hf, _, hs, he⟩
  | dependency _ hm hi =>
    have hdep := (hp.dependents i n hn _).2 ⟨_, hm, hi⟩
    rw [hlast] at hdep
    cases hdep

/-! ## Demand -/

/-- What is wanted and not required is called for. The induction is on the rank of the node: a
required dependent would have made the node required. -/
theorem calledFor_of_wanted (hp : r.plan.Sound) (hclosed : r.plan.RequiredClosed)
    (hn : r.plan.nodes[i]? = some n) (hreq : n.required = false)
    (hw : r.plan.demandOf r.progress.states i = .wanted) : r.CalledFor i := by
  obtain ⟨rank, hrank⟩ := hp.layered
  induction hk : rank i using Nat.strongRecOn generalizing i n with
  | ind k ih =>
    rcases (Plan.demandOf_eq_wanted_iff hp.layered hn).1 hw with
      htrue | ⟨f, hf, st, hs, he⟩ | ⟨d, hd, _, hwd⟩
    · rw [hreq] at htrue
      cases htrue
    · exact .finalizer hn hf hs he
    · obtain ⟨m, hm, hi⟩ := (hp.dependents i n hn d).1 hd
      have hopen : m.required = false := by
        rw [← Bool.not_eq_true]
        intro htrue
        rw [hclosed d i m n hm htrue hi hn] at hreq
        cases hreq
      have hlt : rank d < k := hk ▸ hrank.lt i n hn d hd
      exact .dependency (ih (rank d) hlt hm hopen hwd rfl) hm hi

/-- What runs, has run or is about to, and is not required, is called for. -/
def Summoned (r : Run) : Prop :=
  ∀ i n st, r.plan.nodes[i]? = some n → n.required = false → r.progress.state? i = some st →
    st.isCleared = true → r.CalledFor i

theorem start_summoned (plan : Plan) (exports : Exports) : (start plan exports).Summoned := by
  intro i n st _ _ hs hst
  rw [eq_scheduled_of_start hs] at hst
  cases hst

theorem Summoned.change (h : r.Summoned) (hp : r.plan.Sound) (hclosed : r.plan.RequiredClosed)
    (hc : Change r c r') : r'.Summoned := by
  intro i n st hn hreq hs hst
  rw [hc.plan] at hn
  have hcalled : r.CalledFor i := by
    rcases cleared_of_change hc hn hs hst with ⟨st₀, hs₀, hst₀⟩ | ⟨o, -, -, hv⟩
    · exact h i n st₀ hn hreq hs₀ hst₀
    · cases hv with
      | cleared _ hd _ => exact calledFor_of_wanted hp hclosed hn hreq (hd.exact hp.layered).symm
  obtain ⟨_, _, _, hm⟩ := hc.moved
  exact hcalled.moved hm

/-! ## Nodes that are ruled out -/

/-- A node is ruled out when it is not required and all that it finalizes is over and has not
run. -/
theorem needless_of_change (hc : Change r c r') (hp : r.plan.Sound) (hcon : r.Consistent)
    (hn : r.plan.nodes[i]? = some n) (hbefore : r.progress.state? i ≠ some .mustNotRun)
    (hafter : r'.progress.state? i = some .mustNotRun) :
    n.required = false ∧ ∀ f ∈ n.finalizes, ∃ st, r.progress.state? f = some st ∧
      st.isTerminal = true ∧ st.executed = false := by
  have hother : ∀ {k : Nat} {old new : NodeState}, Moved r r' k old new → new ≠ .mustNotRun →
      False := by
    intro k old new hm hne
    exact hbefore ((hm.state?_iff rfl hne i).1 hafter)
  cases hc with
  | @judge o k m new hk hsk hv =>
    have hm := moved_moveAndPublish hsk hv.mem_moves
    cases hv with
    | stopped => exact (hother hm (by decide)).elim
    | blocked => exact (hother hm (by decide)).elim
    | cleared => exact (hother hm (by decide)).elim
    | needless _ hd =>
      rw [hm.after] at hafter
      split at hafter
      · rename_i hik
        subst hik
        cases hk.symm.trans hn
        obtain ⟨hreq, hfin, _⟩ :=
          (Plan.demandOf_eq_unwanted_iff hp.layered hn).1 (hd.exact hp.layered).symm
        refine ⟨hreq, fun f hf => ?_⟩
        obtain ⟨st, hs⟩ := hcon.exists_state (hp.bounded i f ⟨n, hn, .inr (.inl hf)⟩)
        exact ⟨st, hs, hfin f hf st hs⟩
      · exact absurd hafter hbefore
  | drop o ho hsk => exact (hother (moved_moveAndPublish hsk (by decide)) (by decide)).elim
  | start hsk => exact (hother (moved_launch hsk) (by decide)).elim
  | giveUp hsk =>
    obtain ⟨old, hm⟩ := moved_giveUp hsk
    exact (hother hm (by decide)).elim
  | finish hsk outcome =>
    exact (hother (moved_finish hsk outcome) (by cases outcome <;> simp [endState])).elim

/-- Each node that is ruled out is not required, and all that it finalizes is over and has not
run. -/
def SparesNeedless (r : Run) : Prop :=
  ∀ i n, r.plan.nodes[i]? = some n → r.progress.state? i = some .mustNotRun →
    n.required = false ∧ ∀ f ∈ n.finalizes, ∃ st, r.progress.state? f = some st ∧
      st.isTerminal = true ∧ st.executed = false

theorem start_sparesNeedless (plan : Plan) (exports : Exports) :
    (start plan exports).SparesNeedless := by
  intro i n _ hs
  cases eq_scheduled_of_start hs

theorem SparesNeedless.change (h : r.SparesNeedless) (hp : r.plan.Sound) (hcon : r.Consistent)
    (hc : Change r c r') : r'.SparesNeedless := by
  intro i n hn hs
  rw [hc.plan] at hn
  have hbefore : n.required = false ∧ ∀ f ∈ n.finalizes, ∃ st, r.progress.state? f = some st ∧
      st.isTerminal = true ∧ st.executed = false := by
    by_cases hi : r.progress.state? i = some .mustNotRun
    · exact h i n hn hi
    · exact needless_of_change hc hp hcon hn hi hs
  obtain ⟨_, _, _, hm⟩ := hc.moved
  refine ⟨hbefore.1, fun f hf => ?_⟩
  obtain ⟨st, hst, hterm, hex⟩ := hbefore.2 f hf
  refine ⟨st, ?_, hterm, hex⟩
  rw [hm.state?_of_isDone (Progress.isDone_iff.2 ⟨st, hst, hterm⟩)]
  exact hst

/-! ## Selections end nothing -/

/-- Only the end of a node makes one that has executed. -/
theorem executed_of_change (hc : Change r c r') (hstill : ∀ outcome, c ≠ .ended outcome)
    (hk : r'.progress.state? k = some st) (he : st.executed = true) :
    r.progress.state? k = some st := by
  have hother : ∀ {i : Nat} {old new : NodeState}, Moved r r' i old new → new.executed = false →
      r.progress.state? k = some st := by
    intro i old new hm hnew
    refine (hm.state?_iff (isTerminal_of_executed he) ?_ k).1 hk
    rintro rfl
    rw [he] at hnew
    cases hnew
  cases hc with
  | judge o hn hs hv =>
    refine hother (moved_moveAndPublish hs hv.mem_moves) ?_
    rcases hv.cases_new with rfl | rfl | rfl <;> rfl
  | drop o ho hs => exact hother (moved_moveAndPublish hs (by decide)) rfl
  | start hs => exact hother (moved_launch hs) rfl
  | giveUp hs =>
    obtain ⟨old, hm⟩ := moved_giveUp hs
    exact hother hm rfl
  | finish hs outcome => exact absurd rfl (hstill outcome)

/-- What calls for a node after a selection called for it before. -/
theorem CalledFor.before {admits : Cause → Prop} (h : r'.CalledFor i) (hc : Changes admits r r')
    (hstill : ∀ outcome, ¬ admits (.ended outcome)) : r.CalledFor i := by
  induction hc with
  | refl => exact h
  | tail _ hc ih =>
    obtain ⟨c, hadm, hc⟩ := hc
    have hnot : ∀ outcome, c ≠ .ended outcome := by
      rintro outcome rfl
      exact hstill outcome hadm
    exact ih (h.mono hc.plan.symm fun k st hk he => executed_of_change hc hnot hk he)

/-- What holds all through a run of a plan that was frozen from a work graph. -/
structure OnDemand (r : Run) : Prop where
  sound : r.plan.Sound
  closed : r.plan.RequiredClosed
  consistent : r.Consistent
  summoned : r.Summoned
  spares : r.SparesNeedless

theorem OnDemand.change (h : r.OnDemand) (hc : Change r c r') : r'.OnDemand where
  sound := hc.plan ▸ h.sound
  closed := hc.plan ▸ h.closed
  consistent := h.consistent.change hc
  summoned := h.summoned.change h.sound h.closed hc
  spares := h.spares.change h.sound h.consistent hc

theorem OnDemand.changes {admits : Cause → Prop} (h : r.OnDemand) (hc : Changes admits r r') :
    r'.OnDemand := by
  induction hc with
  | refl => exact h
  | tail _ hc ih =>
    obtain ⟨c, _, hc⟩ := hc
    exact ih.change hc

end Run

namespace Stage

open Run

variable {s s' : Stage} {t : Turn} {turns : List Turn} {i : Nat} {n : PlannedNode} {st : NodeState}

theorem History.onDemand (h : History s turns s') (hs : s.run.OnDemand) : s'.run.OnDemand :=
  h.preserves (P := fun r _ => r.OnDemand) (fun _ _ _ _ hp hc _ => hp.change hc)
    (fun _ _ _ hp _ => hp) hs

/-- Nodes start in selections only. -/
theorem Starts.isSelect (h : s.Starts (s.after t) i) (ha : s.Allows t) :
    ∃ stop locks worker table, t = .select stop locks worker table := by
  cases ha with
  | select stop locks worker table => exact ⟨stop, locks, worker, table, rfl⟩
  | @finish k hk outcome =>
    have hrun : (s.run.finish k outcome).progress.state? i = some .running := h.2
    rw [state?_finish hk] at hrun
    split at hrun
    · cases outcome <;> cases hrun
    · exact absurd hrun h.1
  | news => exact absurd h.2 h.1

/-- A node that starts and is not required has been called for before. -/
theorem calledFor_of_starts (h : s.run.OnDemand) (ha : s.Allows t) (hi : s.Starts (s.after t) i)
    (hn : s.run.plan.nodes[i]? = some n) (hreq : n.required = false) : s.run.CalledFor i := by
  have hc := changes_after ha
  have hcalled : (s.after t).run.CalledFor i :=
    (h.changes hc).summoned i n .running (by rw [hc.plan]; exact hn) hreq hi.2 rfl
  obtain ⟨stop, locks, worker, table, rfl⟩ := hi.isSelect ha
  refine hcalled.before hc fun outcome hadm => ?_
  rcases hadm with hadm | hadm
  · exact hadm
  · cases hadm

end Stage

namespace WorkGraph

open Run Stage

variable {g g' : WorkGraph} {plan : Plan} {exports : Exports} {foreign : Foreign} {s : Stage}
  {t : Turn} {turns : List Turn}

theorem onDemand_of_freeze (hb : Built g) (hf : g.freeze = .ok g') (hp : g'.plan = some plan)
    (exports : Exports) : (Run.start plan exports).OnDemand := by
  obtain ⟨footprints, p, hto⟩ := freeze_spec hf
  obtain rfl := hto.eq_planOf hp
  exact ⟨planOf_sound hb.sound hto, planOf_requiredClosed hb hto.footprints_eq p,
    start_consistent _ exports, start_summoned _ exports, start_sparesNeedless _ exports⟩

/-- In every history of a frozen graph's plan: a node that is not required starts only if it has
been called for. Wherever a turn can bring a node to the state in which it must not run, and so
always when one is in it, the node is not required, and all that it finalizes is over and has not
run. So a node that is there as a finalizer alone does not run while nothing that it finalizes
has. -/
theorem runs_on_demand (hb : Built g) (hf : g.freeze = .ok g') (hp : g'.plan = some plan)
    (h : History (Stage.start plan exports foreign) turns s) (ha : s.Allows t) :
    (∀ i n, plan.nodes[i]? = some n → n.required = false → s.Starts (s.after t) i →
        s.run.CalledFor i) ∧
      (∀ r r' c i n, Changes (admits s.foreign t) s.run r → admits s.foreign t c → Change r c r' →
        plan.nodes[i]? = some n → r.progress.state? i ≠ some .mustNotRun →
        r'.progress.state? i = some .mustNotRun →
        n.required = false ∧ ∀ f ∈ n.finalizes, ∃ st, r.progress.state? f = some st ∧
          st.isTerminal = true ∧ st.executed = false) ∧
      (∀ i n, plan.nodes[i]? = some n → s.run.progress.state? i = some .mustNotRun →
        n.required = false ∧ ∀ f ∈ n.finalizes, ∃ st, s.run.progress.state? f = some st ∧
          st.isTerminal = true ∧ st.executed = false) ∧
      ∀ i n st, plan.nodes[i]? = some n → n.required = false → n.dependents = [] →
        (∀ f ∈ n.finalizes, ∀ st, s.run.progress.state? f = some st → st.executed = false) →
        s.run.progress.state? i = some st → st ≠ .running ∧ st.executed = false := by
  have hdemand : s.run.OnDemand := h.onDemand (onDemand_of_freeze hb hf hp exports)
  have hplan : s.run.plan = plan := h.plan
  subst hplan
  refine ⟨fun i n hn hreq hi => ?_, fun r r' c i n hr hadm hc hn hbefore hafter => ?_,
    hdemand.spares, fun i n st hn hreq hlast hnone hs => ?_⟩
  · exact calledFor_of_starts hdemand ha hi hn hreq
  · have hr' := hdemand.changes hr
    exact needless_of_change hc hr'.sound hr'.consistent (by rw [hr.plan]; exact hn) hbefore hafter
  · have hfree : st.isCleared = false := by
      rw [← Bool.not_eq_true]
      intro hcleared
      have hcalled := hdemand.summoned i n st hn hreq hs hcleared
      obtain ⟨f, hf, st', hs', he⟩ := hcalled.exists_executed hdemand.sound hn hlast
      rw [hnone f hf st' hs'] at he
      cases he
    cases st <;> simp_all [NodeState.isCleared, NodeState.executed]

/-- The report on a test, which needs what is collected for it. -/
def surveyGraph : WorkGraph :=
  requested [smallTask "test" [] ["report"] [], smallTask "report" ["collect"] [] [],
    smallTask "collect" [] [] []] ["test"]

def surveyTurns : List Turn := [selectAlone, .finish 0 (.failure ⟨"red", []⟩)]

/-- Once the test has failed, collecting starts, for the sake of the report. -/
theorem surveyGraph_collects : ∃ s n, History surveyGraph.firstStage surveyTurns s ∧
    s.run.plan.nodes[2]? = some n ∧ n.key = .task ⟨":", "collect"⟩ ∧ n.required = false ∧
    s.Starts (s.after selectAlone) 2 ∧ s.run.CalledFor 2 := by
  have hrun : (surveyGraph.firstStage.after selectAlone).run.progress.state? 0 = some .running := by
    decide +kernel
  have h : History surveyGraph.firstStage surveyTurns
      (surveyTurns.foldl Stage.after surveyGraph.firstStage) :=
    .cons (select_allowed _) (.cons (.finish hrun _) .nil)
  obtain ⟨hcalled, -⟩ := runs_on_demand (g := surveyGraph) (requested_built _ _)
    (freeze_eq_frozen (by decide +kernel)) (plan_frozen (by decide +kernel)) h (select_allowed _)
  have hnode : (surveyGraph.firstStage.run.plan.nodes[2]?).any (fun n =>
      n.key = .task ⟨":", "collect"⟩ && !n.required) = true := by
    decide +kernel
  simp only [Option.any_eq_true, Bool.and_eq_true, Bool.not_eq_true', decide_eq_true_eq] at hnode
  obtain ⟨n, hn, hkey, hreq⟩ := hnode
  have hstarts : (surveyTurns.foldl Stage.after surveyGraph.firstStage).Starts
      ((surveyTurns.foldl Stage.after surveyGraph.firstStage).after selectAlone) 2 :=
    ⟨by decide +kernel, by decide +kernel⟩
  exact ⟨_, n, h, h.plan ▸ hn, hkey, hreq, hstarts, hcalled 2 n hn hreq hstarts⟩

end WorkGraph

end Foreman
