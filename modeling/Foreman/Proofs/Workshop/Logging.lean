import Foreman.Proofs.Workshop.Ending
import Foreman.Proofs.Workshop.Reporting

/-!
# What the log of a workshop tells

Stepping in turn comes to where nobody can take a step that changes something
(`Crewed.rests_execute`), whatever the plans are. By then, as at any time before, the log tells of
just those actions that have begun (`Logged.steps`): a member that starts a node with an action says
so, and nobody else does.
-/

namespace Foreman

open Relation

namespace PlannedNode

/-- The node runs the action of the task. -/
def Acts (n : PlannedNode) (path : TaskPath) : Prop :=
  ∃ task, n.work = .task task ∧ task.path = path ∧ task.action ≠ none

theorem mem_startEvents {n : PlannedNode} {b d : BuildId} {path : TaskPath} :
    .started d path ∈ n.startEvents b ↔ d = b ∧ n.Acts path := by
  rw [startEvents, Acts]
  cases hw : n.work with
  | foreign e q => simp
  | task task =>
    cases hact : task.action with
    | none => simp [hact]
    | some action => simp [hact, eq_comm]

end PlannedNode

namespace Run

variable {r r' : Run} {i k : Nat} {path : TaskPath}

/-- The node is running or has run. -/
def HasStarted (r : Run) (i : Nat) : Prop :=
  r.progress.state? i = some .running ∨ ∃ st, r.progress.state? i = some st ∧ st.executed = true

/-- The action of the task has begun. -/
def Acted (r : Run) (path : TaskPath) : Prop :=
  ∃ (i : Nat) (n : PlannedNode), r.plan.nodes[i]? = some n ∧ n.Acts path ∧ r.HasStarted i

theorem not_acted_of_start (hs : r.progress = .start r.plan) : ¬ r.Acted path := by
  rintro ⟨i, n, -, -, hi | ⟨st, hi, hst⟩⟩
  · exact not_running_of_start hs i hi
  · rw [hs] at hi
    rw [eq_scheduled_of_start hi] at hst
    cases hst

/-- Where the plan and the states of its nodes are the same, so are the actions that have begun. -/
theorem acted_congr (hplan : r'.plan = r.plan) (hstates : r'.progress.states = r.progress.states) :
    r'.Acted path ↔ r.Acted path := by
  simp only [Acted, HasStarted, Progress.state?, hplan, hstates]

/-- A selection starts just the nodes that it sets running. -/
theorem Changes.hasStarted_iff {stop : Bool} {foreign : Foreign}
    (h : Changes (Cause.OfSelection stop foreign) r r')
    (hkept : r.progress.state? k = some .running → r'.progress.state? k = some .running) :
    r'.HasStarted k ↔ r'.progress.state? k = some .running ∨ r.HasStarted k := by
  constructor
  · rintro (hk | ⟨st, hk, hst⟩)
    · exact .inl hk
    · have hended : st = .succeeded ∨ st = .failed := by
        cases st <;> simp_all [NodeState.executed]
      exact .inr (.inr ⟨st, h.state?_ended hended hk, hst⟩)
  · rintro (hk | hk | ⟨st, hk, hst⟩)
    · exact .inl hk
    · exact .inl (hkept hk)
    · have hterm : st.isTerminal = true := by
        cases st <;> simp_all [NodeState.executed, NodeState.isTerminal]
      exact .inr ⟨st, h.state?_of_isTerminal hterm hk, hst⟩

end Run

namespace Workshop

variable {w w' : Workshop} {j : Nat} {m : Member} {r r' : Run} {activity : Activity}
  {table : LockTable} {b : BuildId} {path : TaskPath}

/-! ## Where stepping in turn comes to rest -/

/-- Nobody can take a step that changes something. -/
def Rests (w : Workshop) : Prop := ∀ j, ¬ w.Enabled j

theorem Alike.symm (h : Alike w w') : Alike w' w :=
  ⟨h.crew.symm, fun b => (h.runs b).symm, h.services.symm, h.foreign.symm⟩

theorem Rests.congr (h : w.Rests) (ha : Alike w w') : w'.Rests := fun j he => h j (he.congr ha.symm)

/-- Steps after which as much is left to do as before have changed nothing. -/
theorem Crewed.alike_steps (h : w.Crewed) (js : List Nat)
    (hstay : ¬ (js.foldl Workshop.step w).toDo < w.toDo) : Alike w (js.foldl Workshop.step w) := by
  induction js generalizing w with
  | nil => exact .refl w
  | cons j js ih =>
    have hrest := (h.step j).toDo_steps_le js
    rcases h.step_lowers j with hlt | ha
    · exact absurd (Nat.lt_of_le_of_lt hrest hlt) hstay
    · refine ha.trans (ih (h.step j) ?_)
      rw [ha.toDo]
      exact hstay

/-- Stepping in turn ends where nobody can take a step. -/
theorem Crewed.rests_execute (h : w.Crewed) : w.execute.Rests := by
  fun_induction execute w with
  | case1 w next _ ih => exact ih (h.steps _)
  | case2 w next hstay =>
    have hnone : w.Rests := fun j he =>
      hstay (h.lowers_of_mem he (List.mem_range.2 he.lt_size))
    exact hnone.congr (h.alike_steps _ hstay)

/-- Stepping in turn is one step after another. -/
theorem exists_steps_execute (w : Workshop) : ∃ js : List Nat, w.execute = js.foldl step w := by
  fun_induction execute w with
  | case1 w next _ ih =>
    obtain ⟨js, hjs⟩ := ih
    refine ⟨List.range w.crew.size ++ js, ?_⟩
    rw [hjs, List.foldl_append]
    rfl
  | case2 w next _ => exact ⟨List.range w.crew.size, rfl⟩

/-- The builds of a workshop stay, each with its plan. -/
theorem Crewed.plan_steps (h : w.Crewed) (js : List Nat) (b : BuildId) :
    ((js.foldl Workshop.step w).runs[b]?).map (·.plan) = (w.runs[b]?).map (·.plan) := by
  induction js generalizing w with
  | nil => rfl
  | cons j js ih =>
    rw [List.foldl_cons, ih (h.step j)]
    rcases h.step_cases j with hstay | ⟨m, r, r', activity, table, hm, hr, _, hleads, hdone⟩
    · rw [hstay]
    · rw [hdone.runs]
      split
      · rename_i hb
        rw [hb, hr]
        exact congrArg some hleads.changes.plan
      · rfl

/-! ## The log -/

/-- The log tells of just those actions that have begun. -/
def Logged (w : Workshop) : Prop :=
  ∀ b path, .started b path ∈ w.log ↔ ∃ r, w.runs[b]? = some r ∧ r.Acted path

/-- A deed starts the node that its member turns to, if it was idle, and no other. -/
theorem Deed.hasStarted_iff (hd : w.Deed m r r' activity table)
    (hmanned : r.Manned w.services.locks m.activity) (k : Nat) :
    r'.HasStarted k ↔ r.HasStarted k ∨ m.activity = .idle ∧ activity.index? = some k := by
  have hbusy : m.activity ≠ .idle → (r.HasStarted k ↔
      r.HasStarted k ∨ m.activity = .idle ∧ activity.index? = some k) := fun hne => by
    simp [hne]
  cases hd with
  | rest hact hnext hchanges hrunning =>
    have hindex : activity.index? = none := by rcases hnext with rfl | rfl <;> rfl
    rw [hchanges.hasStarted_iff (hrunning k).2, hrunning, hindex]
    constructor
    · rintro (hk | hk)
      · exact .inl (.inl hk)
      · exact .inl hk
    · rintro (hk | ⟨-, hk⟩)
      · exact .inr hk
      · cases hk
  | @begin r' i n _ _ hact hn _ _ hchanges hrunning =>
    rw [hchanges.hasStarted_iff fun hk => (hrunning k).2 (.inr hk), hrunning, n.index?_activity,
      hact, Option.some.injEq]
    constructor
    · rintro ((rfl | hk) | hk)
      · exact .inr ⟨rfl, rfl⟩
      · exact .inl (.inl hk)
      · exact .inl hk
    · rintro (hk | ⟨-, rfl⟩)
      · exact .inr hk
      · exact .inl (.inl rfl)
  | @finish i keys outcome hact =>
    have hi : r.progress.state? i = some .running := hmanned.running (by rw [hact]; rfl)
    refine Iff.trans ?_ (hbusy (by simp [hact]))
    rw [Run.HasStarted, Run.HasStarted, Run.state?_finish hi]
    by_cases hk : k = i
    · subst hk
      rw [if_pos rfl, hi]
      cases outcome <;> simp [Run.endState, NodeState.executed]
    · rw [if_neg hk]
  | trade hact => exact hbusy (by simp [hact])
  | call hact => exact hbusy (by simp [hact])
  | answer hact => exact hbusy (by simp [hact])
  | resume hact => exact hbusy (by simp [hact])

/-- A member that selects a node says what it has started. -/
theorem started_mem_log_stepIdle (hm : w.crew[j]? = some m) (hact : m.activity = .idle)
    (hdone : w.Done j m r' activity table (w.stepIdle j m r)) :
    .started b path ∈ (w.stepIdle j m r).log ↔ .started b path ∈ w.log ∨ b = m.build ∧
      ∃ (i : Nat) (n : PlannedNode), activity.index? = some i ∧ r.plan.nodes[i]? = some n ∧
        n.Acts path := by
  have hself := hdone.crew_self
  have hplan := (Run.select_spec r w.services.stopRequested w.foreign w.services.locks m.worker
    w.services.table).chain.plan
  rw [stepIdle, Run.beginTurn] at hself ⊢
  generalize r.select w.services.stopRequested w.foreign w.services.locks m.worker
    w.services.table = answer at hself hplan ⊢
  obtain ⟨selection, q, table'⟩ := answer
  -- where nothing was started the member is not busy with a node
  have hnone : activity.index? = none → (.started b path ∈ w.log ↔ .started b path ∈ w.log ∨
      b = m.build ∧ ∃ (i : Nat) (n : PlannedNode), activity.index? = some i ∧
        r.plan.nodes[i]? = some n ∧ n.Acts path) := fun h => by simp [h]
  have hstays : some { m with activity } = w.crew[j]? → activity.index? = none := by
    intro h
    rw [hm, Option.some.injEq] at h
    have hidle : activity = m.activity := congrArg Member.activity h
    rw [hidle, hact]
    rfl
  cases selection with
  | wait => exact hnone (hstays hself.symm)
  | done =>
    have hoff :=
      Option.some.inj (hself.symm.trans ((crew_setActivity hm .off j).trans (if_pos rfl)))
    refine hnone ?_
    rw [show activity = .off from congrArg Member.activity hoff]
    rfl
  | run i keys =>
    dsimp only at hself hplan ⊢
    cases hn : q.plan.nodes[i]? with
    | none =>
      simp only [hn] at hself ⊢
      exact hnone (hstays hself.symm)
    | some n =>
      simp only [hn] at hself ⊢
      have hnext := Option.some.inj (hself.symm.trans ((crew_setActivity hm
        (n.activity m.build w.services.locks i keys) j).trans (if_pos rfl)))
      rw [show activity = _ from congrArg Member.activity hnext, n.index?_activity]
      rw [hplan] at hn
      simp only [setActivity, List.mem_append, PlannedNode.mem_startEvents, Option.some.injEq]
      refine or_congr_right (and_congr_right fun _ => ⟨fun h => ⟨i, n, rfl, hn, h⟩, ?_⟩)
      rintro ⟨k, n', rfl, hn', h⟩
      cases hn.symm.trans hn'
      exact h

/-- A step adds to the log what it has started. -/
theorem started_mem_log_step (hm : w.crew[j]? = some m) (hr : w.runs[m.build]? = some r)
    (hdone : w.Done j m r' activity table (w.step j)) :
    .started b path ∈ (w.step j).log ↔ .started b path ∈ w.log ∨ m.activity = .idle ∧ b = m.build ∧
      ∃ (i : Nat) (n : PlannedNode), activity.index? = some i ∧ r.plan.nodes[i]? = some n ∧
        n.Acts path := by
  by_cases hact : m.activity = .idle
  · rw [step_eq_stepIdle hm hr hact] at hdone ⊢
    rw [started_mem_log_stepIdle hm hact hdone]
    simp [hact]
  · suffices hsame : .started b path ∈ (w.step j).log ↔ .started b path ∈ w.log by
      simp [hsame, hact]
    rw [step]
    simp only [hm, hr]
    cases hm' : m.activity with
    | idle => exact absurd hm' hact
    | off => rfl
    | acting i keys steps outcome =>
      cases steps with
      | nil => rfl
      | cons step rest =>
        dsimp only
        split
        · rw [stepAction]
          split
          · rfl
          · split
            · rfl
            · simp [setActivity, setTable]
        · rfl
    | calling i keys d q => rfl
    | awaiting i keys d q holds =>
      dsimp only
      split <;> rfl
    | resuming i keys holds outcome =>
      dsimp only
      split <;> rfl

theorem Logged.step (h : w.Logged) (hc : w.Crewed) (j : Nat) : (w.step j).Logged := by
  rcases hc.step_cases j with hstay | ⟨m, r, r', activity, table, hm, hr, hdeed, hleads, hdone⟩
  · rw [hstay]
    exact h
  · have hplan : r'.plan = r.plan := hleads.changes.plan
    have hmanned : r.Manned w.services.locks m.activity := by
      obtain ⟨q, hq, hmanned⟩ := hc.manned j m hm
      cases hr.symm.trans hq
      exact hmanned
    intro b path
    rw [started_mem_log_step hm hr hdone, h b path, hdone.runs]
    by_cases hb : b = m.build
    · subst hb
      simp only [hr, if_pos, Option.some.injEq, exists_eq_left', true_and, Run.Acted, hplan,
        hdeed.hasStarted_iff hmanned]
      constructor
      · rintro (⟨i, n, hn, hacts, hi⟩ | ⟨hidle, i, n, hindex, hn, hacts⟩)
        · exact ⟨i, n, hn, hacts, .inl hi⟩
        · exact ⟨i, n, hn, hacts, .inr ⟨hidle, hindex⟩⟩
      · rintro ⟨i, n, hn, hacts, hi | ⟨hidle, hindex⟩⟩
        · exact .inl ⟨i, n, hn, hacts, hi⟩
        · exact .inr ⟨hidle, i, n, hindex, hn, hacts⟩
    · simp [hb]

/-- Whoever steps when, the log tells of just those actions that have begun. -/
theorem Logged.steps (h : w.Logged) (hc : w.Crewed) (js : List Nat) :
    (js.foldl Workshop.step w).Logged := by
  induction js generalizing w with
  | nil => exact h
  | cons j js ih => exact ih (h.step hc j) (hc.step j)

/-- Before the first step nothing has begun and the log is empty. -/
theorem logged_of_start (hlog : w.log = [])
    (hstart : ∀ (b : BuildId) (r : Run), w.runs[b]? = some r → r.progress = .start r.plan) :
    w.Logged := by
  intro b path
  rw [hlog]
  refine iff_of_false List.not_mem_nil ?_
  rintro ⟨r, hr, hacted⟩
  exact Run.not_acted_of_start (hstart b r hr) hacted

end Workshop

end Foreman
