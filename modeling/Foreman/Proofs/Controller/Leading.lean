import Foreman.Proofs.BuildTree.Launching
import Foreman.Proofs.Controller.Desk
import Foreman.Proofs.Run.Reporting

/-!
# A controller through its states

The state of a controller tells how far its graph is: it is open to requests until it is frozen, and
from then on it has a run whose books are right until the job has ended (`Controller.Led`). Neither
a request nor a release leads the controller elsewhere.
-/

namespace Foreman

namespace Controller

variable {c c' : Controller} {report : Option (List BuildFailure)}

/-- What the state of a controller says of its graph; until the start nothing has ended. -/
inductive Led (c : Controller) : Option (List BuildFailure) → Prop
  | discovering (hopen : c.Open) (hpending : c.completion = .pending) : Led c none
  | ready (hstate : c.state = .readyToRun) (hphase : c.graph.phase = .finalized)
    (hrun : ∃ r, c.graph.run? = some r ∧ r.Audited) (hpending : c.completion = .pending) :
    Led c none
  | running (report : Option (List BuildFailure)) (hstate : c.state = .runningTasks)
    (hphase : c.graph.phase = .running)
    (hrun : report = none → ∃ r, c.graph.run? = some r ∧ r.Audited) : Led c report
  | finished (report : Option (List BuildFailure)) (hstate : c.state = .finished) : Led c report

/-- A run with its books right, whatever its exports. -/
theorem audited_of_eq {r r' : Run} (h : r.Audited) (hplan : r'.plan = r.plan)
    (hprogress : r'.progress = r.progress) : r'.Audited := by
  obtain ⟨plan, progress, exports⟩ := r
  obtain ⟨plan', progress', exports'⟩ := r'
  cases hplan
  cases hprogress
  exact ⟨⟨h.size, h.error, h.running, h.remaining, h.known⟩, h.once, h.tolerated⟩

/-- Another look at the registry and the exports of a graph finds its run as it was. -/
theorem exists_run_of_eq {g : WorkGraph} (h : ∃ r, g.run? = some r ∧ r.Audited)
    (registry : Registry) (exports : Exports) :
    ∃ r, ({ g with registry, exports } : WorkGraph).run? = some r ∧ r.Audited := by
  obtain ⟨r, hr, haudit⟩ := h
  rw [WorkGraph.run?, Option.map_eq_some_iff] at hr
  obtain ⟨plan, hplan, rfl⟩ := hr
  exact ⟨⟨plan, g.progress, exports⟩, by simp only [WorkGraph.run?, hplan]; rfl,
    audited_of_eq haudit rfl rfl⟩

theorem Led.congr (h : Led c report) (registry : Registry) (exports : Exports)
    (hstate : c.state ≠ .discoveringTasks) :
    Led { c with graph := { c.graph with registry, exports } } report := by
  cases h with
  | discovering hopen => exact absurd hopen.state hstate
  | ready hs hphase hrun hpending => exact .ready hs hphase (exists_run_of_eq hrun _ _) hpending
  | running _ hs hphase hrun => exact .running _ hs hphase fun hn => exists_run_of_eq (hrun hn) _ _
  | finished _ hs => exact .finished _ hs

/-- Where nothing has ended nothing is claimed. -/
theorem Led.pending (h : Led c report) (hs : c.state = .discoveringTasks ∨ c.state = .readyToRun) :
    c.completion = .pending := by
  cases h with
  | discovering _ hpending => exact hpending
  | ready _ _ _ hpending => exact hpending
  | running _ hrunning => simp [hrunning] at hs
  | finished _ hfinished => simp [hfinished] at hs

/-- While tasks are discovered the graph is open to requests. -/
theorem Led.open_of_discovering (h : Led c report) (hs : c.state = .discoveringTasks) :
    c.Open ∧ report = none := by
  cases h with
  | discovering hopen => exact ⟨hopen, rfl⟩
  | ready hstate => simp [hstate] at hs
  | running _ hstate => simp [hstate] at hs
  | finished _ hstate => simp [hstate] at hs

/-- While the tasks are running so is the graph, and its run is in order until the job ends. -/
theorem Led.at_work (h : Led c report) (hs : c.state = .runningTasks) : c.graph.phase = .running ∧
    (report = none → ∃ r, c.graph.run? = some r ∧ r.Audited) := by
  cases h with
  | discovering hopen => simp [hopen.state] at hs
  | ready hready => simp [hready] at hs
  | running _ _ hphase hrun => exact ⟨hphase, hrun⟩
  | finished _ hfinished => simp [hfinished] at hs

/-! ## Requests -/

section Requests

variable {path : TaskPath}

theorem handOut_eq {g g' : WorkGraph} (h : g.handOut path = .ok g') :
    ∃ exports, g' = { g with exports } := by
  obtain ⟨-, rfl⟩ | ⟨-, -, rfl⟩ := WorkGraph.handOut_cases h
  · exact ⟨g'.exports, rfl⟩
  · exact ⟨_, rfl⟩

theorem require_ne {operation : Operation} (h : c.state ≠ .discoveringTasks) :
    c.require .discoveringTasks operation =
      .error (.illegalState operation (.controllerIs c.build c.state)) := by
  rw [require, if_neg h]

/-- Once the graph is frozen a request changes at most what is declared and what is handed out. -/
theorem after_eq (h : c.state ≠ .discoveringTasks) (r : Request) :
    ∃ registry exports, c.after r = { c with graph := { c.graph with registry, exports } } := by
  have hsame : ∃ registry exports, c = { c with graph := { c.graph with registry, exports } } :=
    ⟨_, _, rfl⟩
  cases r with
  | declare providers task =>
    rw [after]
    cases hok : c.declare providers task with
    | error e => exact hsame
    | ok c' =>
      obtain ⟨g, hg, rfl⟩ := eq_of_declare hok
      obtain ⟨registry, _, rfl⟩ := WorkGraph.declare_eq hg
      exact ⟨_, _, rfl⟩
  | queue path =>
    rw [after, queue, require_ne h]
    exact hsame
  | exportTask path =>
    rw [after]
    cases hok : c.exportTask path with
    | error e => exact hsame
    | ok c' =>
      obtain ⟨g, hg, rfl⟩ := eq_of_exportTask hok
      obtain ⟨exports, rfl⟩ := handOut_eq hg
      rw [if_neg h]
      exact ⟨_, _, rfl⟩
  | observeTask path =>
    rw [after]
    cases hok : c.observeTask path with
    | error e => exact hsame
    | ok c' =>
      obtain ⟨g, hg, rfl⟩ := eq_of_observeTask hok
      obtain ⟨exports, rfl⟩ := handOut_eq hg
      exact ⟨_, _, rfl⟩
  | populate cross paths others =>
    rw [after, populate, require_ne h]
    exact hsame
  | scheduleQueued cross others =>
    rw [after, scheduleQueued, require_ne h]
    exact hsame

theorem completion_want (c : Controller) (path : TaskPath) :
    (c.want path).completion = c.completion := by
  rw [want]
  split
  · rfl
  · rfl

/-- No request touches what has ended. -/
theorem completion_after (c : Controller) (r : Request) :
    (c.after r).completion = c.completion := by
  by_cases hs : c.state = .discoveringTasks
  · cases r with
    | declare providers task =>
      rw [after]
      cases hok : c.declare providers task with
      | error e => rfl
      | ok c' =>
        obtain ⟨g, _, rfl⟩ := eq_of_declare hok
        rfl
    | queue path =>
      rw [after, queue, require_eq hs]
      exact completion_want c path
    | exportTask path =>
      rw [after]
      cases hok : c.exportTask path with
      | error e => rfl
      | ok c' =>
        obtain ⟨g, _, rfl⟩ := eq_of_exportTask hok
        rw [if_pos hs]
        exact completion_want _ path
    | observeTask path =>
      rw [after]
      cases hok : c.observeTask path with
      | error e => rfl
      | ok c' =>
        obtain ⟨g, _, rfl⟩ := eq_of_observeTask hok
        rfl
    | populate cross paths others => rw [after, populate, require_eq hs]
    | scheduleQueued cross others =>
      rw [after, scheduleQueued_eq cross others hs]
      split
      · rfl
      · rfl
  · obtain ⟨registry, exports, h⟩ := after_eq hs r
    rw [h]

theorem state_after (h : Led c report) (r : Request) : (c.after r).state = c.state := by
  by_cases hs : c.state = .discoveringTasks
  · rw [hs, (after_spec (h.open_of_discovering hs).1 r).1.state]
  · obtain ⟨registry, exports, h⟩ := after_eq hs r
    rw [h]

theorem Led.after (h : Led c report) (r : Request) : Led (c.after r) report := by
  by_cases hs : c.state = .discoveringTasks
  · have hpending := (completion_after c r).trans (h.pending (.inl hs))
    obtain ⟨hopen, rfl⟩ := h.open_of_discovering hs
    exact .discovering (after_spec hopen r).1 hpending
  · obtain ⟨registry, exports, heq⟩ := after_eq hs r
    rw [heq]
    exact h.congr registry exports hs

end Requests

/-! ## Freezing, starting and letting go -/

theorem eq_of_finalize (hok : c.finalize = .ok c') : c.state = .discoveringTasks ∧
    ∃ g, c.graph.freeze = .ok g ∧ c' = { c with graph := g, state := .readyToRun } := by
  by_cases hs : c.state = .discoveringTasks
  · refine ⟨hs, ?_⟩
    rw [finalize, require_eq hs] at hok
    simp only [bind, Except.bind] at hok
    split at hok
    · cases hg : c.graph.freeze with
      | error e => simp [hg] at hok
      | ok g =>
        simp only [hg, pure, Except.pure, Except.ok.injEq] at hok
        exact ⟨g, rfl, hok.symm⟩
    · cases hok
  · rw [finalize, require_ne hs] at hok
    cases hok

theorem eq_of_start (hok : c.start = .ok c') : c.state = .readyToRun ∧
    c' = { c with graph := { c.graph with phase := .running }, state := .runningTasks } := by
  by_cases hs : c.state = .readyToRun
  · refine ⟨hs, ?_⟩
    simp only [start, require, if_pos hs, bind, Except.bind, WorkGraph.beginExecution,
      WorkGraph.require] at hok
    split at hok
    · cases hok
    · rename_i answer hanswer
      split at hanswer
      · cases hanswer
      · split at hanswer
        · cases hanswer
          exact (Except.ok.inj hok).symm
        · cases hanswer
  · rw [start, require, if_neg hs] at hok
    cases hok

theorem Led.finalize (h : Led c report) (hok : c.finalize = .ok c') : Led c' report := by
  obtain ⟨hs, g, hg, rfl⟩ := eq_of_finalize hok
  have hpending := h.pending (.inl hs)
  obtain ⟨_, rfl⟩ := h.open_of_discovering hs
  obtain ⟨footprints, p, hto⟩ := WorkGraph.freeze_spec hg
  refine .ready rfl ?_ ⟨_, hto.run?_eq, Run.start_audited _ _⟩ hpending
  rw [hto.eq]
  rfl

theorem Led.start (h : Led c report) (hok : c.start = .ok c') : Led c' report := by
  obtain ⟨hs, rfl⟩ := eq_of_start hok
  cases h with
  | discovering hopen => simp [hopen.state] at hs
  | ready _ _ hrun => exact .running _ rfl rfl fun _ => hrun
  | running _ hstate => simp [hstate] at hs
  | finished _ hstate => simp [hstate] at hs

theorem Led.stop (h : Led c report) (hok : c.stop = .ok c') : Led c' report := by
  cases eq_of_stop hok
  by_cases hs : c.state = .discoveringTasks
  · have hpending := h.pending (.inl hs)
    obtain ⟨hopen, rfl⟩ := h.open_of_discovering hs
    exact .discovering (hopen.congr rfl rfl rfl rfl rfl rfl) hpending
  · exact h.congr c.graph.registry _ hs

theorem claim_eq_ok (hs : c.state = .runningTasks) (hclaimed : c.completion.claimed = false) :
    c.claim = .ok { c with completion := { c.completion with claimed := true } } := by
  simp [claim, require, hs, hclaimed, bind, Except.bind, pure, Except.pure]

/-! ## The job -/

/-- The run that a graph has kept is its run. -/
theorem run?_keep {g : WorkGraph} {r r' : Run} (hr : g.run? = some r) (hplan : r'.plan = r.plan) :
    (g.keep r').run? = some r' := by
  rw [WorkGraph.run?, Option.map_eq_some_iff] at hr
  obtain ⟨plan, hp, rfl⟩ := hr
  have hkept : (g.keep r').plan = some r'.plan := hp.trans (congrArg some hplan.symm)
  rw [WorkGraph.run?, hkept]
  rfl

/-- A run that was not broken ends with the failures it has noted. -/
theorem jobFailures_eq {r : Run} (h : r.progress.error = none) (c : Controller) :
    c.jobFailures r = r.progress.failures := by
  rw [jobFailures, Run.takeResult_fst h]

theorem refuse_eq {r : Run} (hr : c.graph.run? = some r) (error : ErrorChain) : c.refuse error =
    { c with
      graph := c.graph.keep r.abandonExports
      completion := c.completion.finish [.executionAborted c.build error] } := by
  rw [refuse, abandonPlan, hr]

end Controller

end Foreman
