import Foreman.Proofs.Controller.Desk
import Foreman.Proofs.WorkGraph.Exporting

/-!
# What it means to let go of a build

To let go of a build publishes, for every export without an outcome, that its task was not executed;
and that is all it does (`Controller.Desk.releases_publish`). Every other dealing gets the same
answer as if nobody had let go of the build, and leaves the same but for these outcomes. But the
build goes on: its tasks may be scheduled and run after that, and what is published stays
(`Controller.Desk.released_task_runs`).
-/

namespace Foreman

/-! ## Exports that were let go of -/

namespace Exports

variable {e e' : Exports} {path other : TaskPath}

/-- Letting go gives an outcome to what has none. -/
theorem outcome?_abandon : e.abandon.outcome? path =
    if path ∈ e ∧ e.outcome? path = none then some .notExecuted else e.outcome? path := by
  have hmem : path ∈ e ↔ (e[path]?).isSome = true := Std.TreeMap.mem_iff_isSome_getElem?
  simp only [hmem, outcome?, abandon, Std.TreeMap.getElem?_map]
  rcases e[path]? with _ | _ | outcome <;> simp

theorem mem_abandon : path ∈ e.abandon ↔ path ∈ e := by
  rw [abandon, Std.TreeMap.mem_map]

/-- The second exports are the first, but that some tasks were published as not executed. -/
structure Released (gone : TaskPath → Prop) (e e' : Exports) : Prop where
  mem : ∀ path, path ∈ e' ↔ path ∈ e
  released : ∀ path, gone path → e'.outcome? path = some .notExecuted
  kept : ∀ path, ¬ gone path → e'.outcome? path = e.outcome? path

theorem Released.congr {gone gone' : TaskPath → Prop} (h : Released gone e e')
    (hgone : ∀ path, gone' path ↔ gone path) : Released gone' e e' where
  mem := h.mem
  released path hp := h.released path ((hgone path).1 hp)
  kept path hp := h.kept path (mt (hgone path).2 hp)

/-- What is published stays, whatever is published after it. -/
theorem released_respected (gone : TaskPath → Prop) : Respected (Released gone) where
  mem h := h.mem
  handOut other h := by
    refine ⟨fun path => ?_, fun path hp => ?_, fun path hp => ?_⟩
    · rw [handOut, handOut, Std.TreeMap.mem_insertIfNew, Std.TreeMap.mem_insertIfNew, h.mem]
    · rw [outcome?_handOut, h.released path hp]
    · rw [outcome?_handOut, outcome?_handOut, h.kept path hp]
  publish other outcome h := by
    refine ⟨fun path => ?_, fun path hp => ?_, fun path hp => ?_⟩
    · rw [mem_publish, mem_publish, h.mem]
    · exact outcome?_publish_of_some (h.released path hp)
    · simp only [outcome?_publish, h.mem, h.kept path hp]

/-- Letting go once more. -/
theorem Released.abandon {gone : TaskPath → Prop} (h : Released gone e e') :
    Released (fun path => gone path ∨ path ∈ e' ∧ e'.outcome? path = none) e e'.abandon where
  mem path := mem_abandon.trans (h.mem path)
  released path hp := by
    rw [outcome?_abandon]
    rcases hp with hp | hp
    · rw [h.released path hp]
      simp
    · rw [if_pos hp]
  kept path hp := by
    rw [not_or] at hp
    rw [outcome?_abandon, if_neg hp.2, h.kept path hp.1]

end Exports

/-! ## Answers -/

namespace Equally

variable {ε α : Type} {R : α → α → Prop} {a a' : Except ε α}

/-- Both are refused for the same reason, or neither is. -/
theorem told (h : Equally R a a') : a'.map (fun _ => ()) = a.map fun _ => () := by
  cases h <;> rfl

/-- Where what a refusal leaves is related, so is what comes of both. -/
theorem getD (h : Equally R a a') {b b' : α} (hb : R b b') :
    R (a.toOption.getD b) (a'.toOption.getD b') := by
  cases h with
  | error e => exact hb
  | ok h => exact h

end Equally

def Run.choice? (r : Run) : Use → Option (Selection × LockTable)
  | .select first second foreign later locks worker table =>
    let answer := r.selectAnew first second foreign later locks worker table
    some (answer.1, answer.2.2)
  | .finish .. => none

theorem Run.Matches.choice? {Rel : Exports → Exports → Prop} (hr : Exports.Respected Rel)
    {r r' : Run} (h : Run.Matches Rel r r') (u : Use) : r'.choice? u = r.choice? u := by
  cases u with
  | select first second foreign later locks worker table =>
    have hagree := h.selectAnew hr first second foreign later locks worker table
    simp only [Run.choice?, hagree.choice, hagree.table]
  | finish => rfl

namespace Controller

/-- What those who deal with a controller learn. -/
inductive Answer : Type 1
  | told (result : Except GraphError Unit)
  | handed (result : Except ExportError Unit)
  | scheduled {σ : Type} (result : Except GraphError Bool) (others : σ)
  | chosen (choice : Option (Selection × LockTable))
  | stands (call : Option Call)
  | nothing

def answer (c : Controller) : Request → Answer
  | .declare providers task => .told ((c.declare providers task).map fun _ => ())
  | .queue path => .told ((c.queue path).map fun _ => ())
  | .exportTask path => .handed ((c.exportTask path).map fun _ => ())
  | .observeTask path => .handed ((c.observeTask path).map fun _ => ())
  | .populate cross paths others =>
    let (result, _, others) := c.populate cross paths others
    .scheduled result others
  | .scheduleQueued cross others =>
    let (result, _, others) := c.scheduleQueued cross others
    .scheduled result others

def Desk.answer (d : Desk) : Dealing → Answer
  | .request r => d.controller.answer r
  | .finalize => .told (d.controller.finalize.map fun _ => ())
  | .start => .told (d.controller.start.map fun _ => ())
  | .stop => .told (d.controller.stop.map fun _ => ())
  | .proceed k => .stands ((d.calls[k]?).map fun call => (call.next d.controller).1)
  | .work u => .chosen (d.atWork?.bind (·.choice? u))
  | .call | .endJob | .abort _ => .nothing

/-! ## Controllers that differ in their exports -/

variable {Rel : Exports → Exports → Prop} {c c' : Controller}

/-- Two controllers that agree but for the exports of their graphs, and these are related. -/
structure Matches (Rel : Exports → Exports → Prop) (c c' : Controller) : Prop where
  state : c'.state = c.state
  queued : c'.queued = c.queued
  completion : c'.completion = c.completion
  graph : WorkGraph.Matches Rel c.graph c'.graph

theorem Matches.build (h : Matches Rel c c') : c'.build = c.build := by
  rw [Controller.build, h.graph.eq]
  rfl

theorem Matches.require (h : Matches Rel c c') (state : ControllerState) (operation : Operation) :
    c'.require state operation = c.require state operation := by
  rw [Controller.require, Controller.require, h.state, h.build]

/-- Both get another graph. -/
theorem Matches.withGraph (h : Matches Rel c c') {g g' : WorkGraph}
    (hg : WorkGraph.Matches Rel g g') :
    Matches Rel { c with graph := g } { c' with graph := g' } :=
  ⟨h.state, h.queued, h.completion, hg⟩

/-! ## Requests -/

theorem Matches.declare (h : Matches Rel c c') (providers : List (ProviderId × Provider))
    (task : TaskDefinition) :
    Equally (Matches Rel) (c.declare providers task) (c'.declare providers task) := by
  have hg := h.graph.declare providers task
  rw [Controller.declare, Controller.declare]
  generalize c.graph.declare providers task = a, c'.graph.declare providers task = a' at hg
  cases hg with
  | error e => exact .error e
  | ok hg => exact .ok (h.withGraph hg)

theorem Matches.isRequired (h : Matches Rel c c') : c'.graph.isRequired = c.graph.isRequired := by
  rw [h.graph.eq]
  rfl

theorem Matches.want (h : Matches Rel c c') (path : TaskPath) :
    Matches Rel (c.want path) (c'.want path) := by
  rw [Controller.want, Controller.want, h.isRequired]
  split
  · exact h
  · exact ⟨h.state, by rw [h.queued], h.completion, h.graph⟩

theorem Matches.queue (h : Matches Rel c c') (path : TaskPath) :
    Equally (Matches Rel) (c.queue path) (c'.queue path) := by
  rw [Controller.queue, Controller.queue, h.require]
  cases c.require .discoveringTasks .queueTasks with
  | error e => exact .error e
  | ok => exact .ok (h.want path)

theorem Matches.exportTask (hr : Exports.Respected Rel) (h : Matches Rel c c') (path : TaskPath) :
    Equally (Matches Rel) (c.exportTask path) (c'.exportTask path) := by
  have hg := h.graph.handOut hr path
  rw [Controller.exportTask, Controller.exportTask]
  generalize c.graph.handOut path = a, c'.graph.handOut path = a' at hg
  cases hg with
  | error e => exact .error e
  | ok hg =>
    have hc := h.withGraph hg
    simp only [bind, Except.bind, pure, Except.pure]
    by_cases hs : c.state = .discoveringTasks
    · rw [if_pos hs, if_pos (h.state.trans hs)]
      exact .ok (hc.want path)
    · rw [if_neg hs, if_neg (h.state ▸ hs)]
      exact .ok hc

theorem Matches.observeTask (hr : Exports.Respected Rel) (h : Matches Rel c c') (path : TaskPath) :
    Equally (Matches Rel) (c.observeTask path) (c'.observeTask path) := by
  have hg := h.graph.handOut hr path
  rw [Controller.observeTask, Controller.observeTask]
  generalize c.graph.handOut path = a, c'.graph.handOut path = a' at hg
  cases hg with
  | error e => exact .error e
  | ok hg => exact .ok (h.withGraph hg)

section Batches

variable {σ : Type} (cross : Option (CrossBuild σ)) (others : σ)

/-- Two batches with the same answer that leave the other builds alike. -/
structure Schedule (Rel : Exports → Exports → Prop)
    (a a' : Except GraphError Bool × Controller × σ) :
    Prop where
  result : a'.1 = a.1
  matched : Matches Rel a.2.1 a'.2.1
  others : a'.2.2 = a.2.2

theorem Matches.populate (h : Matches Rel c c') (paths : List TaskPath) :
    Schedule Rel (c.populate cross paths others) (c'.populate cross paths others) := by
  rw [Controller.populate, Controller.populate, h.require]
  cases c.require .discoveringTasks .populateWorkGraph with
  | error e => exact ⟨rfl, h, rfl⟩
  | ok =>
    obtain ⟨hresult, hgraph, hothers⟩ := h.graph.schedule cross paths others
    exact ⟨hresult, h.withGraph hgraph, hothers⟩

theorem Matches.scheduleQueued (h : Matches Rel c c') :
    Schedule Rel (c.scheduleQueued cross others) (c'.scheduleQueued cross others) := by
  by_cases hs : c.state = .discoveringTasks
  · have hbatch : c'.batch = c.batch := by rw [batch, batch, h.queued, h.isRequired]
    rw [scheduleQueued_eq cross others hs, scheduleQueued_eq cross others
      (h.state.trans hs), hbatch]
    split
    · exact ⟨rfl, ⟨h.state, rfl, h.completion, h.graph⟩, rfl⟩
    · obtain ⟨hresult, hgraph, hothers⟩ := h.graph.schedule cross c.batch others
      exact ⟨hresult, ⟨h.state, rfl, h.completion, hgraph⟩, hothers⟩
  · rw [Controller.scheduleQueued, Controller.scheduleQueued, h.require, Controller.require,
      if_neg hs]
    exact ⟨rfl, h, rfl⟩

end Batches

/-- Both controllers answer a request alike, and match after it. -/
theorem Matches.request (hr : Exports.Respected Rel) (h : Matches Rel c c') (r : Request) :
    c'.answer r = c.answer r ∧ Matches Rel (c.after r) (c'.after r) := by
  cases r with
  | declare providers task =>
    have hok := h.declare providers task
    exact ⟨congrArg Answer.told hok.told, hok.getD h⟩
  | queue path =>
    have hok := h.queue path
    exact ⟨congrArg Answer.told hok.told, hok.getD h⟩
  | exportTask path =>
    have hok := h.exportTask hr path
    exact ⟨congrArg Answer.handed hok.told, hok.getD h⟩
  | observeTask path =>
    have hok := h.observeTask hr path
    exact ⟨congrArg Answer.handed hok.told, hok.getD h⟩
  | populate cross paths others =>
    have hs := h.populate cross others paths
    exact ⟨by simp only [answer, hs.result, hs.others], hs.matched⟩
  | scheduleQueued cross others =>
    have hs := h.scheduleQueued cross others
    exact ⟨by simp only [answer, hs.result, hs.others], hs.matched⟩

/-! ## The other dealings -/

theorem Matches.finalize (hr : Exports.Respected Rel) (h : Matches Rel c c') :
    Equally (Matches Rel) c.finalize c'.finalize := by
  have hg := h.graph.freeze hr
  rw [Controller.finalize, Controller.finalize, h.require, h.queued, h.build]
  generalize c.graph.freeze = a, c'.graph.freeze = a' at hg
  cases c.require .discoveringTasks .finalizeWorkGraph with
  | error e => exact .error e
  | ok =>
    simp only [bind, Except.bind]
    split
    · cases hg with
      | error e => exact .error e
      | ok hg => exact .ok ⟨rfl, rfl, h.completion, hg⟩
    · exact .error _

theorem Matches.start (h : Matches Rel c c') : Equally (Matches Rel) c.start c'.start := by
  have hg := h.graph.beginExecution
  rw [Controller.start, Controller.start, h.require]
  generalize c.graph.beginExecution = a, c'.graph.beginExecution = a' at hg
  cases c.require .readyToRun .startExecution with
  | error e => exact .error e
  | ok =>
    simp only [bind, Except.bind]
    cases hg with
    | error e => exact .error e
    | ok hg => exact .ok ⟨rfl, h.queued, h.completion, hg.2⟩

theorem Matches.claim (h : Matches Rel c c') : Equally (Matches Rel) c.claim c'.claim := by
  rw [Controller.claim, Controller.claim, h.require, h.completion, h.build]
  cases c.require .runningTasks .awaitCompletion with
  | error e => exact .error e
  | ok =>
    simp only [bind, Except.bind]
    split
    · exact .error _
    · exact .ok ⟨h.state, h.queued, rfl, h.graph⟩

theorem Matches.conclude (h : Matches Rel c c') : Equally (Matches Rel) c.conclude c'.conclude := by
  have hg := h.graph.complete
  rw [Controller.conclude, Controller.conclude]
  generalize c.graph.complete = a, c'.graph.complete = a' at hg
  cases hg with
  | error e => exact .error e
  | ok hg => exact .ok ⟨rfl, h.queued, h.completion, hg⟩

/-- A call takes the same step with both. -/
theorem Matches.next (h : Matches Rel c c') (call : Call) :
    (call.next c').1 = (call.next c).1 ∧ Matches Rel (call.next c).2 (call.next c').2 := by
  cases call with
  | made =>
    have hok := h.claim
    simp only [Call.next]
    generalize c.claim = a, c'.claim = a' at hok
    cases hok with
    | error e => exact ⟨rfl, h⟩
    | ok hc => exact ⟨rfl, hc⟩
  | waiting =>
    simp only [Call.next, take?, h.completion]
    cases c.completion.finished with
    | true => exact ⟨rfl, h.state, h.queued, rfl, h.graph⟩
    | false => exact ⟨rfl, h⟩
  | taken failures =>
    have hok := h.conclude
    simp only [Call.next]
    generalize c.conclude = a, c'.conclude = a' at hok
    cases hok with
    | error e => exact ⟨rfl, h⟩
    | ok hc => exact ⟨rfl, hc⟩
  | returned answer => exact ⟨rfl, h⟩

/-- The job ends in the same way for both. -/
theorem Matches.finishJob (hr : Exports.Respected Rel) (h : Matches Rel c c') {r r' : Run}
    (hrun : Run.Matches Rel r r') : c'.jobFailures r' = c.jobFailures r ∧
      Matches Rel (c.finishJob r) (c'.finishJob r') := by
  obtain ⟨hresult, hrun⟩ := hrun.takeResult hr
  have hfailures : c'.jobFailures r' = c.jobFailures r := by
    rw [jobFailures, jobFailures, hresult, h.build]
  refine ⟨hfailures, ?_⟩
  rw [finishJob_eq, finishJob_eq, hfailures, h.completion]
  exact ⟨h.state, h.queued, rfl, h.graph.keep hrun⟩

theorem Matches.refuse (hr : Exports.Respected Rel) (h : Matches Rel c c') (error : ErrorChain) :
    Matches Rel (c.refuse error) (c'.refuse error) := by
  have hrun := h.graph.run?
  have hplan : Matches Rel c.abandonPlan c'.abandonPlan := by
    rw [Controller.abandonPlan, Controller.abandonPlan]
    generalize c.graph.run? = a, c'.graph.run? = a' at hrun
    cases hrun with
    | none => exact h
    | some hrun => exact h.withGraph (h.graph.keep (hrun.abandonExports hr))
  rw [Controller.refuse, Controller.refuse, h.completion, h.build]
  exact ⟨hplan.state, hplan.queued, rfl, hplan.graph⟩

namespace Desk

variable {d d' : Desk}

/-- Two desks that agree but for the exports of their build, and these are related. -/
structure Matches (Rel : Exports → Exports → Prop) (d d' : Desk) : Prop where
  controller : Controller.Matches Rel d.controller d'.controller
  calls : d'.calls = d.calls
  report : d'.report = d.report

theorem Matches.atWork? (h : Matches Rel d d') :
    Option.Rel (Run.Matches Rel) d.atWork? d'.atWork? := by
  rw [Desk.atWork?, Desk.atWork?, h.controller.state, h.report]
  split
  · exact h.controller.graph.run?
  · exact .none

/-- Both desks answer a dealing alike, and match after it, but for a release. -/
theorem Matches.after (hr : Exports.Respected Rel) (h : Matches Rel d d') (x : Dealing)
    (hx : x ≠ .stop) : d'.answer x = d.answer x ∧ Matches Rel (d.after x) (d'.after x) := by
  have hwork := h.atWork?
  have hc := h.controller
  cases x with
  | request r =>
    obtain ⟨hanswer, hafter⟩ := hc.request hr r
    exact ⟨hanswer, hafter, h.calls, h.report⟩
  | finalize =>
    have hok := hc.finalize hr
    exact ⟨congrArg Answer.told hok.told, hok.getD hc, h.calls, h.report⟩
  | start =>
    have hok := hc.start
    exact ⟨congrArg Answer.told hok.told, hok.getD hc, h.calls, h.report⟩
  | stop => exact absurd rfl hx
  | call => exact ⟨rfl, hc, congrArg (· ++ [Call.made]) h.calls, h.report⟩
  | proceed k =>
    rw [answer, answer, Desk.after, Desk.after, h.calls]
    cases d.calls[k]? with
    | none => exact ⟨rfl, hc, h.calls, h.report⟩
    | some call =>
      obtain ⟨hcall, hnext⟩ := hc.next call
      exact ⟨by simp only [Option.map_some, hcall], hnext, by simp only [hcall], h.report⟩
  | work u =>
    rw [answer, answer, Desk.after, Desk.after]
    generalize d.atWork? = a, d'.atWork? = a' at hwork
    cases hwork with
    | none => exact ⟨rfl, h⟩
    | some hrun =>
      exact ⟨by simp only [Option.bind_some, hrun.choice? hr],
        hc.withGraph (hc.graph.keep (hrun.use hr u)), h.calls, h.report⟩
  | endJob =>
    refine ⟨rfl, ?_⟩
    rw [Desk.after, Desk.after]
    generalize d.atWork? = a, d'.atWork? = a' at hwork
    cases hwork with
    | none => exact h
    | some hrun =>
      obtain ⟨hfailures, hfinish⟩ := hc.finishJob hr hrun
      exact ⟨hfinish, h.calls, congrArg some hfailures⟩
  | abort error =>
    refine ⟨rfl, ?_⟩
    rw [Desk.after, Desk.after]
    generalize d.atWork? = a, d'.atWork? = a' at hwork
    cases hwork with
    | none => exact h
    | some hrun => exact ⟨hc.refuse hr error, h.calls, by rw [hc.build]⟩

/-! ## Releases -/

/-- The release of the build is accepted, and nothing is known of the task that was handed out. -/
def LetsGo (d : Desk) (path : TaskPath) : Prop :=
  d.controller.state ≠ .runningTasks ∧ path ∈ d.controller.graph.exports ∧
    d.controller.graph.exports.outcome? path = none

/-- One of the dealings is a release that lets go of the task. -/
def LetGo (d : Desk) : List Dealing → TaskPath → Prop
  | [], _ => False
  | x :: rest, path => x = .stop ∧ d.LetsGo path ∨ (d.after x).LetGo rest path

end Desk

/-- Whether the dealing is a release. -/
def Dealing.isStop : Dealing → Bool
  | .stop => true
  | _ => false

namespace Desk

/-- The answers to all dealings but releases. -/
def answers (d : Desk) : List Dealing → List Answer
  | [] => []
  | x :: rest =>
    if x.isStop then (d.after x).answers rest else d.answer x :: (d.after x).answers rest

variable {d d' : Desk}

theorem Matches.mono {Rel' : Exports → Exports → Prop} (h : Matches Rel d d')
    (hrel : Rel d.controller.graph.exports d'.controller.graph.exports →
      Rel' d.controller.graph.exports d'.controller.graph.exports) : Matches Rel' d d' :=
  ⟨⟨h.controller.state, h.controller.queued, h.controller.completion,
    h.controller.graph.eq, hrel h.controller.graph.exports⟩, h.calls, h.report⟩

/-- A release on one side. -/
theorem Matches.stop {gone : TaskPath → Prop} (h : Matches (Exports.Released gone) d d') :
    Matches (Exports.Released fun path => gone path ∨ d'.LetsGo path) d (d'.after .stop) := by
  rw [Desk.after]
  by_cases hs : d'.controller.state = .runningTasks
  · rw [Controller.stop, if_pos hs]
    refine h.mono fun hrel => ⟨hrel.mem, fun path hp => ?_, fun path hp => ?_⟩
    · exact hrel.released path (hp.resolve_right fun hlets => hlets.1 hs)
    · exact hrel.kept path fun hgone => hp (.inl hgone)
  · rw [Controller.stop, if_neg hs]
    have hrel := h.controller.graph.exports.abandon
    refine ⟨⟨h.controller.state, h.controller.queued, h.controller.completion, ?_, ?_⟩, h.calls,
      h.report⟩
    · change d'.controller.graph.abandonExports = _
      rw [h.controller.graph.eq]
      rfl
    · refine ⟨hrel.mem, fun path hp => ?_, fun path hp => ?_⟩
      · exact hrel.released path (hp.imp id fun hlets => hlets.2)
      · exact hrel.kept path fun hgone => hp (hgone.imp id fun hnone => ⟨hs, hnone⟩)

/-- Releases inserted anywhere change no other answer, and leave all but outcomes as it is. -/
theorem Matches.afterAll {gone : TaskPath → Prop} (h : Matches (Exports.Released gone) d d')
    (dealings : List Dealing) :
    d'.answers dealings = d.answers (dealings.filter (!·.isStop)) ∧
      Matches (Exports.Released fun path => gone path ∨ d'.LetGo dealings path)
        (d.afterAll (dealings.filter (!·.isStop))) (d'.afterAll dealings) := by
  -- each release adds to what is gone, on one side only
  induction dealings generalizing d d' gone with
  | nil => exact ⟨rfl, h.mono fun hrel => by simpa [LetGo] using hrel⟩
  | cons x rest ih =>
    by_cases hx : x = .stop
    · subst hx
      obtain ⟨hanswers, hmatch⟩ := ih h.stop
      refine ⟨hanswers, hmatch.mono fun hrel => hrel.congr fun path => ?_⟩
      rw [LetGo, or_assoc, and_iff_right rfl]
    · have hstop : x.isStop = false := by
        cases x <;> first | rfl | exact absurd rfl hx
      obtain ⟨hanswer, hafter⟩ := h.after (Exports.released_respected gone) x hx
      obtain ⟨hanswers, hmatch⟩ := ih hafter
      rw [List.filter_cons, if_pos (by simp [hstop])]
      refine ⟨?_, hmatch.mono fun hrel => hrel.congr fun path => ?_⟩
      · rw [answers, answers, hanswer, hanswers]
      · have hrest : (x = .stop ∧ d'.LetsGo path ∨ (d'.after x).LetGo rest path) ↔
            (d'.after x).LetGo rest path := or_iff_right fun hs => hx hs.1
        rw [LetGo, hrest]

theorem matches_self (build : BuildId) :
    Matches (Exports.Released fun _ => False) (new build) (new build) :=
  ⟨⟨rfl, rfl, rfl, ⟨rfl, fun _ => .rfl, fun _ h => h.elim, fun _ _ => rfl⟩⟩, rfl, rfl⟩

/-- What the releases among any dealings do: they publish for each task that they let go of that it
was not executed. All other answers, the states of all nodes, the calls and the failures are as
without them, and so are the other outcomes. So they do no harm exactly if each task that they let
go of turns out not to be executed. -/
theorem releases_publish (build : BuildId) (dealings : List Dealing) :
    (new build).answers dealings = (new build).answers (dealings.filter (!·.isStop)) ∧
      Matches (Exports.Released ((new build).LetGo dealings))
        ((new build).afterAll (dealings.filter (!·.isStop))) ((new build).afterAll dealings) ∧
      ((∀ path, ((new build).afterAll dealings).controller.graph.exports.outcome? path =
          ((new build).afterAll
            (dealings.filter (!·.isStop))).controller.graph.exports.outcome? path) ↔
        ∀ path, (new build).LetGo dealings path →
          ((new build).afterAll
            (dealings.filter (!·.isStop))).controller.graph.exports.outcome? path =
              some .notExecuted) := by
  obtain ⟨hanswers, hmatch⟩ := (matches_self build).afterAll dealings
  have hreleased : Matches (Exports.Released ((new build).LetGo dealings))
      ((new build).afterAll (dealings.filter (!·.isStop))) ((new build).afterAll dealings) :=
    hmatch.mono fun hrel => hrel.congr fun path => (false_or _).symm.to_iff
  refine ⟨hanswers, hreleased, fun hsame path hpath => ?_, fun hcalm path => ?_⟩
  · rw [← hsame]
    exact hreleased.controller.graph.exports.released path hpath
  · by_cases hpath : (new build).LetGo dealings path
    · rw [hcalm path hpath]
      exact hreleased.controller.graph.exports.released path hpath
    · exact hreleased.controller.graph.exports.kept path hpath

def onlyTask : TaskPath := ⟨":", "build"⟩

/-- A task is handed out; the build is let go of and then led to its end, where the task
succeeds. -/
def hastyDealings : List Dealing :=
  let select : Run.Use := .select false false (fun _ _ => none) (fun _ _ => none) ⟨true⟩ 0
    (.empty 1)
  [.request (.declare [] (.plain onlyTask)), .request (.exportTask onlyTask), .stop,
    .request (.scheduleQueued (none : Option (CrossBuild Unit)) ()), .finalize, .start,
    .work select, .work (.finish 0 .success), .work select, .endJob, .call,
    .proceed 0, .proceed 0, .proceed 0]

/-- The release is accepted, and the task runs and succeeds all the same; but others are told that
it was not executed. Without the release they are told that it succeeded. -/
theorem released_task_runs : ∃ d calm : Desk, d = (new ⟨"main"⟩).afterAll hastyDealings ∧
    calm = (new ⟨"main"⟩).afterAll (hastyDealings.filter (!·.isStop)) ∧
    (((new ⟨"main"⟩).afterAll (hastyDealings.take 2)).controller.stop.toOption).isSome = true ∧
    d.controller.graph.stateOf? onlyTask = some .succeeded ∧
    d.controller.graph.exports.outcome? onlyTask = some .notExecuted ∧
    calm.controller.graph.stateOf? onlyTask = some .succeeded ∧
    calm.controller.graph.exports.outcome? onlyTask = some .succeeded :=
  ⟨_, _, rfl, rfl, by decide +kernel, by decide +kernel, by decide +kernel, by decide +kernel,
    by decide +kernel⟩

end Desk

end Controller

end Foreman
