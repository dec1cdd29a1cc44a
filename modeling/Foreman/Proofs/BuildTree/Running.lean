import Foreman.Proofs.BuildTree.Executing
import Foreman.Proofs.BuildTree.Starting

/-!
# When a run executes its tree

A run of a fresh tree gets to the execution of its tasks, in all builds, just if nothing speaks
against its start (`BuildTree.Startable`). Then it starts every build with the tasks that run there
(`Launches`), the executor works on their jobs (`Executes`), and the run answers with what these
come to (`Answers`). Otherwise it fails, and no action of any build has begun (`Fresh.starts_iff`).
-/

namespace Foreman

namespace Controller

variable {b : BuildId} {c c' : Controller} {path : TaskPath}

def collected (c : Controller) : Controller :=
  { c with
    graph := { c.graph with phase := .completed }
    state := .finished
    completion := ⟨true, true, []⟩ }

/-- Awaiting a build collects its failures, once its job has ended. -/
theorem Engaged.await?_eq (h : c.Engaged b) : c.await? =
    if c.completion.finished then
      some (.ok c.completion.failures, c.collected)
    else none := by
  rw [await?, claim_eq_ok h.state h.claimed]
  dsimp only
  rw [collect?]
  dsimp only
  split
  · rename_i hfinished
    simp only [WorkGraph.complete, WorkGraph.require, if_pos h.phase, bind, Except.bind, pure,
      Except.pure, hfinished]
    rfl
  · rfl

@[simp]
theorem acted_collected : c.collected.Acted path ↔ c.Acted path := Iff.rfl

/-- A build of which no task has run. -/
def Unstarted (c : Controller) : Prop := ∀ r, c.graph.run? = some r → r.progress = .start r.plan

theorem Unstarted.not_acted (h : c.Unstarted) : ¬ c.Acted path := by
  rintro ⟨r, hr, hacted⟩
  exact Run.not_acted_of_start (h r hr) hacted

theorem unstarted_of_finalize (h : c.finalize = .ok c') : c'.Unstarted := by
  obtain ⟨-, g, hg, rfl⟩ := eq_of_finalize h
  obtain ⟨footprints, p, hto⟩ := WorkGraph.freeze_spec hg
  intro r hr
  cases hto.run?_eq.symm.trans hr
  rfl

/-- Letting go of a build leaves what has run. -/
theorem acted_iff_of_stop (h : c.stop = .ok c') : c'.Acted path ↔ c.Acted path := by
  cases eq_of_stop h
  simp only [Acted, WorkGraph.run?, WorkGraph.abandonExports, Option.map_eq_some_iff]
  constructor
  · rintro ⟨r, ⟨plan, hplan, rfl⟩, hacted⟩
    exact ⟨_, ⟨plan, hplan, rfl⟩, (Run.acted_congr rfl rfl).1 hacted⟩
  · rintro ⟨r, ⟨plan, hplan, rfl⟩, hacted⟩
    exact ⟨_, ⟨plan, hplan, rfl⟩, (Run.acted_congr rfl rfl).1 hacted⟩

end Controller

namespace BuildTree

variable {t t' t₀ t₁ t₂ : BuildTree} {b : BuildId} {c c' : Controller} {builds : List BuildId}
  {log : List Event} {path : TaskPath} {caller : Worker} {executor : Executor}

/-! ## What jobs come to -/

/-- The failures that the jobs have reported, build by build. -/
def reported (t : BuildTree) : List BuildFailure :=
  t.builds.values.flatMap (·.completion.failures)

/-- What a run answers when its jobs have come this far: nothing if one of them has not ended,
otherwise what they all have reported. -/
inductive Answers (t : BuildTree) (log : List Event) :
    Option (Except GraphError (List BuildFailure) × BuildTree × List Event) → Prop
  | stuck {b : BuildId} {c : Controller} (hc : t.builds[b]? = some c)
      (hopen : c.completion.finished = false) : Answers t log none
  | ended {t' : BuildTree}
      (hended : ∀ (b : BuildId) (c : Controller), t.builds[b]? = some c →
        c.completion.finished = true)
      (hacted : ∀ b path, t'.Acted b path ↔ t.Acted b path) :
      Answers t log (some (.ok t.reported, t', log))

def failuresOf (t : BuildTree) (b : BuildId) : List BuildFailure :=
  ((t.builds[b]?).map (·.completion.failures)).getD []

theorem reported_eq (t : BuildTree) : t.reported = t.builds.keys.flatMap t.failuresOf := by
  rw [reported, values_eq_map, ← Std.TreeMap.map_fst_toList_eq_keys, List.flatMap_map,
    List.flatMap_map]
  refine List.flatMap_congr fun x hx => ?_
  obtain ⟨b, c⟩ := x
  rw [failuresOf, Std.TreeMap.mem_toList_iff_getElem?_eq_some.1 hx]
  rfl

theorem awaitAll?_eq_none (hnodup : builds.Nodup)
    (hwork : ∀ b ∈ builds, ∀ c, t.builds[b]? = some c → c.Engaged b) (hb : b ∈ builds)
    (hc : t.builds[b]? = some c) (hopen : c.completion.finished = false) :
    awaitAll? builds t = none := by
  induction builds generalizing t with
  | nil => exact absurd hb List.not_mem_nil
  | cons d builds ih =>
    obtain ⟨hd, hnodup⟩ := List.nodup_cons.1 hnodup
    rw [awaitAll?, controller?]
    cases he : t.builds[d]? with
    | none =>
      have hne : b ≠ d := fun heq => by
        rw [← heq, hc] at he
        cases he
      exact ih hnodup (fun b hb => hwork b (List.mem_cons_of_mem d hb))
        ((List.mem_cons.1 hb).resolve_left hne) hc
    | some e =>
      rw [Option.map_some, (hwork d (List.mem_cons_self ..) e he).await?_eq]
      by_cases hfinished : e.completion.finished = true
      · have hne : b ≠ d := fun heq => by
          rw [← heq, hc, Option.some.injEq] at he
          rw [he, hfinished] at hopen
          cases hopen
        rw [if_pos hfinished]
        dsimp only
        rw [ih hnodup ?_ ((List.mem_cons.1 hb).resolve_left hne)
          ((getElem?_insert_ne hne).trans hc)]
        · rfl
        · intro a ha c' hc'
          rw [setController, getElem?_insert_ne fun heq : a = d => hd (heq ▸ ha)] at hc'
          exact hwork a (List.mem_cons_of_mem d ha) c' hc'
      · rw [if_neg hfinished]

/-- Where all jobs have ended their failures are collected. -/
theorem awaitAll?_eq_some (hnodup : builds.Nodup)
    (hwork : ∀ b ∈ builds, ∀ c, t.builds[b]? = some c → c.Engaged b)
    (hended : ∀ b ∈ builds, ∀ c, t.builds[b]? = some c → c.completion.finished = true) :
    awaitAll? builds t = some (.ok (builds.flatMap t.failuresOf),
      builds.foldl (fun t b => t.alter b (·.collected)) t) := by
  induction builds generalizing t with
  | nil => rfl
  | cons d builds ih =>
    obtain ⟨hd, hnodup⟩ := List.nodup_cons.1 hnodup
    rw [awaitAll?, List.flatMap_cons, List.foldl_cons, alter, failuresOf, controller?]
    cases he : t.builds[d]? with
    | none =>
      exact ih hnodup (fun b hb => hwork b (List.mem_cons_of_mem d hb))
        fun b hb => hended b (List.mem_cons_of_mem d hb)
    | some e =>
      have hself := List.mem_cons_self (a := d) (l := builds)
      have hlater : ∀ b ∈ builds, (t.setController d e.collected).builds[b]? = t.builds[b]? :=
        fun b hb => getElem?_insert_ne fun heq => hd (heq ▸ hb)
      rw [Option.map_some, (hwork d hself e he).await?_eq, if_pos (hended d hself e he)]
      dsimp only
      rw [ih hnodup ?_ ?_]
      · have hsame : builds.flatMap (t.setController d e.collected).failuresOf =
            builds.flatMap t.failuresOf :=
          List.flatMap_congr fun b hb => by rw [failuresOf, hlater b hb, failuresOf]
        rw [hsame]
        rfl
      · intro b hb c hc
        rw [hlater b hb] at hc
        exact hwork b (List.mem_cons_of_mem d hb) c hc
      · intro b hb c hc
        rw [hlater b hb] at hc
        exact hended b (List.mem_cons_of_mem d hb) c hc

/-- Builds whose failures have been collected are let go of, and that leaves what has run. -/
theorem stop_collected
    (h : ∀ b : BuildId, t'.builds[b]? = (t.builds[b]?).map Controller.collected) :
    ∃ t'', t'.eachController (·.stop) = (t'', none) ∧
      ∀ b path, t''.Acted b path ↔ t.Acted b path := by
  have hstops : (t'.eachController (·.stop)).2 = none := by
    refine eachController_eq_none_iff.2 fun b c' hc' => ?_
    obtain ⟨c, -, rfl⟩ := Option.map_eq_some_iff.1 ((h b).symm.trans hc')
    exact ⟨_, if_neg (by simp [Controller.collected])⟩
  have hstop : t'.eachController (·.stop) = ((t'.eachController (·.stop)).1, none) :=
    Prod.ext rfl hstops
  refine ⟨_, hstop, fun b path => ?_⟩
  have hrel := (eachController_spec hstop).2 b
  rw [h b] at hrel
  rw [Acted, Acted]
  cases hc : t.builds[b]? with
  | none =>
    rw [hc] at hrel
    rw [eq_none_of_none_rel hrel]
  | some c =>
    rw [hc] at hrel
    obtain ⟨c', hc', hok⟩ := exists_of_some_rel hrel
    have hsame : c'.Acted path ↔ c.collected.Acted path := Controller.acted_iff_of_stop hok
    rw [hc']
    simpa using hsame

/-- What a run answers is what the jobs have come to. -/
theorem AtWork.answers (h : t.AtWork) (log : List Event) : t.Answers log
    (match awaitAll? t.builds.keys t with
    | none => none
    | some (.error e, t) => some (.error e, t, log)
    | some (.ok failures, t) =>
      match t.eachController (·.stop) with
      | (t, some e) => some (.error e, t, log)
      | (t, none) => some (.ok failures, t, log)) := by
  have hnodup : t.builds.keys.Nodup := Std.TreeMap.nodup_keys
  have hmem : ∀ (b : BuildId) (c : Controller), t.builds[b]? = some c → b ∈ t.builds.keys := by
    intro b c hc
    rw [Std.TreeMap.mem_keys, Std.TreeMap.mem_iff_isSome_getElem?, hc]
    rfl
  by_cases hopen : ∃ (b : BuildId) (c : Controller),
      t.builds[b]? = some c ∧ c.completion.finished = false
  · obtain ⟨b, c, hc, hopen⟩ := hopen
    rw [awaitAll?_eq_none hnodup (fun b _ => h b) (hmem b c hc) hc hopen]
    exact .stuck hc hopen
  · have hended : ∀ (b : BuildId) (c : Controller), t.builds[b]? = some c →
        c.completion.finished = true := by simpa using hopen
    rw [awaitAll?_eq_some hnodup (fun b _ => h b) fun b _ => hended b, ← t.reported_eq]
    obtain ⟨-, hcollected⟩ := foldl_alter_keys (fun _ => Controller.collected) t
    obtain ⟨t', hstop, hacted⟩ := stop_collected hcollected
    dsimp only
    rw [hstop]
    exact .ended hended hacted

/-! ## Launching a tree -/

/-- The tree is about to run as `t₁`: every build was started with the tasks that run there, and
none has run or reported anything yet. -/
structure Launches (t t₁ : BuildTree) : Prop where
  services : t₁.services = t.services.clearStop
  builds : ∀ b : BuildId, b ∈ t₁.builds ↔ b ∈ t.builds
  atStart : t₁.AllAtStart
  pending : ∀ (b : BuildId) (c : Controller), t₁.builds[b]? = some c → c.completion = .pending
  tasks : ∀ (b : BuildId) (c : Controller) (r : Run), t₁.builds[b]? = some c →
    c.graph.run? = some r → ∀ task, t.Runs b task ↔ ∃ n ∈ r.plan.nodes, n.work = .task task

/-- The run of a tree executes it: all builds are launched, the executor works on their jobs, and
the run answers with what they come to and with a log that tells of just those actions that have
begun. -/
def Starts (t : BuildTree) (executor : Executor) (caller : Worker) : Prop :=
  ∃ (t₁ t₂ : BuildTree) (log : List Event), t.Launches t₁ ∧ Executes caller t₁ executor t₂ log ∧
    (∀ b path, .started b path ∈ log ↔ t₂.Acted b path) ∧
    t₂.Answers log (t.run? executor caller)

/-- What scheduling leaves alone: the services, and what was reported. -/
structure Unreported (t₀ t : BuildTree) : Prop where
  bounded : Bounded t₀ t
  services : t.services = t₀.services
  pending : ∀ (b : BuildId) (c : Controller), t.builds[b]? = some c → c.completion = .pending

theorem Unreported.scheduleBuild (h : Unreported t₀ t) (b : BuildId) (grown : Bool) :
    Unreported t₀ (BuildTree.scheduleBuild b (t, grown)).1.1 := by
  cases hc : t.builds[b]? with
  | none =>
    rw [scheduleBuild_eq_of_none hc]
    exact h
  | some c =>
    obtain ⟨-, -, hopen, -⟩ := h.bounded.exists hc
    have hsol := scheduleQueued_solicited t hopen (h.bounded.sound.sound_true hc)
    have hown : (c.scheduleQueued (some crossBuild) t.builds).2.1.completion = c.completion :=
      Controller.completion_after c (.scheduleQueued (some crossBuild) t.builds)
    refine ⟨h.bounded.scheduleBuild b grown, ?_, fun d e he => ?_⟩
    · rw [tree_scheduleBuild hc]
      exact h.services
    · rw [tree_scheduleBuild hc, withOthers] at he
      generalize c.scheduleQueued (some crossBuild) t.builds = answer at hsol hown he
      obtain ⟨result, c', others⟩ := answer
      dsimp only at he
      by_cases hd : d = b
      · subst hd
        rw [Std.TreeMap.getElem?_insert_self, Option.some.injEq] at he
        rw [← he]
        exact hown.trans (h.pending d c hc)
      · rw [getElem?_insert_ne hd] at he
        have hasked := hsol d
        rw [he] at hasked
        obtain ⟨e₀, he₀, hasked⟩ := exists_of_rel_some hasked
        exact hasked.completion.trans (h.pending d e₀ he₀)

theorem Fresh.unreported (h : t.Fresh) : Unreported t t.schedule.1 := by
  refine schedule_keeps (Q := Unreported t) (fun b state hs => hs.scheduleBuild b state.2) ?_
  refine ⟨h.explored.bounded, rfl, fun b c hc => ?_⟩
  obtain ⟨registry, -, -, hnew⟩ := h b c hc
  rw [hnew]
  rfl

/-- The builds of a tree that was frozen and started are at their start, each with its own tasks. -/
theorem launches_of_start (h : t.Fresh) (hprepare : t.prepare = (t', none))
    (hstart : t'.eachController (·.start) = (t₁, none)) : t.Launches t₁ := by
  have hfresh : t.resumed.Fresh := h
  obtain ⟨hschedule, hfinalize, -⟩ := prepare_eq_none_iff.1 hprepare
  obtain ⟨hexplored, -⟩ := hfresh.schedule_spec hschedule
  have hunreported : Unreported t.resumed t.scheduled := hfresh.unreported
  have horigin : Origin t.scheduled t₁ := .of_start hexplored.sound hfinalize hstart
  have hcompletion : ∀ (b : BuildId) (c : Controller), t₁.builds[b]? = some c →
      c.completion = .pending := by
    intro b c hc
    obtain ⟨c₁, hc₁, hs⟩ := exists_of_eachController hstart hc
    obtain ⟨c₀, hc₀, hf⟩ := exists_of_eachController hfinalize hc₁
    obtain ⟨-, rfl⟩ := Controller.eq_of_start hs
    obtain ⟨-, g, -, rfl⟩ := Controller.eq_of_finalize hf
    exact hunreported.pending b c₀ hc₀
  constructor
  case services =>
    rw [(eachController_spec hstart).1, (eachController_spec hfinalize).1]
    exact hunreported.services
  case builds =>
    intro b
    have hstarted := (eachController_spec hstart).2 b
    have hfrozen := (eachController_spec hfinalize).2 b
    have hscheduled : Option.Rel _ t.builds[b]? t.scheduled.builds[b]? := hexplored.builds b
    rw [Std.TreeMap.mem_iff_isSome_getElem?, Std.TreeMap.mem_iff_isSome_getElem?,
      isSome_of_rel hscheduled, isSome_of_rel hfrozen, isSome_of_rel hstarted]
  case atStart =>
    intro b c hc
    obtain ⟨c₀, footprints, p, g, hc₀, hto, hgraph⟩ := horigin.frozen b c hc
    obtain ⟨c₁, -, hs⟩ := exists_of_eachController hstart hc
    have hbuild : c₀.graph.build = b := (hexplored.sound b c₀ hc₀).build
    have hrun : c.graph.run? = some (.start (c₀.graph.planOf footprints p) g.exports) := by
      rw [hgraph]
      exact hto.run?_eq
    have hstate : c.state = .runningTasks := by
      obtain ⟨-, rfl⟩ := Controller.eq_of_start hs
      rfl
    have hname : c.build = b := by
      rw [Controller.build, hgraph, hto.eq]
      exact hbuild
    have hphase : c.graph.phase = .running := by rw [hgraph]
    have hclaimed : c.completion.claimed = false := by
      rw [hcompletion b c hc]
      rfl
    refine ⟨⟨hname, hstate, hphase, hclaimed, _, hrun, hbuild⟩, fun r hr => ?_⟩
    cases hrun.symm.trans hr
    rfl
  case pending => exact hcompletion
  case tasks =>
    intro b c r hc hr task
    obtain ⟨g, g', footprints, p, hs, hbuild, hto, ⟨c₀, hc₀, rfl⟩, -, hrun⟩ :=
      horigin.exists_plan hc
    cases hrun.symm.trans hr
    obtain ⟨hall, hplaces⟩ := WorkGraph.planOf_nodes hs hto.footprints_eq p
    constructor
    · rintro ⟨c', hc', id, n, hn, hsched, hw⟩
      cases hc₀.symm.trans hc'
      have hid := (hs.scheduled id).2 ⟨n, hn, hsched⟩
      obtain ⟨i, hi⟩ := List.mem_iff_getElem?.1 (Std.TreeSet.mem_toList.2 hid)
      obtain ⟨m, hm⟩ := hplaces i id hi
      obtain ⟨id', n', hplanned⟩ := hall i m hm
      cases hi.symm.trans hplanned.position
      cases hn.symm.trans hplanned.node
      exact ⟨m, Array.mem_of_getElem? hm, hplanned.work_eq.trans hw⟩
    · rintro ⟨m, hm, hw⟩
      obtain ⟨i, hi⟩ := Array.mem_iff_getElem?.1 hm
      obtain ⟨id, n, hplanned⟩ := hall i m hi
      have hid := Std.TreeSet.mem_toList.1 (List.mem_of_getElem? hplanned.position)
      obtain ⟨n', hn', hsched⟩ := (hs.scheduled id).1 hid
      cases hn'.symm.trans hplanned.node
      exact ⟨c₀, hc₀, id, n, hplanned.node, hsched, hplanned.work_eq.symm.trans hw⟩

/-- What holds of every build, and of what takes its place, holds when builds are replaced, also
where one of them is refused. -/
theorem eachController_keeps {P : Controller → Prop} {f : Controller → Except GraphError Controller}
    (h : ∀ (b : BuildId) (c : Controller), t.builds[b]? = some c → P c)
    (hf : ∀ c c', f c = .ok c' → P c') (b : BuildId) (c : Controller)
    (hc : (t.eachController f).1.builds[b]? = some c) : P c := by
  revert b c
  refine eachUntilError_keeps (Q := fun t : BuildTree =>
    ∀ (b : BuildId) (c : Controller), t.builds[b]? = some c → P c) (fun d _ t ht => ?_) h
  cases hd : t.controller? d with
  | none => exact ht
  | some e =>
    simp only [Option.map_some]
    cases he : f e with
    | error => exact ht
    | ok e' =>
      intro b c hc
      by_cases hb : b = d
      · subst hb
        simp only [setController, Std.TreeMap.getElem?_insert_self, Option.some.injEq] at hc
        rw [← hc]
        exact hf e e' he
      · simp only [setController, getElem?_insert_ne hb] at hc
        exact ht b c hc

/-- Preparing a tree runs nothing, also where it fails. -/
theorem Fresh.unstarted_prepare (h : t.Fresh) (b : BuildId) (c : Controller)
    (hc : t.prepare.1.builds[b]? = some c) : c.Unstarted := by
  have hfresh : t.resumed.Fresh := h
  have hscheduled : ∀ (b : BuildId) (c : Controller), t.scheduled.builds[b]? = some c →
      c.Unstarted := by
    intro b c hc r hr
    obtain ⟨-, -, hopen, -⟩ := hfresh.unreported.bounded.exists hc
    rw [WorkGraph.run?, hopen.plan] at hr
    cases hr
  have hfrozen := eachController_keeps (f := (·.finalize)) hscheduled fun _ _ =>
    Controller.unstarted_of_finalize
  rw [prepare] at hc
  rw [scheduled, resumed] at hscheduled hfrozen
  generalize BuildTree.schedule _ = answer at hc hscheduled hfrozen
  obtain ⟨t₁, error⟩ := answer
  cases error with
  | some e => exact hscheduled b c hc
  | none =>
    dsimp only at hc hfrozen
    generalize t₁.eachController (·.finalize) = answer at hc hfrozen
    obtain ⟨t₂, error⟩ := answer
    cases error with
    | some e => exact hfrozen b c hc
    | none =>
      dsimp only at hc hfrozen
      cases hcheck : t₂.checkCrossBuildCycles with
      | error e =>
        rw [hcheck] at hc
        exact hfrozen b c hc
      | ok =>
        rw [hcheck] at hc
        exact hfrozen b c hc

/-! ## When a run executes its tree -/

/-- A run of a prepared tree executes it. -/
theorem starts_of_prepare (h : t.Fresh) (hprepare : t.prepare = (t', none)) (executor : Executor)
    (caller : Worker) : t.Starts executor caller := by
  obtain ⟨t₁, hstart⟩ := start_of_prepare hprepare
  have hlaunches := launches_of_start h hprepare hstart
  have hexecutes := hlaunches.atStart.executes executor caller
  obtain ⟨hwork, hlogged⟩ := hexecutes.spec hlaunches.atStart
  refine ⟨t₁, _, _, hlaunches, hexecutes, hlogged, ?_⟩
  rw [run?, hprepare]
  dsimp only
  rw [hstart]
  exact hwork.answers _

/-- A run that executes its tree does not answer with an error. -/
theorem Starts.ne_error (h : t.Starts executor caller) (e : GraphError) (t' : BuildTree)
    (log : List Event) : t.run? executor caller ≠ some (.error e, t', log) := by
  intro heq
  obtain ⟨t₁, t₂, log', -, -, -, hanswers⟩ := h
  rw [heq] at hanswers
  cases hanswers

/-- A run of a fresh tree executes it, in all its builds, just if scheduling meets no unknown task,
no reference of a scheduled task is at fault, no scheduled task declares files to destroy together
with others, and the waits that the tasks declare have no loop. Otherwise the tree is not prepared,
and the run fails with no action of any build begun. -/
theorem Fresh.starts_iff (h : t.Fresh) (executor : Executor) (caller : Worker) :
    (t.Starts executor caller ↔ t.Startable) ∧
      (¬ t.Startable → ∃ e t', t.prepare = (t', some e) ∧
        t.run? executor caller = some (.error e, t', []) ∧ ∀ b path, ¬ t'.Acted b path) := by
  have hfails : ¬ t.Startable → ∃ e t', t.prepare = (t', some e) ∧
      t.run? executor caller = some (.error e, t', []) ∧ ∀ b path, ¬ t'.Acted b path := by
    intro hnot
    have hunstarted := h.unstarted_prepare
    rw [← h.prepare_ok_iff] at hnot
    rw [run?]
    generalize t.prepare = answer at hnot hunstarted
    obtain ⟨t', error⟩ := answer
    cases error with
    | none => exact absurd ⟨t', rfl⟩ hnot
    | some e =>
      refine ⟨e, t', rfl, rfl, ?_⟩
      rintro b path ⟨c, hc, hacted⟩
      exact (hunstarted b c hc).not_acted hacted
  refine ⟨⟨fun hstarts => ?_, fun hstartable => ?_⟩, hfails⟩
  · by_contra hnot
    obtain ⟨e, t', -, hrun, -⟩ := hfails hnot
    exact hstarts.ne_error e t' [] hrun
  · obtain ⟨t', hprepare⟩ := h.prepare_ok_iff.2 hstartable
    exact starts_of_prepare h hprepare executor caller

/-- The pair is executed as it is, the task of the library first. Where that has to come after the
task of the application, neither is. -/
theorem pairTree_starts : (pairTree []).Startable ∧ (pairTree []).Starts .threads 0 ∧
    ((pairTree []).run? .threads 0).map (fun answer => answer.2.2) =
      some [.started ⟨"lib"⟩ ⟨":", "b"⟩, .started ⟨"app"⟩ ⟨":", "a"⟩] ∧
    ∃ e t', (pairTree [.inBuild ⟨"app"⟩ ⟨":", "a"⟩]).run? .threads 0 = some (.error e, t', []) ∧
      ∀ b path, ¬ t'.Acted b path := by
  have hstartable : (pairTree []).Startable := by
    refine (pairTree_fresh []).prepare_ok_iff.1 ⟨_, Prod.ext rfl ?_⟩
    exact Option.isNone_iff_eq_none.1 (by decide +kernel)
  have hnot : ¬ (pairTree [.inBuild ⟨"app"⟩ ⟨":", "a"⟩]).Startable := by
    intro hstartable
    obtain ⟨t', hprepare⟩ := (pairTree_fresh _).prepare_ok_iff.2 hstartable
    have hfails : (pairTree [.inBuild ⟨"app"⟩ ⟨":", "a"⟩]).prepare.2.isSome = true := by
      decide +kernel
    rw [hprepare] at hfails
    cases hfails
  obtain ⟨e, t', -, hrun⟩ := ((pairTree_fresh _).starts_iff .threads 0).2 hnot
  exact ⟨hstartable, ((pairTree_fresh []).starts_iff .threads 0).1.2 hstartable, by decide +kernel,
    e, t', hrun⟩

end BuildTree

end Foreman
