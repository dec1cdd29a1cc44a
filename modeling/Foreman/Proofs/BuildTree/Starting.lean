import Foreman.Proofs.BuildTree.Fresh
import Foreman.Proofs.BuildTree.Launching
import Foreman.Proofs.WorkGraph.Freezing

/-!
# When a tree can be prepared

A fresh tree is prepared without an error, in all builds, just if scheduling meets no unknown task,
no reference of a scheduled task is at fault, no scheduled task declares files to destroy together
with others, and the waits that the tasks declare, over all builds, have no loop
(`BuildTree.Startable`, `Fresh.prepare_ok_iff`). Then all builds can be started
(`start_of_prepare`).
-/

namespace Foreman

open Relation

namespace BuildTree

variable {t t' t₀ t₁ : BuildTree} {b : BuildId} {c c' : Controller} {x y : TreeTask}
  {log : List Finding}

/-! ## What a start needs -/

/-- The tree as a run takes it up: a stop that was requested before is forgotten. -/
def resumed (t : BuildTree) : BuildTree := { t with services := t.services.clearStop }

def findings (t : BuildTree) : List Finding := t.resumed.scheduleFindings

def scheduled (t : BuildTree) : BuildTree := t.resumed.schedule.1

/-- The task is part of the run of the build. -/
def Runs (t : BuildTree) (b : BuildId) (task : TaskDefinition) : Prop :=
  ∃ c, t.scheduled.builds[b]? = some c ∧ ∃ (i : Nat) (n : Node), c.graph.nodes[i]? = some n ∧
    n.state.isScheduled = true ∧ n.work = .task task

/-- By what was found for the scheduled tasks, the first task comes after the second. -/
inductive After (t : BuildTree) : TreeTask → TreeTask → Prop
  /-- A task comes after those it depends on. -/
  | dependency {f : Finding} {work : Work} (hf : f ∈ t.findings) (hr : f.relationship = .dependency)
      (hw : work ∈ f.targets) : After t (f.build, f.task.path) (treeTask f.build work.key)
  /-- It comes after those it must run after, in other builds or scheduled in its own. -/
  | mustRunAfter {f : Finding} {work : Work} (hf : f ∈ t.findings)
      (hr : f.relationship = .mustRunAfter) (hw : work ∈ f.targets)
      (hin : work.isForeign = true ∨ ∃ task, t.Runs f.build task ∧ work.key = .task task.path) :
      After t (f.build, f.task.path) (treeTask f.build work.key)
  /-- Those that finalize it come after it. -/
  | finalizer {f : Finding} {work : Work} (hf : f ∈ t.findings) (hr : f.relationship = .finalizedBy)
      (hw : work ∈ f.targets) : After t (treeTask f.build work.key) (f.build, f.task.path)

/-- What the start of a fresh tree depends on. -/
structure Startable (t : BuildTree) : Prop where
  declared : t.RequestsDeclared
  resolved : ∀ f ∈ t.findings, f.error = none
  unmixed : ∀ b task, t.Runs b task → ¬ task.mutations.Mixed
  acyclic : Acyclic t.After

/-! ## The waits that the check sees -/

/-- The check sees what each graph says of its run. -/
theorem seen_iff : Seen t.waits x y ↔ ∃ (b : BuildId) (c : Controller) (path : TaskPath)
    (key : NodeKey), t.builds[b]? = some c ∧ x = (b, path) ∧ y = treeTask b key ∧
      ∃ targets, (.task path, targets) ∈ c.graph.executionEdges ∧ key ∈ targets := by
  simp only [Seen, waits, List.mem_flatMap, List.mem_filterMap]
  constructor
  · rintro ⟨targets, ⟨⟨b, c⟩, hc, ⟨key, keys⟩, hrow, hx⟩, hy⟩
    cases key with
    | foreign d path => cases hx
    | task path =>
      simp only [Option.some.injEq, Prod.mk.injEq] at hx
      obtain ⟨rfl, rfl⟩ := hx
      obtain ⟨target, htarget, rfl⟩ := List.mem_map.1 hy
      exact ⟨b, c, path, target, Std.TreeMap.mem_toList_iff_getElem?_eq_some.1 hc, rfl, rfl,
        keys, hrow, htarget⟩
  · rintro ⟨b, c, path, key, hc, rfl, rfl, targets, hrow, hkey⟩
    exact ⟨targets.map (treeTask b),
      ⟨(b, c), Std.TreeMap.mem_toList_iff_getElem?_eq_some.2 hc, _, hrow,
      rfl⟩, List.mem_map_of_mem hkey⟩

/-- The check passes just where it sees no loop. -/
theorem checkCrossBuildCycles_ok_iff : t.checkCrossBuildCycles = .ok () ↔
    Acyclic (Seen t.waits) := by
  refine ⟨acyclic_seen, fun h => Digraph.checkCycles_of_acyclic ?_ _ _⟩
  refine h.of_map (fun i => ((mentioned t.waits)[i]?).getD (⟨""⟩, ⟨"", ""⟩)) fun i j hij => ?_
  have hlt := hij.lt_size
  simp only [Digraph.size, waitGraph, Digraph.ofFn, Array.size_ofFn] at hlt
  simp only [Digraph.Edge, Digraph.next, waitGraph, Digraph.ofFn, Array.getElem?_ofFn, dif_pos hlt,
    Option.getD_some, List.mem_flatMap, List.mem_filter, List.mem_map] at hij
  obtain ⟨⟨task, targets⟩, ⟨hrow, hi⟩, target, htarget, rfl⟩ := hij
  have hi' : (mentioned t.waits)[i]? = some task := by simpa using hi
  have hmem : target ∈ mentioned t.waits := by
    rw [mentioned, List.mem_eraseDups, List.mem_flatMap]
    exact ⟨_, hrow, List.mem_cons_of_mem _ htarget⟩
  have hlt' := List.idxOf_lt_length_of_mem hmem
  rw [hi', List.getElem?_eq_getElem hlt', List.getElem_idxOf]
  exact ⟨targets, hrow, htarget⟩

/-! ## Replacing all controllers -/

/-- Where the builds of a tree are replaced one by one, none is refused just if none has a
controller that is refused. -/
theorem eachUntilError_eq_none_iff {f : Controller → Except GraphError Controller}
    {l : List BuildId} (hl : l.Nodup) : (eachUntilError (fun build (t : BuildTree) =>
      match (t.controller? build).map f with
      | some (.ok c) => (t.setController build c, none)
      | some (.error e) => (t, some e)
      | none => (t, none)) l t).2 = none ↔
    ∀ b ∈ l, ∀ c, t.builds[b]? = some c → ∃ c', f c = .ok c' := by
  induction l generalizing t with
  | nil => simp [eachUntilError]
  | cons d l ih =>
    obtain ⟨hd, hl⟩ := List.nodup_cons.1 hl
    rw [eachUntilError, List.forall_mem_cons]
    cases hc : t.builds[d]? with
    | none =>
      rw [show t.controller? d = none from hc, Option.map_none]
      simp [ih hl]
    | some c =>
      rw [show t.controller? d = some c from hc, Option.map_some]
      cases hf : f c with
      | error e => simp [hf]
      | ok c' =>
        simp only [ih hl, Option.some.injEq, forall_eq', hf, Except.ok.injEq, exists_eq', true_and]
        refine forall₂_congr fun b hb => ?_
        rw [setController, getElem?_insert_ne fun heq : b = d => hd (heq ▸ hb)]

theorem eachController_eq_none_iff {f : Controller → Except GraphError Controller} :
    (t.eachController f).2 = none ↔
      ∀ (b : BuildId) (c : Controller), t.builds[b]? = some c → ∃ c', f c = .ok c' := by
  refine (eachUntilError_eq_none_iff Std.TreeMap.nodup_keys).trans
    (forall_congr' fun b => ⟨fun h c hc => h ?_ c hc, fun h _ => h⟩)
  rw [Std.TreeMap.mem_keys, Std.TreeMap.mem_iff_isSome_getElem?, hc]
  rfl

theorem finalize_ok_iff : (∃ c', c.finalize = .ok c') ↔ c.state = .discoveringTasks ∧
    c.queued.isEmpty = true ∧ ∃ g', c.graph.freeze = .ok g' := by
  rw [Controller.finalize, Controller.require]
  by_cases hs : c.state = .discoveringTasks
  · by_cases hq : c.queued.isEmpty = true
    · cases hf : c.graph.freeze <;> simp [hs, hq, bind, Except.bind, pure, Except.pure]
    · simp [hs, hq, bind, Except.bind]
  · simp [hs, bind, Except.bind]

/-- What was just frozen can be started. -/
theorem start_ok_of_finalize (h : c.finalize = .ok c') :
    ∃ c'', c'.start = .ok c'' := by
  obtain ⟨hf, hstate, _⟩ := finalize_spec h
  obtain ⟨footprints, p, hto⟩ := WorkGraph.freeze_spec hf
  have hphase : c'.graph.phase = .finalized := by
    rw [hto.eq]
    rfl
  simp [Controller.start, Controller.require, hstate, WorkGraph.beginExecution, WorkGraph.require,
    hphase, hto.plan_eq, bind, Except.bind, pure, Except.pure]

/-- Freezing leaves what the check sees. -/
theorem seen_iff_of_finalize (hf : t.eachController (·.finalize) = (t', none)) :
    Seen t'.waits x y ↔ Seen t.waits x y := by
  have hedges : ∀ c c' : Controller, c.finalize = .ok c' →
      c'.graph.executionEdges = c.graph.executionEdges := by
    intro c c' h
    obtain ⟨footprints, p, hto⟩ := WorkGraph.freeze_spec (finalize_spec h).1
    exact hto.executionEdges_eq
  rw [seen_iff, seen_iff]
  constructor
  · rintro ⟨b, c', path, key, hc', rfl, rfl, htargets⟩
    obtain ⟨c, hc, hfin⟩ := exists_of_eachController hf hc'
    exact ⟨b, c, path, key, hc, rfl, rfl, hedges c c' hfin ▸ htargets⟩
  · rintro ⟨b, c, path, key, hc, rfl, rfl, htargets⟩
    obtain ⟨c', hc', hfin⟩ := exists_eachController hf hc
    exact ⟨b, c', path, key, hc', rfl, rfl, (hedges c c' hfin).symm ▸ htargets⟩

/-! ## The graphs of a scheduled tree -/

/-- What a graph includes runs. -/
theorem includes_iff_runs (hc : t.scheduled.builds[b]? = some c) {path : TaskPath} :
    c.graph.Includes (.task path) ↔ ∃ task, t.Runs b task ∧ task.path = path := by
  constructor
  · rintro ⟨i, n, hn, hkey, hs⟩
    cases hw : n.work with
    | task task =>
      rw [Node.key, hw] at hkey
      cases hkey
      exact ⟨task, ⟨c, hc, i, n, hn, hs, hw⟩, rfl⟩
    | foreign d path =>
      rw [Node.key, hw] at hkey
      cases hkey
  · rintro ⟨task, ⟨c', hc', i, n, hn, hs, hw⟩, rfl⟩
    cases hc.symm.trans hc'
    exact ⟨i, n, hn, by rw [Node.key, hw]; rfl, hs⟩

section Scheduled

variable (h : Explored t.resumed t.findings t.scheduled)

include h

/-- What holds of the graph of a build. -/
theorem Explored.graph (hc : t.scheduled.builds[b]? = some c) : c.graph.Sound (fun _ _ => True) ∧
    c.graph.build = b ∧ c.Open ∧ c.graph.Surveyed t.findings ∧ c.graph.Brought [] ∧
      c.graph.queued.isEmpty = true := by
  obtain ⟨c₀, _, hdisc⟩ := h.exists hc
  exact ⟨h.sound.sound_true hc, (h.sound b c hc).build, hdisc.isOpen, hdisc.surveyed, hdisc.brought,
    hdisc.unqueued⟩

/-- The check sees just what was found. -/
theorem Explored.seen_iff_after : Seen t.scheduled.waits x y ↔ t.After x y := by
  rw [seen_iff]
  constructor
  · rintro ⟨b, c, path, key, hc, rfl, rfl, htargets⟩
    obtain ⟨hs, hbuild, _, hsurvey, hbrought, _⟩ := h.graph hc
    subst hbuild
    rcases (hsurvey.mem_executionEdges_iff hs hbrought).1 htargets with
      ⟨f, hf, hb, hr, rfl, work, hw, rfl⟩ | ⟨f, hf, hb, hr, rfl, work, hw, rfl, hin⟩ |
      ⟨f, hf, hb, hr, rfl, work, hw, hkey⟩
    · rw [← hb]
      exact .dependency hf hr hw
    · rw [← hb]
      refine .mustRunAfter hf hr hw ?_
      cases work with
      | foreign d path => exact .inl rfl
      | task task =>
        obtain ⟨task', hruns, hpath⟩ := (includes_iff_runs hc).1
          (hin.resolve_left (by simp [Work.isForeign]))
        refine .inr ⟨task', hb.symm ▸ hruns, ?_⟩
        rw [hpath]
        rfl
    · rw [← hb, show (f.build, path) = treeTask f.build work.key by rw [hkey]; rfl]
      exact .finalizer hf hr hw
  · intro hafter
    have hedges : ∀ f ∈ t.findings, ∃ c : Controller, t.scheduled.builds[f.build]? = some c ∧
        f.build = c.graph.build ∧ c.graph.Sound (fun _ _ => True) ∧ c.graph.Surveyed t.findings ∧
        c.graph.Brought [] := by
      intro f hf
      obtain ⟨c, hc⟩ := h.known f hf
      obtain ⟨hs, hbuild, _, hsurvey, hbrought, _⟩ := h.graph hc
      exact ⟨c, hc, hbuild.symm, hs, hsurvey, hbrought⟩
    cases hafter with
    | @dependency f work hf hr hw =>
      obtain ⟨c, hc, hb, hs, hsurvey, hbrought⟩ := hedges f hf
      exact ⟨f.build, c, f.task.path, work.key, hc, rfl, rfl,
        (hsurvey.mem_executionEdges_iff hs hbrought).2 (.inl ⟨f, hf, hb, hr, rfl, work, hw, rfl⟩)⟩
    | @mustRunAfter f work hf hr hw hin =>
      obtain ⟨c, hc, hb, hs, hsurvey, hbrought⟩ := hedges f hf
      refine ⟨f.build, c, f.task.path, work.key, hc, rfl, rfl,
        (hsurvey.mem_executionEdges_iff hs hbrought).2
          (.inr (.inl ⟨f, hf, hb, hr, rfl, work, hw, rfl, hin.imp id ?_⟩))⟩
      rintro ⟨task, hruns, hkey⟩
      rw [hkey]
      exact (includes_iff_runs hc).2 ⟨task, hruns, rfl⟩
    | @finalizer f work hf hr hw =>
      obtain ⟨c, hc, hb, hs, hsurvey, hbrought⟩ := hedges f hf
      cases work with
      | foreign d path => exact (hsurvey.not_foreign_of_finalizer hs hf hb hr hw).elim
      | task task =>
        exact ⟨f.build, c, task.path, .task f.task.path, hc, rfl, rfl,
          (hsurvey.mem_executionEdges_iff hs hbrought).2
            (.inr (.inr ⟨f, hf, hb, hr, rfl, _, hw, rfl⟩))⟩

/-- Where the waits over all builds have no loop, no build has one. -/
theorem Explored.acyclic_mandatory (hacyc : Acyclic t.After)
    (hc : t.scheduled.builds[b]? = some c) :
    Acyclic c.graph.mandatory.Before := by
  obtain ⟨hs, _, _, hsurvey, _, _⟩ := h.graph hc
  refine hacyc.of_map (fun id => ((c.graph.nodes[id]?).map (treeTask b ·.key)).getD (b, ⟨"", ""⟩))
    fun i j hij => ?_
  obtain ⟨hi, hj, n, hn, hcase⟩ := WorkGraph.mandatory_before_iff.1 hij
  obtain ⟨m, hm, _⟩ := (hs.scheduled j).1 hj
  rw [hn, hm]
  refine h.seen_iff_after.1 (seen_of_mem_waitsOf hs hc rfl hi hn hm (WorkGraph.mem_waitsOf.2 ?_))
  exact hcase.imp id (Or.imp (fun hmust => ⟨hmust, .inl hj⟩) fun hfin => ⟨hfin, hj⟩)

/-- Every build can be frozen just if no reference is at fault, no task of the run declares files to
destroy together with others, and no order within a build has a loop. -/
theorem Explored.finalize_ok_iff (hquiet : ∀ (b : BuildId) (c : Controller),
      t.scheduled.builds[b]? = some c → c.queued.isEmpty = true) :
    (t.scheduled.eachController (·.finalize)).2 = none ↔
      (∀ f ∈ t.findings, f.error = none) ∧ (∀ b task, t.Runs b task → ¬ task.mutations.Mixed) ∧
        ∀ (b : BuildId) (c : Controller), t.scheduled.builds[b]? = some c →
          Acyclic c.graph.mandatory.Before := by
  have hone : ∀ (b : BuildId) (c : Controller), t.scheduled.builds[b]? = some c →
      ((∃ c', c.finalize = .ok c') ↔ (∀ f ∈ t.findings, f.build = b → f.error = none) ∧
        (∀ task, t.Runs b task → ¬ task.mutations.Mixed) ∧ Acyclic c.graph.mandatory.Before) := by
    intro b c hc
    obtain ⟨hs, rfl, hopen, hsurvey, _, hqueued⟩ := h.graph hc
    rw [BuildTree.finalize_ok_iff, WorkGraph.freeze_ok_iff, hsurvey.traced.rejected]
    simp only [hopen.state, hquiet _ c hc, hopen.phase, hqueued, true_and]
    refine and_congr_right fun _ => and_congr_left fun _ => ⟨?_, ?_⟩
    · rintro hmixed task ⟨c', hc', i, n, hn, hsched, hw⟩
      cases hc.symm.trans hc'
      exact hmixed i n task ((hs.scheduled i).2 ⟨n, hn, hsched⟩) hn hw
    · intro hmixed i n task hi hn hw
      obtain ⟨n', hn', hsched⟩ := (hs.scheduled i).1 hi
      cases hn'.symm.trans hn
      exact hmixed task ⟨c, hc, i, n, hn, hsched, hw⟩
  rw [eachController_eq_none_iff]
  constructor
  · intro hall
    refine ⟨fun f hf => ?_, fun b task hruns => ?_,
      fun b c hc => ((hone b c hc).1 (hall b c hc)).2.2⟩
    · obtain ⟨c, hc⟩ := h.known f hf
      exact ((hone _ c hc).1 (hall _ c hc)).1 f hf rfl
    · obtain ⟨c, hc, _⟩ := id hruns
      exact ((hone b c hc).1 (hall b c hc)).2.1 task hruns
  · rintro ⟨herror, hmixed, hacyc⟩ b c hc
    exact (hone b c hc).2 ⟨fun f hf _ => herror f hf, hmixed b, hacyc b c hc⟩

end Scheduled

/-! ## When a tree can be prepared -/

/-- Preparing a tree fails just where scheduling, freezing or the check does. -/
theorem prepare_eq_none_iff : t.prepare = (t₁, none) ↔ t.resumed.schedule.2 = none ∧
    t.scheduled.eachController (·.finalize) = (t₁, none) ∧ t₁.checkCrossBuildCycles = .ok () := by
  rw [prepare, scheduled, resumed]
  generalize BuildTree.schedule _ = answer
  obtain ⟨s, error⟩ := answer
  cases error with
  | some e => simp
  | none =>
    dsimp only
    generalize s.eachController (·.finalize) = answer
    obtain ⟨s', error⟩ := answer
    cases error with
    | some e => simp
    | none =>
      dsimp only
      cases hc : s'.checkCrossBuildCycles with
      | error e =>
        simp only [Prod.mk.injEq, reduceCtorEq, and_false, and_true, true_and, false_iff]
        rintro ⟨rfl, hok⟩
        cases hc.symm.trans hok
      | ok =>
        simp only [Prod.mk.injEq, and_true, true_and]
        exact ⟨fun heq => ⟨heq, heq ▸ hc⟩, fun heq => heq.1⟩

/-- A fresh tree is prepared just if nothing speaks against its start. -/
theorem Fresh.prepare_ok_iff (h : t.Fresh) : (∃ t₁, t.prepare = (t₁, none)) ↔ t.Startable := by
  have hfresh : t.resumed.Fresh := h
  have hdeclared : t.resumed.schedule.2 = none ↔ t.RequestsDeclared := hfresh.schedule_eq_none_iff
  constructor
  · rintro ⟨t₁, hprepare⟩
    obtain ⟨hschedule, hfinalize, hcheck⟩ := prepare_eq_none_iff.1 hprepare
    obtain ⟨hexplored, hquiet⟩ := hfresh.schedule_spec hschedule
    have hfrozen : (t.scheduled.eachController (·.finalize)).2 = none := by rw [hfinalize]
    obtain ⟨hresolved, hunmixed, _⟩ := (Explored.finalize_ok_iff hexplored hquiet).1 hfrozen
    refine ⟨hdeclared.1 hschedule, hresolved, hunmixed, (acyclic_seen hcheck).mono
      fun x y hxy => ?_⟩
    exact (seen_iff_of_finalize hfinalize).2 ((Explored.seen_iff_after hexplored).2 hxy)
  · intro hstartable
    have hschedule := hdeclared.2 hstartable.declared
    obtain ⟨hexplored, hquiet⟩ := hfresh.schedule_spec hschedule
    have hfrozen := (Explored.finalize_ok_iff hexplored hquiet).2
      ⟨hstartable.resolved, hstartable.unmixed,
        fun b c hc => Explored.acyclic_mandatory hexplored hstartable.acyclic hc⟩
    have hfinalize : t.scheduled.eachController (·.finalize) =
        ((t.scheduled.eachController (·.finalize)).1, none) := Prod.ext rfl hfrozen
    refine ⟨_, prepare_eq_none_iff.2 ⟨hschedule, hfinalize, checkCrossBuildCycles_ok_iff.2 ?_⟩⟩
    refine hstartable.acyclic.mono fun x y hxy => ?_
    exact (Explored.seen_iff_after hexplored).1 ((seen_iff_of_finalize hfinalize).1 hxy)

/-- The builds of a prepared tree can all be started. -/
theorem start_of_prepare (h : t.prepare = (t₁, none)) :
    ∃ t₂, t₁.eachController (·.start) = (t₂, none) := by
  obtain ⟨_, hfinalize, _⟩ := prepare_eq_none_iff.1 h
  refine ⟨_, Prod.ext rfl (eachController_eq_none_iff.2 fun b c hc => ?_)⟩
  obtain ⟨c₀, _, hfin⟩ := exists_of_eachController hfinalize hc
  exact start_ok_of_finalize hfin

/-- What is found while a fresh tree is scheduled are answers of the resolver for the tasks that
run, and for each of these there is one of each relationship. -/
theorem Fresh.findings_spec (h : t.Fresh) (hd : t.RequestsDeclared) :
    (∀ f ∈ t.findings, f.IsAnswer (some crossBuild) f.build ∧
      ∃ task, t.Runs f.build task ∧ task.path = f.task.path) ∧
    ∀ b task, t.Runs b task → ∀ r, ∃ f ∈ t.findings,
      f.build = b ∧ f.task = task ∧ f.relationship = r := by
  have hfresh : t.resumed.Fresh := h
  have hexplored : Explored t.resumed t.findings t.scheduled :=
    (hfresh.schedule_spec (hfresh.schedule_eq_none_iff.2 hd)).1
  constructor
  · intro f hf
    obtain ⟨c, hc⟩ := hexplored.known f hf
    obtain ⟨_, hbuild, _, hsurvey, _⟩ := hexplored.graph hc
    exact ⟨hexplored.answers f hf,
      (includes_iff_runs hc).1 (hsurvey.traced.found f hf hbuild.symm)⟩
  · rintro b task ⟨c, hc, i, n, hn, hs, hw⟩ r
    obtain ⟨_, rfl, _, hsurvey, _⟩ := hexplored.graph hc
    exact hsurvey.covered.found i n task hn (hsurvey.covered.resolved i n hn hs) hw r

/-! ## Fresh trees -/

def freshTree (registries : List Registry) (b : BuildId) (paths : List TaskPath) : BuildTree :=
  let builds := registries.foldl (fun (t : BuildTree) r => (t.addBuild r).toOption.getD t)
    (.new ⟨2, false, ⟨true⟩, .empty 2, false⟩)
  (builds.request b paths).1

theorem freshTree_fresh {registries : List Registry} (h : ∀ r ∈ registries, r.Keyed) (b : BuildId)
    (paths : List TaskPath) : (freshTree registries b paths).Fresh := by
  refine Fresh.request (List.foldlRecOn _ _ (new_fresh _) fun t ht r hr => ?_) b paths
  cases hadd : t.addBuild r with
  | error e => exact ht
  | ok t' => exact ht.addBuild (h r hr) hadd

theorem registryOf_keyed (name : String) (tasks : List TaskDefinition) :
    (registryOf name tasks).Keyed :=
  (Registry.empty_keyed _).registerFree tasks

/-- Task `a` of the application depends on task `b` of the library, which must run after these. -/
def pairTree (after : List TaskReference) : BuildTree :=
  freshTree
    [registryOf "app"
      [{ TaskDefinition.plain ⟨":", "a"⟩ with
        dependsOn := [.inBuild ⟨"lib"⟩ ⟨":", "b"⟩]
        action := some ⟨.done, none⟩ }],
      registryOf "lib"
        [{ TaskDefinition.plain ⟨":", "b"⟩ with
          mustRunAfter := after
          action := some ⟨.done, none⟩ }]]
    ⟨"app"⟩ [⟨":", "a"⟩]

theorem pairTree_fresh (after : List TaskReference) : (pairTree after).Fresh := by
  refine freshTree_fresh (fun r hr => ?_) _ _
  simp only [List.mem_cons, List.not_mem_nil, or_false] at hr
  rcases hr with rfl | rfl <;> exact registryOf_keyed _ _

end BuildTree

end Foreman
