import Foreman.Proofs.BuildTree.Waiting
import Foreman.Proofs.WorkGraph.Starting
import Foreman.Proofs.Workshop.Opening

/-!
# Trees whose jobs are about to run

A tree that was scheduled, frozen, checked and started (`BuildTree.Launched`) has sound plans, and
each task that a plan waits for is answered by its own build: it is handed out there, and it has an
outcome or a node that is still to run. So the workshop that the jobs of the tree share is in order
(`Launched.orderly`).
-/

namespace Foreman

namespace WorkGraph

variable {g g' : WorkGraph} {footprints : List Footprint} {p : Precedence} {path : TaskPath}
  {H : BuildId → TaskPath → Prop}

/-- What the run of a frozen graph starts with. -/
theorem FrozenTo.run?_eq (h : g.FrozenTo footprints p g') :
    g'.run? = some (.start (g.planOf footprints p) g'.exports) := by
  rw [h.eq]
  rfl

/-- What is handed out stays handed out, and lacks an outcome only if it is part of the run. -/
theorem publishUnscheduled_spec (h : path ∈ g.exports) : path ∈ g.publishUnscheduled.exports ∧
    (g.publishUnscheduled.exports.outcome? path = none → g.isScheduled path = true) := by
  refine ⟨(mem_exports_publishUnscheduled g path).2 h, fun hnone => ?_⟩
  rw [outcome?_publishUnscheduled] at hnone
  split at hnone
  · cases hnone
  · rename_i hnot
    by_contra hout
    exact hnot ⟨h, by simpa using hout, hnone⟩

/-- A task of the run has a node in the plan, from which others hear if it was handed out. -/
theorem exists_exportPath (hs : g.Sound H) (hf : g.footprints = .ok footprints) (p : Precedence)
    (hpath : path ∈ g.exports) (hsched : g.isScheduled path = true) :
    ∃ (i : Nat) (n : PlannedNode), (g.planOf footprints p).nodes[i]? = some n ∧
      n.exportPath? = some path := by
  rw [isScheduled, Option.any_eq_true] at hsched
  obtain ⟨n, hn, hstate⟩ := hsched
  rw [taskNode?, Option.bind_eq_some_iff] at hn
  obtain ⟨id, hfind, hn⟩ := hn
  obtain ⟨n', hn', hkey⟩ := find?_spec hfind
  cases hn.symm.trans hn'
  have hid : id ∈ g.scheduled := (hs.scheduled id).2 ⟨n, hn, hstate⟩
  obtain ⟨i, hi⟩ := List.mem_iff_getElem?.1 (Std.TreeSet.mem_toList.2 hid)
  obtain ⟨hall, hplaces⟩ := planOf_nodes hs hf p
  obtain ⟨m, hm⟩ := hplaces i id hi
  obtain ⟨id', u, hu⟩ := hall i m hm
  cases hi.symm.trans hu.position
  cases hn.symm.trans hu.node
  refine ⟨i, m, hm, hu.exportPath?_eq_some_iff.2 ⟨?_, hpath⟩⟩
  rw [hu.key_eq, hkey]

/-- A run that starts answers for what its graph has handed out. -/
theorem FrozenTo.answers (h : g.FrozenTo footprints p g') (hs : g.Sound H)
    (hpath : path ∈ g.exports) :
    (Run.start (g.planOf footprints p) g'.exports).Answers path := by
  have hexports : g'.exports = g.publishUnscheduled.exports := by
    rw [h.eq]
    rfl
  obtain ⟨hmem, hnone⟩ := publishUnscheduled_spec hpath
  rw [hexports]
  refine ⟨hmem, fun hout => ?_⟩
  obtain ⟨i, n, hn, hexport⟩ := exists_exportPath hs h.footprints_eq p hpath (hnone hout)
  refine ⟨i, n, hn, hexport, .scheduled, ?_, rfl⟩
  have hlt : i < (g.planOf footprints p).size := (Array.getElem?_eq_some_iff.1 hn).1
  simp [Run.start, Progress.start, Progress.state?, hlt]

/-- What the plan of a frozen graph waits for in other builds was handed out there. -/
theorem handedOut_of_asks (hs : g.Sound H) (hf : g.footprints = .ok footprints) {d : BuildId}
    (h : (g.planOf footprints p).Asks d path) : H d path := by
  obtain ⟨i, m, hm, hcase⟩ := h
  obtain ⟨id, n, hn⟩ := (planOf_nodes hs hf p).1 i m hm
  rcases hcase with hw | hafter
  · obtain ⟨footprint, dependents, rfl⟩ := hn.eq
    exact (hs.foreign id n d path hn.node hw).2.2
  · obtain ⟨s, _, u, hu, hkey⟩ := hn.mem_afterExports.1 hafter
    cases hw : u.work with
    | task definition => simp [Node.key, hw, Work.key] at hkey
    | foreign d' path' =>
      rw [Node.key, hw] at hkey
      cases hkey
      exact (hs.foreign s u d path hu hw).2.2

end WorkGraph

namespace BuildTree

variable {t t₁ t₂ : BuildTree} {b : BuildId} {c : Controller} {caller : Worker}

def plans (t : BuildTree) : Plans := fun b => (t.builds[b]?).bind (·.graph.plan)

def staff (t : BuildTree) (b : BuildId) : Nat := t.services.workersFor (t.planAt b).size

def launchedRuns (t : BuildTree) : List Run :=
  t.builds.keys.filterMap fun b => (t.controller? b).bind (·.graph.run?)

/-- The workshop in which the jobs of the builds run, for a caller who has given up its lease. -/
def opened (t : BuildTree) (caller : Worker) : Workshop :=
  let t := t.setTable (t.services.table.surrender caller)
  (Workshop.new t.services t.foreign).enrollAll t.launchedRuns (caller + 1)

/-- All jobs at the same time are steps in the one workshop. -/
theorem runAll_threads (t : BuildTree) (caller : Worker) :
    (t.runAll .threads caller).2 = (t.opened caller).execute.log := rfl

/-- A tree that was prepared without an error and whose builds were started. -/
inductive Launched : BuildTree → Prop
  | mk {t t₁ t₂ : BuildTree} (h : t.Assembled) (hprepare : t.prepare = (t₁, none))
      (hstart : t₁.eachController (·.start) = (t₂, none)) : Launched t₂

/-- The tree was frozen and then started, from builds that were still discovering their tasks. -/
structure Origin (t₀ t : BuildTree) : Prop where
  sound : AllSound t₀.builds
  stays : ∀ (b : BuildId) (c : Controller), t₀.builds[b]? = some c →
    ∃ c', t.builds[b]? = some c'
  frozen : ∀ (b : BuildId) (c : Controller), t.builds[b]? = some c →
    ∃ (c₀ : Controller) (footprints : List Footprint) (p : Precedence) (g : WorkGraph),
      t₀.builds[b]? = some c₀ ∧ c₀.graph.FrozenTo footprints p g ∧
        c.graph = { g with phase := .running }

theorem prepare_spec (h : t.Assembled) (hp : t.prepare = (t₁, none)) :
    ∃ t₀ : BuildTree, t₀.Assembled ∧ t₀.eachController (·.finalize) = (t₁, none) ∧
      t₁.checkCrossBuildCycles = .ok () := by
  have hs := (h.serve t.services.clearStop).schedule
  rw [prepare] at hp
  generalize BuildTree.schedule _ = answer at hp hs
  obtain ⟨t₀, error⟩ := answer
  cases error with
  | some e => cases hp
  | none =>
    simp only at hp hs
    generalize hf : t₀.eachController (·.finalize) = answer at hp
    obtain ⟨t', error⟩ := answer
    cases error with
    | some e => cases hp
    | none =>
      simp only at hp
      cases hc : t'.checkCrossBuildCycles with
      | error e => simp [hc] at hp
      | ok =>
        simp only [hc, Prod.mk.injEq, and_true] at hp
        subst hp
        exact ⟨t₀, hs, hf, hc⟩

theorem start_spec {c' : Controller} (h : c.start = .ok c') :
    c'.graph = { c.graph with phase := .running } := by
  rw [Controller.start] at h
  cases hr : c.require .readyToRun .startExecution with
  | error e => simp [hr, bind, Except.bind] at h
  | ok =>
    simp only [hr, bind, Except.bind, pure, Except.pure, WorkGraph.beginExecution] at h
    cases hg : c.graph.require .finalized .executeWorkGraph with
    | error e => simp [hg] at h
    | ok =>
      cases hplan : c.graph.plan with
      | none => simp [hg, hplan] at h
      | some plan =>
        simp only [hg, hplan, Except.ok.injEq] at h
        subst h
        simp [hplan]

theorem Origin.of_start {t₀ : BuildTree} (h : AllSound t₀.builds)
    (hf : t₀.eachController (·.finalize) = (t₁, none))
    (hstart : t₁.eachController (·.start) = (t₂, none)) : Origin t₀ t₂ := by
  refine ⟨h, fun b c hc => ?_, fun b c hc => ?_⟩
  · obtain ⟨c₁, hc₁, _⟩ := exists_eachController hf hc
    obtain ⟨c₂, hc₂, _⟩ := exists_eachController hstart hc₁
    exact ⟨c₂, hc₂⟩
  · obtain ⟨c₁, hc₁, hs⟩ := exists_of_eachController hstart hc
    obtain ⟨c₀, hc₀, hfin⟩ := exists_of_eachController hf hc₁
    obtain ⟨footprints, p, hto⟩ := WorkGraph.freeze_spec (finalize_spec hfin).1
    exact ⟨c₀, footprints, p, c₁.graph, hc₀, hto, start_spec hs⟩

theorem Launched.exists_origin (h : t.Launched) : ∃ t₀, Origin t₀ t := by
  obtain ⟨h, hprepare, hstart⟩ := h
  obtain ⟨t₀, h₀, hf, _⟩ := prepare_spec h hprepare
  exact ⟨t₀, .of_start h₀.sound hf hstart⟩

/-- The plan of a build, and how its run starts. -/
theorem Origin.exists_plan {t₀ : BuildTree} (h : Origin t₀ t) (hc : t.builds[b]? = some c) :
    ∃ (g g' : WorkGraph) (footprints : List Footprint) (p : Precedence),
      g.Sound (HandedOut t₀.builds) ∧ g.build = b ∧ g.FrozenTo footprints p g' ∧
      (∃ c₀, t₀.builds[b]? = some c₀ ∧ c₀.graph = g) ∧
      t.plans b = some (g.planOf footprints p) ∧
      c.graph.run? = some (.start (g.planOf footprints p) g'.exports) := by
  obtain ⟨c₀, footprints, p, g, hc₀, hto, hg⟩ := h.frozen b c hc
  have hs := h.sound b c₀ hc₀
  refine ⟨c₀.graph, g, footprints, p, hs.graph, hs.build, hto, ⟨c₀, hc₀, rfl⟩, ?_, ?_⟩
  · rw [plans, hc, Option.bind_some, hg]
    exact hto.plan_eq
  · rw [hg]
    exact hto.run?_eq

theorem exists_controller_of_plans {p : Plan} (hp : t.plans b = some p) :
    ∃ c, t.builds[b]? = some c ∧ c.graph.plan = some p :=
  Option.bind_eq_some_iff.1 hp

/-- No action of the tree visits a project. -/
def StaysHome (t : BuildTree) : Prop := ∀ b p, t.plans b = some p → p.StaysHome

theorem Launched.sound (h : t.Launched) (hhome : t.StaysHome) : t.plans.Sound := by
  obtain ⟨t₀, ho⟩ := h.exists_origin
  have hplan : ∀ b plan, t.plans b = some plan → ∃ (g : WorkGraph) (footprints : List Footprint)
      (p : Precedence) (g' : WorkGraph), g.Sound (HandedOut t₀.builds) ∧ g.build = b ∧
        g.FrozenTo footprints p g' ∧ plan = g.planOf footprints p := by
    intro b plan hp
    obtain ⟨c, hc, _⟩ := exists_controller_of_plans hp
    obtain ⟨g, g', footprints, p, hs, hb, hto, _, hplan, _⟩ := ho.exists_plan hc
    rw [hp, Option.some.injEq] at hplan
    exact ⟨g, footprints, p, g', hs, hb, hto, hplan⟩
  constructor
  case build =>
    intro b plan hp
    obtain ⟨g, footprints, p, g', _, hb, _, rfl⟩ := hplan b plan hp
    exact hb
  case sound =>
    intro b plan hp
    obtain ⟨g, footprints, p, g', hs, _, hto, rfl⟩ := hplan b plan hp
    exact WorkGraph.planOf_sound hs hto
  case footprint =>
    intro b plan i m d path hp hm hw
    obtain ⟨g, footprints, p, g', hs, _, hto, rfl⟩ := hplan b plan hp
    obtain ⟨id, n, hn⟩ := (WorkGraph.planOf_nodes hs hto.footprints_eq p).1 i m hm
    have hfoot := hn.footprint
    obtain ⟨footprint, dependents, rfl⟩ := hn.eq
    rw [show n.work = .foreign d path from hw, Work.footprint, Except.ok.injEq] at hfoot
    exact hfoot.symm
  case home => exact hhome

theorem Origin.mem_launchedRuns {t₀ : BuildTree} (h : Origin t₀ t) {r : Run} : r ∈ t.launchedRuns ↔
    ∃ b c, t.builds[b]? = some c ∧ c.graph.run? = some r ∧ r.plan.build = b := by
  rw [launchedRuns, List.mem_filterMap]
  constructor
  · rintro ⟨b, _, hr⟩
    obtain ⟨c, hc, hr⟩ := Option.bind_eq_some_iff.1 hr
    obtain ⟨g, _, footprints, p, _, hb, _, _, _, hrun⟩ := h.exists_plan hc
    rw [hr, Option.some.injEq] at hrun
    subst hrun
    exact ⟨b, c, hc, hr, hb⟩
  · rintro ⟨b, c, hc, hr, _⟩
    refine ⟨b, ?_, ?_⟩
    · rw [Std.TreeMap.mem_keys, Std.TreeMap.mem_iff_isSome_getElem?, hc]
      rfl
    · rw [controller?, hc]
      exact hr

theorem Origin.nodup_launchedRuns {t₀ : BuildTree} (h : Origin t₀ t) :
    (t.launchedRuns.map (·.plan.build)).Nodup := by
  rw [launchedRuns, List.map_filterMap]
  refine Std.TreeMap.nodup_keys.filterMap fun b d x hxb hxd => ?_
  have hname : ∀ b, x ∈ ((t.controller? b).bind (·.graph.run?)).map (·.plan.build) → x = b := by
    intro b hx
    obtain ⟨r, hr, rfl⟩ := Option.map_eq_some_iff.1 hx
    obtain ⟨c, hc, hr⟩ := Option.bind_eq_some_iff.1 hr
    obtain ⟨g, _, footprints, p, _, hb, _, _, _, hrun⟩ := h.exists_plan hc
    rw [hr, Option.some.injEq] at hrun
    subst hrun
    exact hb
  rw [← hname b hxb, ← hname d hxd]

/-- Before the first step the books are in order, if nobody but the caller holds a lease or a
key. -/
theorem Launched.orderly (h : t.Launched) (hleases : (t.services.table.surrender caller).Unleased)
    (hkeys : t.services.table.Unlocked) : (t.opened caller).Orderly t.plans t.staff := by
  obtain ⟨t₀, ho⟩ := h.exists_origin
  obtain ⟨last, henrolled⟩ := (Workshop.new_enrolled
    (t.setTable (t.services.table.surrender caller)).services
    (t.setTable (t.services.table.surrender caller)).foreign (caller + 1)).enrollAll
    ho.nodup_launchedRuns
  refine henrolled.orderly (fun b plan => ?_) (fun r hr => ?_) (fun b plan d path hp hasks => ?_)
    (fun r hr _ => ?_) hleases hkeys
  · constructor
    · intro hp
      obtain ⟨c, hc, _⟩ := exists_controller_of_plans hp
      obtain ⟨g, _, footprints, p, _, hb, _, _, hplan, hrun⟩ := ho.exists_plan hc
      rw [hp, Option.some.injEq] at hplan
      subst hplan
      exact ⟨_, ho.mem_launchedRuns.2 ⟨b, c, hc, hrun, hb⟩, rfl, hb⟩
    · rintro ⟨r, hr, rfl, rfl⟩
      obtain ⟨b, c, hc, hrun, hb⟩ := ho.mem_launchedRuns.1 hr
      obtain ⟨g, _, footprints, p, _, _, _, _, hplan, hrun'⟩ := ho.exists_plan hc
      rw [hrun, Option.some.injEq] at hrun'
      subst hrun'
      rw [hb]
      exact hplan
  · obtain ⟨b, c, hc, hrun, _⟩ := ho.mem_launchedRuns.1 hr
    obtain ⟨g, _, footprints, p, _, _, _, _, _, hrun'⟩ := ho.exists_plan hc
    rw [hrun, Option.some.injEq] at hrun'
    subst hrun'
    rfl
  · obtain ⟨c, hc, _⟩ := exists_controller_of_plans hp
    obtain ⟨g, _, footprints, p, hs, _, hto, _, hplan, _⟩ := ho.exists_plan hc
    rw [hp, Option.some.injEq] at hplan
    subst hplan
    obtain ⟨c₀, hc₀, hpath⟩ := WorkGraph.handedOut_of_asks hs hto.footprints_eq hasks
    obtain ⟨c', hc'⟩ := ho.stays d c₀ hc₀
    obtain ⟨g₁, _, _, _, hs₁, hb₁, hto₁, ⟨c₁, hc₁, rfl⟩, _, hrun⟩ := ho.exists_plan hc'
    rw [hc₀, Option.some.injEq] at hc₁
    subst hc₁
    exact ⟨_, ho.mem_launchedRuns.2 ⟨d, c', hc', hrun, hb₁⟩, hb₁, hto₁.answers hs₁ hpath⟩
  · obtain ⟨b, c, hc, hrun, hb⟩ := ho.mem_launchedRuns.1 hr
    obtain ⟨g, _, footprints, p, _, _, _, _, hplan, hrun'⟩ := ho.exists_plan hc
    rw [hrun, Option.some.injEq] at hrun'
    subst hrun'
    rw [staff, hb, planAt, show (t.builds[b]?).bind (·.graph.plan) = _ from hplan, Option.getD_some]
    exact Nat.le_refl _

end BuildTree

end Foreman
