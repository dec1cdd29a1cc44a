import Foreman.BuildTree
import Foreman.Proofs.Requests

/-!
# Build trees while their tasks are discovered

The operations on a build tree before its graphs are frozen keep every graph sound, where the tasks
handed out are those that the builds of the tree have exported (`Assembled.sound`). Scheduling is a
sequence of such operations (`Assembled.schedule`).
-/

namespace Foreman

section Related

variable {α β : Type} {R : α → β → Prop} {o : Option α} {o' : Option β} {a : α} {b : β}

theorem exists_of_rel_some (h : Option.Rel R o (some b)) : ∃ a, o = some a ∧ R a b := by
  cases h with
  | some h => exact ⟨_, rfl, h⟩

theorem exists_of_some_rel (h : Option.Rel R (some a) o') : ∃ b, o' = some b ∧ R a b := by
  cases h with
  | some h => exact ⟨_, rfl, h⟩

theorem eq_none_of_rel_none (h : Option.Rel R o none) : o = none := by
  cases h
  rfl

theorem eq_none_of_none_rel (h : Option.Rel R none o') : o' = none := by
  cases h
  rfl

theorem isSome_of_rel (h : Option.Rel R o o') : o.isSome = o'.isSome := by
  cases h with
  | some => rfl
  | none => rfl

end Related

namespace WorkGraph

variable {g g' : WorkGraph} {H : BuildId → TaskPath → Prop}

/-- What was handed out stays handed out, and the task that was asked for joins it. -/
theorem exports_handOut {path : TaskPath} (hok : g.handOut path = .ok g') :
    path ∈ g'.exports ∧ (∀ p ∈ g.exports, p ∈ g'.exports) ∧ g'.build = g.build := by
  obtain ⟨hmem, rfl⟩ | ⟨-, -, rfl⟩ := handOut_cases hok
  · exact ⟨hmem, fun p hp => hp, rfl⟩
  · refine ⟨Std.TreeMap.mem_insertIfNew_self, fun p hp => ?_, rfl⟩
    exact Std.TreeMap.mem_insertIfNew.2 (.inr hp)

variable {σ : Type} {own : BuildId} {P : σ → Prop} {H : σ → BuildId → TaskPath → Prop} {start : σ}
  {exports : Exports} {cross : Option (CrossBuild σ)} {state : WorkGraph × σ}

theorem Grown.queueAll (h : Grown own P H start exports state) (paths : List TaskPath) :
    Grown own P H start exports ((state.1.queueAll paths).1, state.2) := by
  refine eachUntilError_keeps (Q := fun g => Grown own P H start exports (g, state.2))
    (fun path _ g hg => ?_) h
  cases hq : g.queue path with
  | error e => exact hg
  | ok g' =>
    obtain ⟨hs, hb, he⟩ := queue_sound hg.sound hq
    exact ⟨hb.trans hg.build, he.trans hg.exports, hs, hg.others, hg.grows⟩

theorem Grown.schedule (hcross : ∀ c, cross = some c → c.Keeps own P H)
    (h : Grown own P H start exports state) (paths : List TaskPath) :
    Grown own P H start exports (schedule cross paths state).2 := by
  have hq := h.queueAll paths
  rw [WorkGraph.schedule]
  generalize state.1.queueAll paths = answer at hq
  obtain ⟨g, error⟩ := answer
  cases error with
  | some e => exact hq
  | none =>
    simp only
    cases hs : scheduleQueued cross (g, state.2) with
    | error e => exact hq
    | ok answer => exact scheduleQueued_grown hcross hq hs

end WorkGraph

namespace BuildTree

variable {t t' : BuildTree} {builds : Std.TreeMap BuildId Controller} {b own : BuildId}
  {c c' : Controller} {path : TaskPath}

/-! ## Builds that hand out tasks to each other -/

def HandedOut (builds : Std.TreeMap BuildId Controller) (b : BuildId) (path : TaskPath) : Prop :=
  ∃ c, builds[b]? = some c ∧ path ∈ c.graph.exports

/-- What holds of a controller that is kept under the name `b`. -/
structure Discovering (H : BuildId → TaskPath → Prop) (b : BuildId) (c : Controller) : Prop where
  state : c.state = .discoveringTasks
  build : c.build = b
  graph : c.graph.Sound H

/-- Every build is kept under its name, and what its graph takes from others was handed out. -/
def AllSound (builds : Std.TreeMap BuildId Controller) : Prop :=
  ∀ b c, builds[b]? = some c → Discovering (HandedOut builds) b c

theorem getElem?_insert_ne {d : BuildId} (h : d ≠ b) : (builds.insert b c)[d]? = builds[d]? := by
  rw [Std.TreeMap.getElem?_insert, if_neg]
  rw [Std.LawfulEqCmp.compare_eq_iff_eq]
  exact fun he => h he.symm

/-- A controller that has handed out as much takes the place of the old one. -/
theorem handedOut_insert (hc : builds[b]? = some c)
    (hexports : ∀ p ∈ c.graph.exports, p ∈ c'.graph.exports) (d : BuildId) (p : TaskPath)
    (h : HandedOut builds d p) : HandedOut (builds.insert b c') d p := by
  obtain ⟨e, he, hp⟩ := h
  by_cases hd : d = b
  · subst hd
    rw [hc, Option.some.injEq] at he
    subst he
    exact ⟨c', Std.TreeMap.getElem?_insert_self, hexports p hp⟩
  · exact ⟨e, (getElem?_insert_ne hd).trans he, hp⟩

theorem AllSound.insert (h : AllSound builds)
    (hgrows : ∀ d p, HandedOut builds d p → HandedOut (builds.insert b c') d p)
    (hc' : Discovering (HandedOut (builds.insert b c')) b c') : AllSound (builds.insert b c') := by
  intro d e he
  by_cases hd : d = b
  · subst hd
    rw [Std.TreeMap.getElem?_insert_self, Option.some.injEq] at he
    subst he
    exact hc'
  · rw [getElem?_insert_ne hd] at he
    exact { h d e he with graph := (h d e he).graph.mono hgrows }

/-- What an operation on one controller keeps. -/
structure Preserved (c c' : Controller) : Prop where
  state : c'.state = c.state
  build : c'.build = c.build
  exports : ∀ p ∈ c.graph.exports, p ∈ c'.graph.exports
  graph : ∀ H : BuildId → TaskPath → Prop, c.graph.Sound H → c'.graph.Sound H

theorem Preserved.trans {c'' : Controller} (h : Preserved c c') (h' : Preserved c' c'') :
    Preserved c c'' where
  state := h'.state.trans h.state
  build := h'.build.trans h.build
  exports p hp := h'.exports p (h.exports p hp)
  graph H hs := h'.graph H (h.graph H hs)

theorem AllSound.preserve (h : AllSound builds) (hc : builds[b]? = some c) (hp : Preserved c c') :
    AllSound (builds.insert b c') := by
  have hgrows := handedOut_insert hc hp.exports
  have hold := h b c hc
  refine h.insert hgrows ⟨hp.state.trans hold.state, hp.build.trans hold.build, ?_⟩
  exact hp.graph _ (hold.graph.mono hgrows)

/-! ## Operations on one controller -/

theorem preserved_want (c : Controller) (path : TaskPath) : Preserved c (c.want path) := by
  rw [Controller.want]
  split
  · exact ⟨rfl, rfl, fun _ hp => hp, fun _ h => h⟩
  · exact ⟨rfl, rfl, fun _ hp => hp, fun _ h => h⟩

theorem preserved_queue (hok : c.queue path = .ok c') : Preserved c c' := by
  rw [Controller.eq_of_queue hok]
  exact preserved_want c path

theorem preserved_declare {providers : List (ProviderId × Provider)} {task : TaskDefinition}
    (hok : c.declare providers task = .ok c') : Preserved c c' := by
  obtain ⟨g, hg, rfl⟩ := Controller.eq_of_declare hok
  obtain ⟨hbuild, hexports, _⟩ := WorkGraph.declare_spec hg
  refine ⟨rfl, hbuild, fun p hp => ?_, fun H hs => WorkGraph.declare_sound hs hg⟩
  show p ∈ g.exports
  rw [hexports]
  exact hp

theorem preserved_handOut {g : WorkGraph} (hg : c.graph.handOut path = .ok g) :
    Preserved c { c with graph := g } ∧ path ∈ g.exports := by
  obtain ⟨hpath, hold, hbuild⟩ := WorkGraph.exports_handOut hg
  exact ⟨⟨rfl, hbuild, hold, fun H hs => (WorkGraph.handOut_spec hg).sound hs⟩, hpath⟩

theorem preserved_observeTask (hok : c.observeTask path = .ok c') :
    Preserved c c' ∧ path ∈ c'.graph.exports := by
  obtain ⟨g, hg, rfl⟩ := Controller.eq_of_observeTask hok
  exact preserved_handOut hg

theorem preserved_exportTask (hok : c.exportTask path = .ok c') :
    Preserved c c' ∧ path ∈ c'.graph.exports := by
  obtain ⟨g, hg, rfl⟩ := Controller.eq_of_exportTask hok
  obtain ⟨hp, hpath⟩ := preserved_handOut hg
  split
  · have hw := preserved_want { c with graph := g } path
    exact ⟨hp.trans hw, hw.exports path hpath⟩
  · exact ⟨hp, hpath⟩

theorem preserved_stop (hok : c.stop = .ok c') : Preserved c c' := by
  rw [Controller.eq_of_stop hok]
  refine ⟨rfl, rfl, fun p hp => ?_, fun H hs => hs.congr rfl rfl rfl⟩
  exact Std.TreeMap.mem_map.2 hp

/-! ## Operations that ask other builds -/

/-- What asking other builds keeps, for build `own` with controller `c`. -/
def Around (own : BuildId) (c : Controller) (builds : Std.TreeMap BuildId Controller) : Prop :=
  AllSound builds ∧ builds[own]? = some c

theorem askController_keeps {ask : Controller → TaskPath → Except ExportError Controller}
    (hask : ∀ c path c', ask c path = .ok c' → Preserved c c' ∧ path ∈ c'.graph.exports)
    (own : BuildId) (c : Controller) : Keeps (askController ask) own (Around own c) HandedOut := by
  intro build hne path others h
  rw [askController]
  cases hd : others[build]? with
  | none => exact ⟨h, fun _ _ hb => hb, fun he => by cases he⟩
  | some d =>
    simp only
    cases hd' : ask d path with
    | error e => exact ⟨h, fun _ _ hb => hb, fun he => by cases he⟩
    | ok d' =>
      obtain ⟨hp, hpath⟩ := hask d path d' hd'
      refine ⟨⟨h.1.preserve hd hp, ?_⟩, handedOut_insert hd hp.exports, fun _ => ?_⟩
      · exact (getElem?_insert_ne fun he => hne he.symm).trans h.2
      · exact ⟨d', Std.TreeMap.getElem?_insert_self, hpath⟩

theorem crossBuild_keeps (own : BuildId) (c : Controller) :
    crossBuild.Keeps own (Around own c) HandedOut where
  request := askController_keeps (fun _ _ _ => preserved_exportTask) own c
  observe := askController_keeps (fun _ _ _ => preserved_observeTask) own c

/-- The builds of a tree are reached in one way only. -/
theorem of_crossBuild {P : CrossBuild (Std.TreeMap BuildId Controller) → Prop} (h : P crossBuild)
    (cross : CrossBuild (Std.TreeMap BuildId Controller)) (hcross : some crossBuild = some cross) :
    P cross := by
  cases hcross
  exact h

/-- What a controller does among the others leaves the tree sound, if it only schedules. -/
theorem allSound_insert_grown {others : Std.TreeMap BuildId Controller}
    (hstate : c'.state = .discoveringTasks)
    (hg : WorkGraph.Grown b (Around b c) HandedOut builds c.graph.exports (c'.graph, others)) :
    AllSound (others.insert b c') := by
  have hexports : ∀ p ∈ c.graph.exports, p ∈ c'.graph.exports := by
    intro p hp
    rw [hg.exports]
    exact hp
  have hgrows := handedOut_insert hg.others.2 hexports
  exact hg.others.1.insert hgrows ⟨hstate, hg.build, hg.sound.mono hgrows⟩

theorem grown_start (h : AllSound builds) (hc : builds[b]? = some c) :
    WorkGraph.Grown b (Around b c) HandedOut builds c.graph.exports (c.graph, builds) :=
  ⟨(h b c hc).build, rfl, (h b c hc).graph, ⟨h, hc⟩, fun _ _ hb => hb⟩

theorem AllSound.populate (h : AllSound t.builds) (hc : t.builds[b]? = some c)
    (paths : List TaskPath) :
    AllSound (t.withOthers b c (Controller.populate (some crossBuild) paths)).2.builds := by
  have hstate := (h b c hc).state
  have hg := (grown_start h hc).schedule (of_crossBuild (crossBuild_keeps b c)) paths
  simp only [withOthers, Controller.populate, Controller.require, if_pos hstate]
  exact allSound_insert_grown hstate hg

theorem AllSound.scheduleQueued (h : AllSound t.builds) (hc : t.builds[b]? = some c) :
    AllSound (t.withOthers b c (Controller.scheduleQueued (some crossBuild))).2.builds := by
  have hstate := (h b c hc).state
  have hstart := grown_start h hc
  simp only [withOthers, Controller.scheduleQueued, Controller.require, if_pos hstate]
  split
  · exact allSound_insert_grown hstate hstart
  · exact allSound_insert_grown hstate
      (hstart.schedule (of_crossBuild (crossBuild_keeps b c)) _)

/-! ## Assembling a tree -/

/-- The build trees before their graphs are frozen: builds are added, and then tasks are declared,
requested, handed out and scheduled in any order. -/
inductive Assembled : BuildTree → Prop
  | new (services : Services) : Assembled (.new services)
  | serve {t : BuildTree} (h : Assembled t) (services : Services) : Assembled { t with services }
  | addBuild {t t' : BuildTree} {registry : Registry} (h : Assembled t)
      (hok : t.addBuild registry = .ok t') : Assembled t'
  | declare {t : BuildTree} {b : BuildId} {c c' : Controller}
      {providers : List (ProviderId × Provider)} {task : TaskDefinition} (h : Assembled t)
      (hc : t.controller? b = some c) (hok : c.declare providers task = .ok c') :
      Assembled (t.setController b c')
  | queue {t : BuildTree} {b : BuildId} {c c' : Controller} {path : TaskPath} (h : Assembled t)
      (hc : t.controller? b = some c) (hok : c.queue path = .ok c') :
      Assembled (t.setController b c')
  | exportTask {t : BuildTree} {b : BuildId} {c c' : Controller} {path : TaskPath} (h : Assembled t)
      (hc : t.controller? b = some c) (hok : c.exportTask path = .ok c') :
      Assembled (t.setController b c')
  | observeTask {t : BuildTree} {b : BuildId} {c c' : Controller} {path : TaskPath}
      (h : Assembled t) (hc : t.controller? b = some c) (hok : c.observeTask path = .ok c') :
      Assembled (t.setController b c')
  | stop {t : BuildTree} {b : BuildId} {c c' : Controller} (h : Assembled t)
      (hc : t.controller? b = some c) (hok : c.stop = .ok c') : Assembled (t.setController b c')
  | populate {t : BuildTree} {b : BuildId} {c : Controller} (h : Assembled t)
      (hc : t.controller? b = some c) (paths : List TaskPath) :
      Assembled (t.withOthers b c (Controller.populate (some crossBuild) paths)).2
  | scheduleQueued {t : BuildTree} {b : BuildId} {c : Controller} (h : Assembled t)
      (hc : t.controller? b = some c) :
      Assembled (t.withOthers b c (Controller.scheduleQueued (some crossBuild))).2

/-- A new build leaves the others as they are. -/
theorem addBuild_spec {registry : Registry} (hok : t.addBuild registry = .ok t') :
    t'.builds = t.builds.insert registry.build (.new registry) ∧
      (∀ (d : BuildId) e, t.builds[d]? = some e → t'.builds[d]? = some e) ∧
      ∀ (d : BuildId) e, t'.builds[d]? = some e →
        t.builds[d]? = some e ∨ d = registry.build ∧ e = .new registry := by
  rw [addBuild] at hok
  split at hok
  · cases hok
  · rename_i hnew
    cases hok
    refine ⟨rfl, fun d e he => (getElem?_insert_ne fun hd => hnew ?_).trans he, fun d e he => ?_⟩
    · rw [← hd, ← Std.TreeMap.isSome_getElem?_eq_contains, he]
      rfl
    · by_cases hd : d = registry.build
      · subst hd
        rw [setController, Std.TreeMap.getElem?_insert_self, Option.some.injEq] at he
        exact .inr ⟨rfl, he.symm⟩
      · exact .inl ((getElem?_insert_ne hd).symm.trans he)

theorem Assembled.sound (h : t.Assembled) : AllSound t.builds := by
  induction h with
  | new services =>
    intro b c hc
    simp [BuildTree.new] at hc
  | serve _ _ ih => exact ih
  | @addBuild t t' registry _ hok ih =>
    obtain ⟨hbuilds, hold, _⟩ := addBuild_spec hok
    rw [hbuilds] at hold ⊢
    exact ih.insert (fun d p ⟨e, he, hp⟩ => ⟨e, hold d e he, hp⟩)
      ⟨rfl, rfl, WorkGraph.new_sound registry⟩
  | declare _ hc hok ih => exact ih.preserve hc (preserved_declare hok)
  | queue _ hc hok ih => exact ih.preserve hc (preserved_queue hok)
  | exportTask _ hc hok ih => exact ih.preserve hc (preserved_exportTask hok).1
  | observeTask _ hc hok ih => exact ih.preserve hc (preserved_observeTask hok).1
  | stop _ hc hok ih => exact ih.preserve hc (preserved_stop hok)
  | populate _ hc paths ih => exact ih.populate hc paths
  | scheduleQueued _ hc ih => exact ih.scheduleQueued hc

/-! ## Requests and schedules of the whole tree -/

theorem Assembled.request (h : t.Assembled) (b : BuildId) (paths : List TaskPath) :
    (t.request b paths).1.Assembled := by
  rw [BuildTree.request]
  split
  · exact h
  · refine eachUntilError_keeps (fun path _ t ht => ?_) h
    cases hc : t.controller? b with
    | none => exact ht
    | some c =>
      simp only [Option.map_some]
      cases hq : c.queue path with
      | error e => exact ht
      | ok c' => exact ht.queue hc hq

theorem Assembled.scheduleBuild {state : BuildTree × Bool} (h : state.1.Assembled) (b : BuildId) :
    (BuildTree.scheduleBuild b state).1.1.Assembled := by
  obtain ⟨t, grown⟩ := state
  rw [BuildTree.scheduleBuild]
  cases hc : t.controller? b with
  | none => exact h
  | some c =>
    have hs := h.scheduleQueued hc
    simp only
    generalize t.withOthers b c (Controller.scheduleQueued (some crossBuild)) = answer at hs
    obtain ⟨result, t'⟩ := answer
    cases result with
    | error e => exact hs
    | ok more => exact hs

/-- What each turn of a build keeps, scheduling keeps, also where it fails. -/
theorem schedule_keeps {Q : BuildTree → Prop}
    (hturn : ∀ (b : BuildId) (state : BuildTree × Bool), Q state.1 →
      Q (BuildTree.scheduleBuild b state).1.1) (h : Q t) : Q t.schedule.1 := by
  have hrounds : ∀ (fuel : Nat) (t : BuildTree), Q t → Q (scheduleRounds fuel t).1 := by
    intro fuel
    induction fuel with
    | zero => exact fun t h => h
    | succ fuel ih =>
      intro t h
      have hround : Q (eachUntilError BuildTree.scheduleBuild t.builds.keys (t, false)).1.1 :=
        eachUntilError_keeps (Q := fun state : BuildTree × Bool => Q state.1)
          (fun b _ state hs => hturn b state hs) h
      rw [scheduleRounds]
      generalize eachUntilError BuildTree.scheduleBuild t.builds.keys (t, false) = answer at hround
      obtain ⟨⟨t', grown⟩, error⟩ := answer
      cases error with
      | some e => exact hround
      | none =>
        cases grown with
        | true => exact ih t' hround
        | false => exact hround
  exact hrounds _ t h

theorem Assembled.schedule (h : t.Assembled) : t.schedule.1.Assembled :=
  schedule_keeps (fun b _ hs => hs.scheduleBuild b) h

end BuildTree

end Foreman
