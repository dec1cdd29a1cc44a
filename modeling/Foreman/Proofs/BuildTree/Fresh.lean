import Foreman.Proofs.BuildTree.Rounds

/-!
# Scheduling a fresh tree

In a tree of freshly added builds (`BuildTree.Fresh`) scheduling ends without an error just if every
requested task is declared (`Fresh.schedule_eq_none_iff`), and then no request is left and the
graphs are what was found (`Fresh.schedule_spec`).
-/

namespace Foreman

namespace BuildTree

variable {t₀ t t' : BuildTree} {b : BuildId} {c : Controller} {path : TaskPath} {log : List Finding}

/-! ## Fresh trees -/

/-- Each build of the tree is as it was added, but for what was requested of it. -/
def Fresh (t : BuildTree) : Prop :=
  ∀ (b : BuildId) (c : Controller), t.builds[b]? = some c → ∃ registry : Registry,
    registry.build = b ∧ registry.Keyed ∧ c = { Controller.new registry with queued := c.queued }

theorem new_fresh (services : Services) : (new services).Fresh := by
  intro b c hc
  simp [new] at hc

theorem Fresh.addBuild (h : t.Fresh) {registry : Registry} (hr : registry.Keyed)
    (hok : t.addBuild registry = .ok t') : t'.Fresh := by
  intro b c hc
  rcases (addBuild_spec hok).2.2 b c hc with hc | ⟨rfl, rfl⟩
  · exact h b c hc
  · exact ⟨registry, rfl, hr, rfl⟩

theorem Fresh.request (h : t.Fresh) (b : BuildId) (paths : List TaskPath) :
    (t.request b paths).1.Fresh := by
  rw [BuildTree.request]
  split
  · exact h
  · refine eachUntilError_keeps (Q := Fresh) (fun path _ t ht => ?_) h
    cases hc : t.controller? b with
    | none => exact ht
    | some c =>
      simp only [Option.map_some]
      cases hq : c.queue path with
      | error e => exact ht
      | ok c' =>
        intro d e he
        by_cases hd : d = b
        · subst hd
          obtain ⟨registry, hbuild, hkeyed, hnew⟩ := ht d c hc
          simp only [setController, Std.TreeMap.getElem?_insert_self, Option.some.injEq] at he
          subst he
          refine ⟨registry, hbuild, hkeyed, ?_⟩
          rw [Controller.eq_of_queue hq, Controller.want]
          split
          · exact hnew
          · conv_lhs => rw [hnew]
        · simp only [setController, getElem?_insert_ne hd] at he
          exact ht d e he

theorem Fresh.explored (h : t.Fresh) : Explored t [] t where
  sound b c hc := by
    obtain ⟨registry, rfl, _, hnew⟩ := h b c hc
    rw [hnew]
    exact ⟨rfl, rfl, WorkGraph.new_sound registry⟩
  builds b := by
    cases hc : t.builds[b]? with
    | none => exact .none
    | some c =>
      obtain ⟨registry, rfl, hkeyed, hnew⟩ := h b c hc
      refine .some ?_
      rw [hnew]
      exact ⟨(Controller.new_open hkeyed).congr rfl rfl rfl rfl rfl rfl, .refl,
        WorkGraph.new_surveyed registry, fun i n hn => by
          simp [Controller.new, WorkGraph.new] at hn,
        rfl, fun _ => rfl⟩
  known f hf := absurd hf List.not_mem_nil
  answers f hf := absurd hf List.not_mem_nil

def AllDeclared (t : BuildTree) : Prop :=
  ∀ (b : BuildId) (c : Controller), t.builds[b]? = some c → c.Declared

theorem Explored.scheduleBuild_declared (h : Explored t₀ log t) (hd : t.AllDeclared)
    (hc : t.builds[b]? = some c) (grown : Bool) :
    (∃ more, (c.scheduleQueued (some crossBuild) t.builds).1 = .ok more) ∧
      (BuildTree.scheduleBuild b (t, grown)).1.1.AllDeclared := by
  obtain ⟨c₀, _, hdisc⟩ := h.exists hc
  have hs := h.sound.sound_true hc
  have hsol := scheduleQueued_solicited t hdisc.isOpen hs
  obtain ⟨⟨more, hok⟩, hown⟩ := (hd b c hc).scheduleQueued (some crossBuild) t.builds hdisc hs
  refine ⟨⟨more, hok⟩, ?_⟩
  rw [scheduleBuild_eq hc]
  simp only [hok]
  intro d e he
  by_cases hdb : d = b
  · subst hdb
    simp only [Std.TreeMap.getElem?_insert_self, Option.some.injEq] at he
    subst he
    exact hown
  · simp only [getElem?_insert_ne hdb] at he
    have hasked := hsol d
    rw [he] at hasked
    obtain ⟨e₀, he₀, hasked⟩ := exists_of_rel_some hasked
    exact (hd d e₀ he₀).solicited hasked

theorem Explored.round_declared (h : Explored t₀ log t) (hd : t.AllDeclared) (names : List BuildId)
    (grown : Bool) : (eachUntilError BuildTree.scheduleBuild names (t, grown)).2 = none ∧
      (eachUntilError BuildTree.scheduleBuild names (t, grown)).1.1.AllDeclared := by
  induction names generalizing t grown log with
  | nil => exact ⟨rfl, hd⟩
  | cons b names ih =>
    rw [eachUntilError]
    cases hc : t.builds[b]? with
    | none =>
      rw [scheduleBuild_eq_of_none hc]
      exact ih h hd grown
    | some c =>
      obtain ⟨⟨more, hok⟩, hd'⟩ := h.scheduleBuild_declared hd hc grown
      have h' := h.scheduleBuild hc grown hok
      have hnone : (BuildTree.scheduleBuild b (t, grown)).2 = none := by
        rw [scheduleBuild_eq hc]
        simp only [hok]
      generalize BuildTree.scheduleBuild b (t, grown) = answer at hd' h' hnone ⊢
      obtain ⟨⟨t₁, grown₁⟩, error⟩ := answer
      obtain rfl : error = none := hnone
      exact ih h' hd' grown₁

theorem Explored.scheduleRounds_declared (h : Explored t₀ log t) (hd : t.AllDeclared) (fuel : Nat) :
    (BuildTree.scheduleRounds fuel t).2 = none := by
  induction fuel generalizing t log with
  | zero => rfl
  | succ fuel ih =>
    have hround := h.round t.builds.keys false
    have hdeclared := h.round_declared hd t.builds.keys false
    rw [BuildTree.scheduleRounds]
    generalize roundFindings t.builds.keys (t, false) = found at hround
    generalize eachUntilError BuildTree.scheduleBuild t.builds.keys (t, false) = answer
      at hround hdeclared ⊢
    obtain ⟨⟨t₁, grown⟩, error⟩ := answer
    obtain ⟨rfl, hd₁⟩ : error = none ∧ t₁.AllDeclared := hdeclared
    cases grown with
    | true => exact ih (hround rfl) hd₁
    | false => rfl

/-- A build of which nothing was scheduled yet, with a request that it cannot meet. -/
def Stuck (b : BuildId) (path : TaskPath) (t : BuildTree) : Prop :=
  ∃ c, t.builds[b]? = some c ∧ c.graph.nodes = #[] ∧ path ∈ c.queued ∧
    c.graph.registry.contains path = false

theorem Stuck.solicited (h : Stuck b path t)
    (hasked : Option.Rel Controller.Solicited t.builds[b]? t'.builds[b]?) : Stuck b path t' := by
  obtain ⟨c, hc, hnodes, hpath, hmissing⟩ := h
  rw [hc] at hasked
  obtain ⟨c', hc', hasked⟩ := exists_of_some_rel hasked
  refine ⟨c', hc', ?_, hasked.queued path hpath, ?_⟩
  · rw [hasked.graph]
    exact hnodes
  · rw [hasked.graph]
    exact hmissing

theorem Explored.scheduleBuild_stuck (h : Explored t₀ log t) (hstuck : Stuck b path t)
    (grown : Bool) :
    ∃ e, (BuildTree.scheduleBuild b (t, grown)).2 = some e := by
  obtain ⟨c, hc, hnodes, hpath, hmissing⟩ := hstuck
  obtain ⟨c₀, _, hdisc⟩ := h.exists hc
  have hbatch : path ∈ c.batch := by
    refine List.mem_filter.2 ⟨Std.TreeSet.mem_toList.2 hpath, ?_⟩
    simp [WorkGraph.isRequired, WorkGraph.taskNode?, WorkGraph.find?, hnodes]
  have hdropped : c.dropped (.scheduleQueued (some crossBuild) t.builds) ≠ [] := by
    intro hnil
    rw [List.dropWhile_eq_nil_iff.1 hnil path hbatch] at hmissing
    cases hmissing
  obtain ⟨e, he⟩ := (Controller.scheduleQueued_error_iff _ _ hdisc.isOpen).2 hdropped
  refine ⟨e, ?_⟩
  rw [scheduleBuild_eq hc]
  simp only [he]

/-- A round that comes to the build fails, if not before. -/
theorem Explored.round_stuck (h : Explored t₀ log t) (hstuck : Stuck b path t)
    {names : List BuildId} (hb : b ∈ names) (grown : Bool) :
    ∃ e, (eachUntilError BuildTree.scheduleBuild names (t, grown)).2 = some e := by
  induction names generalizing t grown log with
  | nil => exact absurd hb List.not_mem_nil
  | cons d names ih =>
    rw [eachUntilError]
    by_cases hdb : d = b
    · subst hdb
      obtain ⟨e, he⟩ := h.scheduleBuild_stuck hstuck grown
      generalize BuildTree.scheduleBuild d (t, grown) = answer at he ⊢
      obtain ⟨state, error⟩ := answer
      obtain rfl : error = some e := he
      exact ⟨e, rfl⟩
    · have hmem := (List.mem_cons.1 hb).resolve_left (Ne.symm hdb)
      cases hc : t.builds[d]? with
      | none =>
        rw [scheduleBuild_eq_of_none hc]
        exact ih h hstuck hmem grown
      | some c =>
        obtain ⟨c₀, _, hdisc⟩ := h.exists hc
        have hsol := scheduleQueued_solicited t hdisc.isOpen (h.sound.sound_true hc)
        have hnext : ∀ more, (c.scheduleQueued (some crossBuild) t.builds).1 = .ok more →
            Explored t₀ (log ++ buildFindings d t) (BuildTree.scheduleBuild d (t, grown)).1.1 :=
          fun _ hok => h.scheduleBuild hc grown hok
        rw [scheduleBuild_eq hc] at hnext ⊢
        generalize c.scheduleQueued (some crossBuild) t.builds = answer at hsol hnext ⊢
        obtain ⟨result, c', others⟩ := answer
        cases result with
        | error e => exact ⟨e, rfl⟩
        | ok more =>
          refine ih (hnext more rfl) (hstuck.solicited ?_) hmem (grown || more)
          rw [show (others.insert d c')[b]? = others[b]? from getElem?_insert_ne (Ne.symm hdb)]
          exact hsol b

/-! ## What scheduling a fresh tree comes to -/

/-- Every task that is requested of a build is declared there. -/
def RequestsDeclared (t : BuildTree) : Prop :=
  ∀ (b : BuildId) (c : Controller), t.builds[b]? = some c →
    ∀ path ∈ c.queued, c.graph.registry.contains path = true

theorem Fresh.allDeclared (h : t.Fresh) (hd : t.RequestsDeclared) : t.AllDeclared := by
  intro b c hc
  obtain ⟨registry, _, _, hnew⟩ := h b c hc
  refine ⟨hd b c hc, fun path hp => ?_⟩
  rw [hnew] at hp
  simp [Controller.new, WorkGraph.new] at hp

/-- Scheduling a fresh tree fails just if it meets a requested task that is not declared. -/
theorem Fresh.schedule_eq_none_iff (h : t.Fresh) :
    t.schedule.2 = none ↔ t.RequestsDeclared := by
  constructor
  · intro hok b c hc path hp
    by_contra hmissing
    obtain ⟨registry, _, _, hnew⟩ := h b c hc
    have hstuck : Stuck b path t := by
      refine ⟨c, hc, ?_, hp, by simpa using hmissing⟩
      rw [hnew]
      rfl
    have hmem : b ∈ t.builds.keys := by
      rw [Std.TreeMap.mem_keys, Std.TreeMap.mem_iff_isSome_getElem?, hc]
      rfl
    obtain ⟨e, he⟩ := h.explored.round_stuck hstuck hmem false
    rw [schedule, scheduleRounds] at hok
    generalize eachUntilError scheduleBuild t.builds.keys (t, false) = answer at he hok
    obtain ⟨⟨t₁, grown⟩, error⟩ := answer
    obtain rfl : error = some e := he
    cases hok
  · exact fun hd => h.explored.scheduleRounds_declared (h.allDeclared hd) _

/-- Where scheduling a fresh tree meets no unknown task, every request has been met, and the graphs
are what was found. -/
theorem Fresh.schedule_spec (h : t.Fresh) (hok : t.schedule.2 = none) :
    Explored t t.scheduleFindings t.schedule.1 ∧
      ∀ (b : BuildId) (c : Controller), t.schedule.1.builds[b]? = some c →
        c.queued.isEmpty = true := by
  have hrests := h.explored.bounded.rests (t.growthBound + 1) (by omega)
  exact ⟨h.explored.scheduleRounds _ hok, fun b c hc => hrests.queued h.explored.bounded hok hc⟩

end BuildTree

end Foreman
