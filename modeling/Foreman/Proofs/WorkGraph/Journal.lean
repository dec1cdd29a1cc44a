import Foreman.Proofs.WorkGraph.Reaching

/-!
# The run over a history of requests

A journal keeps beside a work graph which requests were merged into the run by a batch and which
still wait for one. After any history of requests, refused ones among them, the run consists of all
that the merged requests reach along dependencies and finalizers, and required is what they reach
along dependencies alone (`Journal.run_exact`).
-/

namespace Foreman

namespace WorkGraph

/-- What can be asked of a graph while it is populated. A call that schedules finds the other builds
as it is told. -/
inductive Request : Type 1
  | declare (providers : List (ProviderId × Provider)) (task : TaskDefinition)
  | handOut (path : TaskPath)
  | queue (path : TaskPath)
  | schedule {σ : Type} (cross : Option (CrossBuild σ)) (paths : List TaskPath) (others : σ)
  | scheduleQueued {σ : Type} (cross : Option (CrossBuild σ)) (others : σ)

/-- A graph with the tasks whose requests wait for a batch, and those that a batch has merged. -/
structure Journal where
  graph : WorkGraph
  pending : List TaskPath
  merged : List TaskPath

namespace Journal

def new (registry : Registry) : Journal := ⟨.new registry, [], []⟩

def declare (j : Journal) (providers : List (ProviderId × Provider)) (task : TaskDefinition) :
    Journal :=
  { j with graph := (j.graph.declare providers task).toOption.getD j.graph }

def handOut (j : Journal) (path : TaskPath) : Journal :=
  { j with graph := (j.graph.handOut path).toOption.getD j.graph }

def queue (j : Journal) (path : TaskPath) : Journal :=
  match j.graph.queue path with
  | .ok graph => { j with graph, pending := j.pending ++ [path] }
  | .error _ => j

def scheduleQueued {σ : Type} (j : Journal) (cross : Option (CrossBuild σ)) (others : σ) :
    Journal :=
  match WorkGraph.scheduleQueued cross (j.graph, others) with
  | .ok (_, graph, _) => ⟨graph, [], j.merged ++ j.pending⟩
  | .error _ => j

/-- Tasks are requested up to the first that is refused, and if none is a batch follows. -/
def schedule {σ : Type} (j : Journal) (cross : Option (CrossBuild σ)) (paths : List TaskPath)
    (others : σ) : Journal :=
  match WorkGraph.schedule cross paths (j.graph, others) with
  | (.ok _, graph, _) => ⟨graph, [], j.merged ++ (j.pending ++ paths)⟩
  | (.error _, graph, _) =>
    { j with graph, pending := j.pending ++ paths.takeWhile j.graph.registry.contains }

def after (j : Journal) : Request → Journal
  | .declare providers task => j.declare providers task
  | .handOut path => j.handOut path
  | .queue path => j.queue path
  | .schedule cross paths others => j.schedule cross paths others
  | .scheduleQueued cross others => j.scheduleQueued cross others

def afterAll (j : Journal) (requests : List Request) : Journal := requests.foldl after j

/-! ## What every request keeps -/

variable {j : Journal} {g g' : WorkGraph} {path : TaskPath} {pending merged : List TaskPath}

/-- The waiting requests are queued and nothing else is, and the run is what the merged requests
reach. -/
structure Kept (j : Journal) : Prop where
  built : Built j.graph
  phase : j.graph.phase = .populating
  keyed : j.graph.registry.Keyed
  numbered : j.graph.Numbered
  queued : ∀ id ∈ j.graph.queued, ∃ path ∈ j.pending, ∃ n, j.graph.nodes[id]? = some n ∧
    n.key = .task path
  asked : ∀ path ∈ j.pending, j.graph.Asked path
  confined : j.graph.Confined j.merged
  required : ∀ path ∈ j.merged, j.graph.isRequired path = true

theorem new_kept {registry : Registry} (h : registry.Keyed) : (new registry).Kept where
  built := .new registry
  phase := rfl
  keyed := h
  numbered := by simp [Numbered, new, WorkGraph.new]
  queued := by simp [new, WorkGraph.new]
  asked := by simp [new]
  confined := new_confined registry
  required := by simp [new]

/-- A graph whose nodes and queue are as they were. -/
theorem Kept.congr (h : j.Kept) (hbuilt : Built g') (hphase : g'.phase = j.graph.phase)
    (hkeyed : g'.registry.Keyed) (hnodes : g'.nodes = j.graph.nodes)
    (hqueued : g'.queued = j.graph.queued) : Kept { j with graph := g' } where
  built := hbuilt
  phase := hphase.trans h.phase
  keyed := hkeyed
  numbered := by
    rw [Numbered, hnodes, hqueued]
    exact h.numbered
  queued := by
    rw [hnodes, hqueued]
    exact h.queued
  asked path hp := (h.asked path hp).congr hnodes hqueued
  confined := h.confined.of_spares_all (.of_nodes hnodes) (.of_nodes hphase hnodes)
  required path hp := (isRequired_congr hnodes).trans (h.required path hp)

theorem Kept.declare (h : j.Kept) (providers : List (ProviderId × Provider))
    (task : TaskDefinition) :
    (j.declare providers task).Kept := by
  rw [Journal.declare]
  cases hok : j.graph.declare providers task with
  | error e => exact h
  | ok g' =>
    have hbuilt := h.built.declare hok
    obtain ⟨registry, hr, rfl⟩ := declare_eq hok
    exact h.congr hbuilt rfl ((h.keyed.provideAll providers).register hr) rfl rfl

theorem Kept.handOut (h : j.Kept) (path : TaskPath) : (j.handOut path).Kept := by
  rw [Journal.handOut]
  cases hok : j.graph.handOut path with
  | error e => exact h
  | ok g' =>
    have hspec := handOut_spec hok
    refine h.congr (h.built.handOut hok) hspec.phase ?_ hspec.nodes hspec.queued
    exact hspec.registry ▸ h.keyed

theorem contains_of_queue (hok : g.queue path = .ok g') : g.registry.contains path = true := by
  by_contra hnot
  have hrefused : ¬ (g.phase = .populating ∧ g.registry.contains path = true) := fun h => hnot h.2
  obtain ⟨e, he⟩ := queue_error hrefused
  rw [he] at hok
  cases hok

theorem Kept.queue_ok (h : j.Kept) (hok : j.graph.queue path = .ok g') :
    Kept { j with graph := g', pending := j.pending ++ [path] } := by
  obtain ⟨g'', hok', hrequested, hasked⟩ :=
    WorkGraph.queue_ok h.phase h.keyed (contains_of_queue hok)
  cases hok'.symm.trans hok
  have hforward := hrequested.toForward
  refine ⟨h.built.queue hok, hforward.phase.trans h.phase, hrequested.registry ▸ h.keyed,
    hrequested.numbered h.numbered, fun id hid => ?_, fun p hp => ?_,
    h.confined.of_spares_all (queue_spares hok) hforward,
    fun p hp => hforward.isRequired (h.required p hp)⟩
  · rcases mem_queued_queue h.keyed hok hid with hid | ⟨n, hn, hkey⟩
    · obtain ⟨p, hp, n, hn, hkey⟩ := h.queued id hid
      obtain ⟨n', hn', hf⟩ := hforward.node id n hn
      exact ⟨p, List.mem_append_left _ hp, n', hn', hf.key.trans hkey⟩
    · exact ⟨path, List.mem_append_right _ (List.mem_singleton_self path), n, hn, hkey⟩
  · rcases List.mem_append.1 hp with hp | hp
    · exact hrequested.asked (h.asked p hp)
    · rw [List.mem_singleton.1 hp]
      exact hasked

theorem Kept.queue (h : j.Kept) (path : TaskPath) : (j.queue path).Kept := by
  rw [Journal.queue]
  split
  · exact h.queue_ok (by assumption)
  · exact h

/-- The tasks before the first that is not declared wait for the next batch. Induction is on the
tasks. -/
theorem Kept.queueAll (h : j.Kept) (paths : List TaskPath) :
    Kept { j with
      graph := (j.graph.queueAll paths).1
      pending := j.pending ++ paths.takeWhile j.graph.registry.contains } := by
  induction paths generalizing j with
  | nil =>
    rw [List.takeWhile_nil, List.append_nil]
    exact h
  | cons path paths ih =>
    by_cases hdeclared : j.graph.registry.contains path = true
    · obtain ⟨g₁, hq, hrequested, _⟩ := WorkGraph.queue_ok h.phase h.keyed hdeclared
      have hstep : j.graph.queueAll (path :: paths) = g₁.queueAll paths := by
        simp only [WorkGraph.queueAll, eachUntilError, hq]
      have hrest := ih (h.queue_ok hq)
      rw [hstep, List.takeWhile_cons, if_pos hdeclared]
      simp only [hrequested.registry, List.append_assoc, List.singleton_append] at hrest
      exact hrest
    · have hrefused : ¬ (j.graph.phase = .populating ∧ j.graph.registry.contains path = true) :=
        fun h => hdeclared h.2
      obtain ⟨e, he⟩ := queue_error hrefused
      have hstep : j.graph.queueAll (path :: paths) = (j.graph, some e) := by
        simp only [WorkGraph.queueAll, eachUntilError, he]
      rw [hstep, List.takeWhile_cons, if_neg hdeclared, List.append_nil]
      exact h

section Batches

variable {σ : Type} (cross : Option (CrossBuild σ)) (others : σ)

/-- A batch adds to the run what the waiting requests reach, and makes them required. -/
theorem Kept.scheduleQueued_ok (h : j.Kept) {grown : Bool} {others' : σ}
    (hok : WorkGraph.scheduleQueued cross (j.graph, others) = .ok (grown, g', others')) :
    Kept ⟨g', [], j.merged ++ j.pending⟩ := by
  obtain ⟨hforward, hinformed, -, hempty, hqueued⟩ := scheduleQueued_spec cross h.numbered hok
  have hnone := Std.TreeSet.isEmpty_iff_forall_not_mem.1 hempty
  refine ⟨h.built.scheduleQueued hok, hforward.phase.trans h.phase, h.keyed.informed hinformed,
    fun id hid => absurd hid (hnone id), fun id hid => absurd hid (hnone id),
    fun p hp => absurd hp List.not_mem_nil, ?_, fun p hp => ?_⟩
  · refine (h.confined.mono (List.subset_append_left j.merged j.pending)).scheduleQueued cross
      h.built.settled (fun id hid => ?_) hok
    obtain ⟨path, hp, hn⟩ := h.queued id hid
    exact ⟨path, List.mem_append_right j.merged hp, hn⟩
  · rcases List.mem_append.1 hp with hp | hp
    · exact hforward.isRequired (h.required p hp)
    · obtain ⟨id, hid, hq | hr⟩ := h.asked p hp
      · exact Asked.isRequired ⟨id, hforward.find? hid, .inr (hqueued id hq)⟩ hempty
      · exact Asked.isRequired ⟨id, hforward.find? hid, .inr (hforward.isRequiredAt hr)⟩ hempty

theorem Kept.scheduleQueued (h : j.Kept) : (j.scheduleQueued cross others).Kept := by
  rw [Journal.scheduleQueued]
  split
  · exact h.scheduleQueued_ok cross others (by assumption)
  · exact h

theorem Kept.schedule (h : j.Kept) (paths : List TaskPath) :
    (j.schedule cross paths others).Kept := by
  have hqueued := h.queueAll paths
  have hspec := queueAll_spec h.phase h.keyed paths
  rw [Journal.schedule, WorkGraph.schedule]
  dsimp only
  generalize j.graph.queueAll paths = answer at hqueued hspec
  obtain ⟨g₁, error⟩ := answer
  cases error with
  | some e => exact hqueued
  | none =>
    have hall : paths.takeWhile j.graph.registry.contains = paths :=
      List.takeWhile_eq_self_iff.2 (hspec.declared.1 rfl)
    rw [hall] at hqueued
    obtain ⟨⟨grown, g', others'⟩, hok⟩ :=
      WorkGraph.scheduleQueued_ok cross hqueued.phase others
    simp only [hok]
    exact hqueued.scheduleQueued_ok cross others hok

end Batches

theorem Kept.after (h : j.Kept) (r : Request) : (j.after r).Kept := by
  cases r with
  | declare providers task => exact h.declare providers task
  | handOut path => exact h.handOut path
  | queue path => exact h.queue path
  | schedule cross paths others => exact h.schedule cross others paths
  | scheduleQueued cross others => exact h.scheduleQueued cross others

theorem Kept.afterAll (h : j.Kept) (requests : List Request) : (j.afterAll requests).Kept :=
  List.foldlRecOn (motive := Kept) _ _ h fun _ hj r _ => hj.after r

/-- After a batch no request waits. -/
theorem Kept.pending_scheduleQueued {σ : Type} (h : j.Kept) (cross : Option (CrossBuild σ))
    (others : σ) : (j.scheduleQueued cross others).pending = [] := by
  obtain ⟨answer, hok⟩ := WorkGraph.scheduleQueued_ok cross h.phase others
  rw [Journal.scheduleQueued, hok]

/-- After any history of requests the run of a graph consists of the nodes that the merged requests
reach along dependencies and finalizers, and required are those that they reach along dependencies
alone. -/
theorem run_exact {registry : Registry} (h : registry.Keyed) (requests : List Request) :
    ((new registry).afterAll requests).graph.Exact ((new registry).afterAll requests).merged := by
  have hkept := (new_kept h).afterAll requests
  exact hkept.confined.exact hkept.built hkept.required

/-- A test and its report are scheduled: the task that the test depends on gets a library from a
provider, and the report is requested when it is only there as a finalizer. -/
def reportHistory : List Request :=
  [.declare [(0, ⟨[smallTask "library" [] [] []], [.path "library"]⟩)]
      { smallTask "compile" [] [] [] with dependsOn := [.provider 0] },
    .declare [] (smallTask "test" ["compile"] ["report"] []),
    .declare [] (smallTask "report" [] [] []), .handOut ⟨":", "test"⟩,
    .schedule (none : Option (CrossBuild Unit)) [⟨":", "test"⟩] (), .queue ⟨":", "report"⟩,
    .scheduleQueued (none : Option (CrossBuild Unit)) ()]

/-- The report is part of the run from the first batch on, and required from the second. -/
theorem reportHistory_exact : ∃ before after,
    before = (new (.empty ⟨"main"⟩)).afterAll (reportHistory.take 5) ∧
    after = (new (.empty ⟨"main"⟩)).afterAll reportHistory ∧
    before.graph.Exact before.merged ∧ before.merged = [⟨":", "test"⟩] ∧
    before.graph.isScheduled ⟨":", "report"⟩ = true ∧
    before.graph.isRequired ⟨":", "report"⟩ = false ∧
    before.graph.isRequired ⟨":", "library"⟩ = true ∧
    after.graph.Exact after.merged ∧ after.merged = [⟨":", "test"⟩, ⟨":", "report"⟩] ∧
    after.graph.isRequired ⟨":", "report"⟩ = true :=
  ⟨_, _, rfl, rfl, run_exact (Registry.empty_keyed _) _, by decide +kernel, by decide +kernel,
    by decide +kernel, by decide +kernel, run_exact (Registry.empty_keyed _) _, by decide +kernel,
    by decide +kernel⟩

end Journal

end WorkGraph

end Foreman
