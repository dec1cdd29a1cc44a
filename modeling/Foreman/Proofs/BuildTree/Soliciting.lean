import Foreman.Proofs.BuildTree.Assembling
import Foreman.Proofs.WorkGraph.Reaching
import Foreman.Proofs.WorkGraph.Starting

/-!
# Builds that are asked and scheduled

While one build of a tree is scheduled the others are only asked for tasks: more is handed out and
requested there, and nothing else changes (`Controller.Solicited`). So what was found for a build
(`Controller.Discovered`) stays as it is until its own turn, which adds what is found then
(`Discovered.scheduleQueued`). A turn that does something takes the graph further (`Open.grown`),
and it meets no unknown task where all that is requested is declared (`Declared.scheduleQueued`).
-/

namespace Foreman

/-- What is declared stays declared. -/
theorem Registry.Informed.contains {r r' : Registry} (h : r.Informed r') {path : TaskPath}
    (hp : r.contains path = true) : r'.contains path = true := by
  induction h with
  | refl => exact hp
  | tail _ hask ih =>
    obtain ⟨id, rfl⟩ := hask
    refine Registry.ask_keeps (Q := fun r => r.contains path = true)
      (fun r r' task hr hok => ?_) ih id
    rw [Registry.register] at hok
    split at hok
    · cases hok
    · cases hok
      exact Std.TreeMap.mem_insert.2 (.inr hr)

/-- Scheduling hands out no task of the build itself. -/
theorem WorkGraph.exports_schedule {σ : Type} (cross : Option (CrossBuild σ)) {g : WorkGraph}
    (hs : g.Sound fun _ _ => True) (paths : List TaskPath) (others : σ) :
    (schedule cross paths (g, others)).2.1.exports = g.exports :=
  ((Grown.start_true hs others).schedule (fun c _ => c.keeps_true _) paths).exports

namespace Controller

variable {σ : Type} {c c' c'' : Controller} {path : TaskPath} {r : Registry} {log : List Finding}

/-! ## What asking a build leaves of it -/

/-- What asking a build for its tasks leaves of its controller: more is handed out and requested,
and only what is declared. -/
structure Solicited (c c' : Controller) : Prop where
  state : c'.state = c.state
  completion : c'.completion = c.completion
  graph : c'.graph = { c.graph with exports := c'.graph.exports }
  queued : ∀ path ∈ c.queued, path ∈ c'.queued
  wanted : ∀ path ∈ c'.queued, path ∈ c.queued ∨ path ∈ c'.graph.exports
  exports : ∀ path ∈ c.graph.exports, path ∈ c'.graph.exports
  exported : ∀ path ∈ c'.graph.exports,
    path ∈ c.graph.exports ∨ c.graph.registry.contains path = true
  outcome : ∀ path, c'.graph.exports.outcome? path = c.graph.exports.outcome? path

theorem Solicited.refl (c : Controller) : Solicited c c :=
  ⟨rfl, rfl, rfl, fun _ h => h, fun _ h => .inl h, fun _ h => h, fun _ h => .inl h, fun _ => rfl⟩

theorem Solicited.trans (h : Solicited c c') (h' : Solicited c' c'') : Solicited c c'' where
  state := h'.state.trans h.state
  completion := h'.completion.trans h.completion
  graph := by
    rw [h'.graph, h.graph]
  queued path hp := h'.queued path (h.queued path hp)
  wanted path hp := by
    rcases h'.wanted path hp with hp | hp
    · exact (h.wanted path hp).imp id (h'.exports path)
    · exact .inr hp
  exports path hp := h'.exports path (h.exports path hp)
  exported path hp := by
    rcases h'.exported path hp with hp | hp
    · exact h.exported path hp
    · rw [h.graph] at hp
      exact .inr hp
  outcome path := (h'.outcome path).trans (h.outcome path)

theorem Solicited.nodes (h : Solicited c c') : c'.graph.nodes = c.graph.nodes := by rw [h.graph]

theorem Solicited.registry (h : Solicited c c') : c'.graph.registry = c.graph.registry := by
  rw [h.graph]

theorem Solicited.forward (h : Solicited c c') : c.graph.Forward c'.graph := by
  rw [h.graph]
  exact ⟨rfl, fun _ n hn => ⟨n, hn, .refl n⟩, id⟩

theorem Open.solicited (h : c.Open) (hs : Solicited c c') : c'.Open :=
  h.congr hs.state (by rw [hs.graph]) (by rw [hs.graph]) hs.registry hs.nodes (by rw [hs.graph])

theorem handOut_solicited {g : WorkGraph} (hg : c.graph.handOut path = .ok g) :
    Solicited c { c with graph := g } ∧ path ∈ g.exports := by
  refine ⟨?_, (WorkGraph.exports_handOut hg).1⟩
  have hgraph : g = { c.graph with exports := g.exports } ∧
      ∀ q ∈ g.exports, q ∈ c.graph.exports ∨ c.graph.registry.contains q = true := by
    obtain ⟨-, rfl⟩ | ⟨-, hdeclared, rfl⟩ := WorkGraph.handOut_cases hg
    · exact ⟨rfl, fun q hq => .inl hq⟩
    · refine ⟨rfl, fun q hq => ?_⟩
      rcases Std.TreeMap.mem_insertIfNew.1 hq with hq | hq
      · rw [← Std.LawfulEqCmp.compare_eq_iff_eq.1 hq]
        exact .inr hdeclared
      · exact .inl hq
  exact ⟨rfl, rfl, hgraph.1, fun _ h => h, fun _ h => .inl h, (WorkGraph.exports_handOut hg).2.1,
    hgraph.2, WorkGraph.outcome?_handOut hg⟩

theorem observeTask_solicited (hok : c.observeTask path = .ok c') : Solicited c c' := by
  obtain ⟨g, hg, rfl⟩ := eq_of_observeTask hok
  exact (handOut_solicited hg).1

theorem want_solicited (hpath : path ∈ c.graph.exports) : Solicited c (c.want path) := by
  rw [want]
  split
  · exact .refl c
  · refine ⟨rfl, rfl, rfl, fun p hp => Std.TreeSet.mem_insert.2 (.inr hp), fun p hp => ?_,
      fun _ h => h, fun _ h => .inl h, fun _ => rfl⟩
    rcases Std.TreeSet.mem_insert.1 hp with hp | hp
    · rw [← Std.LawfulEqCmp.compare_eq_iff_eq.1 hp]
      exact .inr hpath
    · exact .inl hp

theorem exportTask_solicited (hok : c.exportTask path = .ok c') : Solicited c c' := by
  obtain ⟨g, hg, rfl⟩ := eq_of_exportTask hok
  obtain ⟨hsolicited, hpath⟩ := handOut_solicited hg
  split
  · exact hsolicited.trans (want_solicited hpath)
  · exact hsolicited

/-! ## What scheduling leaves of a build -/

def findings (cross : Option (CrossBuild σ)) (c : Controller) (others : σ) : List Finding :=
  if c.state ≠ .discoveringTasks ∨ c.batch.isEmpty then []
  else WorkGraph.scheduleFindings cross c.batch (c.graph, others)

/-- What holds of a controller while the tasks of its tree are discovered, for a build that began
with these declarations. -/
structure Discovered (r : Registry) (log : List Finding) (c : Controller) : Prop where
  isOpen : c.Open
  informed : r.Informed c.graph.registry
  surveyed : c.graph.Surveyed log
  brought : c.graph.Brought []
  unqueued : c.graph.queued.isEmpty = true
  unpublished : ∀ path, c.graph.exports.outcome? path = none

/-- What is requested and what was handed out is declared. -/
structure Declared (c : Controller) : Prop where
  queued : ∀ path ∈ c.queued, c.graph.registry.contains path = true
  exports : ∀ path ∈ c.graph.exports, c.graph.registry.contains path = true

theorem Discovered.solicited (h : Discovered r log c) (hs : Solicited c c') :
    Discovered r log c' := by
  have hnodes := hs.nodes
  have hregistry := hs.registry
  have hqueued : c'.graph.queued = c.graph.queued := by rw [hs.graph]
  have hrejected : c'.graph.rejected = c.graph.rejected := by rw [hs.graph]
  have hbuild : c'.graph.build = c.graph.build := by rw [WorkGraph.build, hregistry]; rfl
  have hforward := hs.forward
  refine ⟨h.isOpen.solicited hs, ?_, ?_, ?_, ?_, fun path => ?_⟩
  · rw [hregistry]
    exact h.informed
  · refine ⟨h.surveyed.tidy.congr (.of_nodes hnodes) ?_,
      h.surveyed.traced.congr hforward hbuild (.of_nodes hnodes) hrejected,
      h.surveyed.covered.of_spares_all (.of_nodes hnodes) hbuild⟩
    rw [hregistry]
    exact .refl
  · exact h.brought.of_spares h.surveyed.tidy.wired (.of_nodes hnodes) hforward
  · rw [hqueued]
    exact h.unqueued
  · rw [hs.outcome]
    exact h.unpublished path

theorem Declared.solicited (h : Declared c) (hs : Solicited c c') : Declared c' := by
  have hregistry := hs.registry
  have hexports : ∀ path ∈ c'.graph.exports, c.graph.registry.contains path = true :=
    fun path hp => (hs.exported path hp).elim (h.exports path) id
  constructor <;> intro path hp <;> rw [hregistry]
  · exact (hs.wanted path hp).elim (h.queued path) (hexports path)
  · exact hexports path hp

theorem Discovered.append (h : Discovered r log c) {more : List Finding}
    (hmore : ∀ f ∈ more, f.build ≠ c.graph.build) : Discovered r (log ++ more) c :=
  { h with surveyed := h.surveyed.append hmore }

section Batches

variable (cross : Option (CrossBuild σ)) {others : σ}

theorem isAnswer_of_mem_findings {f : Finding}
    (hf : f ∈ c.findings cross others) : f.IsAnswer cross c.graph.build := by
  rw [findings] at hf
  split at hf
  · cases hf
  · exact WorkGraph.isAnswer_of_mem_scheduleFindings cross hf

/-- A batch of a controller that meets no unknown task. -/
theorem Discovered.scheduleQueued (h : Discovered r log c)
    (hs : c.graph.Sound fun _ _ => True) {grown : Bool}
    (hok : (c.scheduleQueued cross others).1 = .ok grown) :
    Discovered r (log ++ c.findings cross others) (c.scheduleQueued cross others).2.1 ∧
      (c.scheduleQueued cross others).2.1.queued.isEmpty = true := by
  have hscheduled := WorkGraph.schedule_spec cross h.isOpen.phase h.isOpen.keyed h.isOpen.numbered
    c.batch others
  have hsurvey := h.surveyed.schedule cross h.isOpen.phase h.brought c.batch others
  have hexports := WorkGraph.exports_schedule cross hs c.batch others
  rw [scheduleQueued_eq cross others h.isOpen.state] at hok ⊢
  rw [findings]
  by_cases hempty : c.batch.isEmpty = true
  · rw [if_pos hempty] at hok ⊢
    rw [if_pos (.inr hempty), List.append_nil]
    exact ⟨{ h with isOpen := h.isOpen.congr rfl rfl rfl rfl rfl rfl }, rfl⟩
  · rw [if_neg hempty] at hok ⊢
    rw [if_neg (by simp [h.isOpen.state, hempty])]
    refine ⟨⟨isOpen_of_scheduled h.isOpen hscheduled, h.informed.trans hscheduled.registry,
      hsurvey.1, hsurvey.2, hscheduled.empty ⟨grown, hok⟩, fun path => ?_⟩, rfl⟩
    dsimp only
    rw [hexports]
    exact h.unpublished path

/-- A batch with something to do takes the graph further and says so. -/
theorem Open.grown (h : c.Open) (hd : c.graph.Distinct) {grown : Bool}
    (hok : (c.scheduleQueued cross others).1 = .ok grown) :
    c.batch = [] ∧ grown = false ∧ (c.scheduleQueued cross others).2 =
      ({ c with queued := ∅ }, others) ∨
      grown = true ∧ c.graph.standing < (c.scheduleQueued cross others).2.1.graph.standing := by
  rw [scheduleQueued_eq cross others h.state] at hok ⊢
  by_cases hempty : c.batch.isEmpty = true
  · rw [if_pos hempty] at hok ⊢
    cases hok
    exact .inl ⟨List.isEmpty_iff.1 hempty, rfl, rfl⟩
  · rw [if_neg hempty] at hok ⊢
    obtain ⟨path, hp⟩ := List.exists_mem_of_ne_nil c.batch fun he => hempty (by simp [he])
    have hnot : c.graph.isRequired path = false := by
      simpa using (List.mem_filter.1 hp).2
    exact .inr (WorkGraph.schedule_grown cross hd h.phase h.keyed h.numbered hp hnot hok)

theorem drawn_scheduleQueued (others : σ) (h : c.Open) {supply : Work → Prop}
    (hd : c.graph.Drawn supply) : (c.scheduleQueued cross others).2.1.graph.Drawn supply := by
  rw [scheduleQueued_eq cross others h.state]
  split
  · exact hd
  · exact hd.schedule cross c.batch others

theorem Declared.scheduleQueued (h : Declared c) (others : σ) (hd : Discovered r log c)
    (hs : c.graph.Sound fun _ _ => True) :
    (∃ grown, (c.scheduleQueued cross others).1 = .ok grown) ∧
      Declared (c.scheduleQueued cross others).2.1 := by
  have hall : c.dropped (.scheduleQueued cross others) = [] :=
    List.dropWhile_eq_nil_iff.2 fun path hp =>
      h.queued path (Std.TreeSet.mem_toList.1 (List.mem_of_mem_filter hp))
  obtain ⟨grown, hok⟩ : ∃ grown, (c.scheduleQueued cross others).1 = .ok grown := by
    cases hres : (c.scheduleQueued cross others).1 with
    | ok grown => exact ⟨grown, rfl⟩
    | error e => exact absurd hall ((scheduleQueued_error_iff cross others hd.isOpen).1 ⟨e, hres⟩)
  refine ⟨⟨grown, hok⟩, fun path hp => ?_, fun path hp => ?_⟩
  · have hempty := (hd.scheduleQueued cross hs hok).2
    exact absurd hp (Std.TreeSet.isEmpty_iff_forall_not_mem.1 hempty path)
  · have hscheduled := WorkGraph.schedule_spec cross hd.isOpen.phase hd.isOpen.keyed
      hd.isOpen.numbered c.batch others
    have hexports := WorkGraph.exports_schedule cross hs c.batch others
    rw [scheduleQueued_eq cross others hd.isOpen.state] at hp ⊢
    split at hp
    · rename_i hempty
      rw [if_pos hempty]
      exact h.exports path hp
    · rename_i hempty
      rw [if_neg hempty]
      dsimp only at hp ⊢
      rw [hexports] at hp
      exact hscheduled.registry.contains (h.exports path hp)

end Batches

end Controller

end Foreman
