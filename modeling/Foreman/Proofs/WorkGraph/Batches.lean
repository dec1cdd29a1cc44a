import Foreman.Proofs.WorkGraph.Findings
import Mathlib.Data.List.TakeWhile

/-!
# Batches, from the request to what they found

A graph that is scheduled keeps what its findings tell of it (`Surveyed.schedule`) and brings in all
that its run needs. Where a task that was not required is scheduled it says so, and some node has
come further (`schedule_grown`).
-/

namespace Foreman

namespace WorkGraph

variable {g g' : WorkGraph} {id : Nat} {n : Node} {path : TaskPath} {log : List Finding}

/-- Where nothing is refused all the tasks are required. -/
theorem Scheduled.isRequired {paths : List TaskPath} {result : Except GraphError Bool}
    (h : g.Scheduled paths result g') (hok : ∃ grown, result = .ok grown) (hp : path ∈ paths) :
    g'.isRequired path = true := by
  have hall : paths.takeWhile g.registry.contains = paths :=
    List.takeWhile_eq_self_iff.2 (h.ok.1 hok)
  exact (h.asked path (hall.symm ▸ hp)).isRequired (h.empty hok)

/-! ## Requests -/

theorem alike_enqueued (n : Node) : n.Alike n.enqueued where
  work := by rw [n.enqueued_eq]
  scheduled := n.isScheduled_enqueued
  required := by rw [n.enqueued_eq]
  successors := by rw [n.enqueued_eq]
  resolved := by rw [n.enqueued_eq]

/-- What a request does to the nodes: the task has one, and it may be queued. -/
theorem queue_nodes (hok : g.queue path = .ok g') : ∃ (task : TaskDefinition) (f : Node → Node),
    g.registry.get? path = some task ∧ (∀ n, n.Alike (f n) ∧ (f n).wiring = n.wiring) ∧
      g'.nodes = ((g.nodeFor (.task task)).1.modify (g.nodeFor (.task task)).2 f).nodes ∧
      g'.registry = g.registry ∧ g'.rejected = g.rejected ∧
      ∀ id ∈ g'.queued, id ∈ g.queued ∨ id = (g.nodeFor (.task task)).2 := by
  obtain ⟨task, g₁, id, ht, hg₁, hg'⟩ := queue_cases hok
  have hregistry := registry_nodeFor (g := g) (.task task)
  have hrejected := rejected_nodeFor (g := g) (.task task)
  have hqueued := (nodeFor_merged g (.task task)).queued
  rw [hg₁] at hregistry hrejected hqueued
  refine ⟨task, Node.enqueued, ht, fun n => ⟨alike_enqueued n, by rw [n.enqueued_eq]; rfl⟩, ?_⟩
  rw [hg₁]
  obtain ⟨-, rfl⟩ | ⟨-, rfl⟩ := hg'
  · exact ⟨rfl, hregistry, hrejected, fun k hk => .inl (hqueued ▸ hk)⟩
  · refine ⟨rfl, hregistry, hrejected, fun k hk => ?_⟩
    rcases Std.TreeSet.mem_insert.1 hk with hk | hk
    · exact .inr (Std.LawfulEqCmp.compare_eq_iff_eq.1 hk).symm
    · exact .inl (hqueued ▸ hk)

/-- What is queued besides is the node of the task that is declared for the path. -/
theorem mem_queued_of_queue (hok : g.queue path = .ok g') {id : Nat} (hid : id ∈ g'.queued) :
    id ∈ g.queued ∨ ∃ task n, g.registry.get? path = some task ∧ g'.nodes[id]? = some n ∧
      n.key = .task task.path := by
  obtain ⟨task, f, ht, hf, hnodes, _, _, hqueued⟩ := queue_nodes hok
  refine (hqueued id hid).imp (fun h => h) ?_
  rintro rfl
  obtain ⟨n, hn, hkey⟩ := g.key_nodeFor (.task task)
  refine ⟨task, f n, ht, ?_, ?_⟩
  · rw [hnodes, getElem?_modify, if_pos rfl, hn]
    rfl
  · rw [Node.key, (hf n).1.work]
    exact hkey

theorem mem_queued_queue (hkeyed : g.registry.Keyed) (hok : g.queue path = .ok g') {id : Nat}
    (hid : id ∈ g'.queued) :
    id ∈ g.queued ∨ ∃ n, g'.nodes[id]? = some n ∧ n.key = .task path := by
  refine (mem_queued_of_queue hok hid).imp_right ?_
  rintro ⟨task, n, ht, hn, hkey⟩
  exact ⟨n, hn, hkey.trans (congrArg NodeKey.task (hkeyed path task ht))⟩

theorem queue_spares (hok : g.queue path = .ok g') : g.Spares (fun _ => True) g' := by
  obtain ⟨task, f, _, hf, hnodes, _⟩ := queue_nodes hok
  exact ((nodeFor_spares g (.task task) _).trans (modify_spares fun n _ => (hf n).1)).trans
    (.of_nodes hnodes)

theorem Drawn.queue {supply : Work → Prop} (h : g.Drawn supply) (hok : g.queue path = .ok g') :
    g'.Drawn supply := by
  obtain ⟨task, f, ht, hf, hnodes, hregistry, _⟩ := queue_nodes hok
  have hd : g.registry.Declares task := ⟨path, ht⟩
  have hsame : (g.nodeFor (.task task)).1.SameWiring g' :=
    (SameWiring.modify fun n => (hf n).2).trans (.of_nodes hnodes)
  refine (h.nodeFor (h.stock _ hd.knows) fun other ho => ?_).congr hsame ?_
  · cases ho
    exact hd
  · rw [hregistry, registry_nodeFor]
    exact .refl

theorem Covered.of_spares_all (h : g.Covered log) (hs : g.Spares (fun _ => True) g')
    (hb : g'.build = g.build) : g'.Covered log := by
  have hc := h.of_spares [] hs hb fun i n hi => absurd trivial hi
  rwa [List.append_nil] at hc

theorem Surveyed.queue (h : g.Surveyed log) (hok : g.queue path = .ok g') : g'.Surveyed log := by
  obtain ⟨task, f, ht, hf, hnodes, hregistry, hrejected, _⟩ := queue_nodes hok
  have hsame : (g.nodeFor (.task task)).1.SameWiring g' :=
    (SameWiring.modify fun n => (hf n).2).trans (.of_nodes hnodes)
  have hbuild : g'.build = g.build := congrArg Registry.build hregistry
  refine ⟨?_, ⟨?_, fun x r y => ?_, fun f hf hb => ?_⟩,
    h.covered.of_spares_all (queue_spares hok) hbuild⟩
  · refine (h.tidy.drawn.queue hok).tidy ?_
    rw [hregistry]
    exact ⟨rfl, fun _ => .rfl⟩
  · rw [hrejected, hbuild]
    exact h.traced.rejected
  · rw [hsame.refers_iff, h.tidy.wired.refers_nodeFor, hbuild]
    exact h.traced.refers x r y
  · exact (queue_forward hok).includes (h.traced.found f hf (hb.trans hbuild))

/-- Where nothing joined the run, what the run brings in is still settled. -/
theorem Brought.of_spares {asked : List (Nat × Bool)} (h : g.Brought asked) (hw : g.Wired)
    (hs : g.Spares (fun _ => True) g') (hf : g.Forward g') : g'.Brought asked := by
  intro i n' hn' hsched entry he
  obtain ⟨n, hn, ha, hsched⟩ := hs.scheduled trivial hn' hsched
  rw [ha.broughtIn_eq] at he
  exact (h i n hn hsched entry he).imp (isSettled_forward hf (hw.lt_of_broughtIn hn he))
    (fun hasked => hasked)

/-- What requests keep. -/
structure Awaiting (g g' : WorkGraph) : Prop where
  forward : g.Forward g'
  spares : g.Spares (fun _ => True) g'
  registry : g'.registry = g.registry

theorem queueAll_awaiting (g : WorkGraph) (paths : List TaskPath) :
    g.Awaiting (g.queueAll paths).1 := by
  refine eachUntilError_keeps (Q := g.Awaiting) (fun path _ g₁ hg => ?_) ⟨.refl g, .refl g, rfl⟩
  cases hq : g₁.queue path with
  | error e => exact hg
  | ok g₂ =>
    obtain ⟨_, _, _, _, _, hregistry, _⟩ := queue_nodes hq
    exact ⟨hg.forward.trans (queue_forward hq), hg.spares.trans (queue_spares hq),
      hregistry.trans hg.registry⟩

theorem Surveyed.queueAll (h : g.Surveyed log) (paths : List TaskPath) :
    (g.queueAll paths).1.Surveyed log := by
  refine eachUntilError_keeps (Q := (Surveyed · log)) (fun path _ g₁ hg => ?_) h
  cases hq : g₁.queue path with
  | error e => exact hg
  | ok g₂ => exact hg.queue hq

theorem isRequired_iff_exists (hd : g.Distinct) : g.isRequired path = true ↔
    ∃ (id : Nat) (n : Node), g.nodes[id]? = some n ∧ n.key = .task path ∧
      n.state.isScheduled = true ∧ n.required = true := by
  rw [isRequired_iff]
  constructor
  · rintro ⟨id, n, hid, hn, hs, hr⟩
    obtain ⟨n', hn', hkey⟩ := find?_spec hid
    cases hn'.symm.trans hn
    exact ⟨id, n, hn, hkey, hs, hr⟩
  · rintro ⟨id, n, hn, hkey, hs, hr⟩
    refine ⟨id, n, ?_, hn, hs, hr⟩
    cases hfind : g.find? (.task path) with
    | none => exact absurd hkey (key_ne_of_find?_eq_none hfind hn)
    | some k =>
      obtain ⟨u, hu, hkey'⟩ := find?_spec hfind
      rw [hd k id u n hu hn (hkey'.trans hkey.symm)]

/-- Requests make nothing required. -/
theorem Awaiting.isRequired (h : g.Awaiting g') (hd : g.Distinct)
    (hr : g'.isRequired path = true) : g.isRequired path = true := by
  rw [isRequired_iff_exists (h.forward.distinct hd)] at hr
  rw [isRequired_iff_exists hd]
  obtain ⟨id, n', hn', hkey, hs, hr⟩ := hr
  obtain ⟨n, hn, ha, hs⟩ := h.spares.scheduled trivial hn' hs
  refine ⟨id, n, hn, ?_, hs, ha.required ▸ hr⟩
  rw [← hkey, Node.key, Node.key, ha.work]

/-! ## Batches -/

section Batches

variable {σ : Type} (cross : Option (CrossBuild σ)) {others : σ}

def batchStart (g : WorkGraph) : WorkGraph :=
  { g with queued := ∅, nextOrdinal := g.nextOrdinal + 1 }

theorem scheduleQueued_eq (hphase : g.phase = .populating) (others : σ) :
    scheduleQueued cross (g, others) = .ok (
      if g.queued.isEmpty then (false, g, others)
      else (!(g.queued.toList.map (·, true)).all g.isSettled,
        merge cross g.nextOrdinal (2 * g.nodeBound) (g.queued.toList.map (·, true))
          (g.batchStart, others))) := by
  simp only [scheduleQueued, require, if_pos hphase, bind, Except.bind, pure, Except.pure]
  split <;> rfl

theorem queuedFindings_eq (hphase : g.phase = .populating) (others : σ) :
    queuedFindings cross (g, others) =
      if g.queued.isEmpty then []
      else mergeFindings cross g.nextOrdinal (2 * g.nodeBound) (g.queued.toList.map (·, true))
        (g.batchStart, others) := by
  simp [queuedFindings, hphase, batchStart]

theorem Surveyed.batchStart (h : g.Surveyed log) : g.batchStart.Surveyed log where
  tidy := h.tidy.congr (.of_nodes rfl) .refl
  traced := h.traced.congr ⟨rfl, fun _ n hn => ⟨n, hn, .refl n⟩, id⟩ rfl (.of_nodes rfl) rfl
  covered := h.covered.of_spares_all (.of_nodes rfl) rfl

/-- What a whole schedule leaves of a graph in which all was settled. -/
theorem Surveyed.schedule (h : g.Surveyed log) (hphase : g.phase = .populating) (hb : g.Brought [])
    (paths : List TaskPath) (others : σ) :
    (schedule cross paths (g, others)).2.1.Surveyed
      (log ++ scheduleFindings cross paths (g, others)) ∧
      (schedule cross paths (g, others)).2.1.Brought [] := by
  have hq := g.queueAll_awaiting paths
  have hsurveyed := h.queueAll paths
  rw [WorkGraph.schedule, scheduleFindings]
  dsimp only
  generalize g.queueAll paths = answer at hq hsurveyed
  obtain ⟨g₁, error⟩ := answer
  dsimp only at hq hsurveyed
  have hbrought := hb.of_spares h.tidy.wired hq.spares hq.forward
  cases error with
  | some e =>
    rw [List.append_nil]
    exact ⟨hsurveyed, hbrought⟩
  | none =>
    have hphase₁ : g₁.phase = .populating := hq.forward.phase.trans hphase
    simp only [scheduleQueued_eq cross hphase₁, queuedFindings_eq cross hphase₁]
    by_cases hempty : g₁.queued.isEmpty = true
    · simp only [if_pos hempty, List.append_nil]
      exact ⟨hsurveyed, hbrought⟩
    · simp only [if_neg hempty]
      have hstart := hsurveyed.batchStart
      refine ⟨hstart.merge cross (g₁.batchStart, others) _ _ _, ?_⟩
      refine merge_closed cross (fun _ => Registry.Knows.key_mem) _ _ _ (g₁.batchStart, others)
        hstart.tidy.drawn ?_ fun i n hn hs entry he => (hbrought i n hn hs entry he).imp id ?_
      · rw [Registry.length_stock]
        simp only [nodeBound, Registry.extent, WorkGraph.batchStart]
        omega
      · exact fun hnil => absurd hnil List.not_mem_nil

/-- A graph in which one more task is required has come further. -/
theorem Forward.standing_lt_of_isRequired (h : g.Forward g') (hd : g.Distinct)
    (hnot : g.isRequired path = false) (hr : g'.isRequired path = true) :
    g.standing < g'.standing := by
  obtain ⟨id, n', hn', hkey, hs, hr⟩ := (isRequired_iff_exists (h.distinct hd)).1 hr
  have htwo : n'.standing = 2 := by
    rw [Node.standing, hs, hr]
    rfl
  refine h.standing_lt hn' (by omega) fun n hn => ?_
  rw [htwo]
  by_contra hlt
  have hboth : n.state.isScheduled = true ∧ n.required = true := by
    revert hlt
    rw [Node.standing]
    cases n.state.isScheduled <;> cases n.required <;> simp
  obtain ⟨n'', hn'', hf⟩ := h.node id n hn
  cases hn''.symm.trans hn'
  have hold := (isRequired_iff_exists hd).2 ⟨id, n, hn, hf.key.symm.trans hkey, hboth⟩
  rw [hnot] at hold
  cases hold

/-- A batch with a task that was not required before grows the graph and says so. -/
theorem schedule_grown (hd : g.Distinct) (hphase : g.phase = .populating)
    (hkeyed : g.registry.Keyed) (hnum : g.Numbered) {paths : List TaskPath} (hp : path ∈ paths)
    (hnot : g.isRequired path = false) {grown : Bool}
    (hok : (schedule cross paths (g, others)).1 = .ok grown) :
    grown = true ∧ g.standing < (schedule cross paths (g, others)).2.1.standing := by
  have hs := schedule_spec cross hphase hkeyed hnum paths others
  have hall := hs.ok.1 ⟨grown, hok⟩
  have htake : path ∈ paths.takeWhile g.registry.contains := by
    rw [List.takeWhile_eq_self_iff.2 hall]
    exact hp
  refine ⟨?_, hs.toForward.standing_lt_of_isRequired hd hnot
    ((hs.asked path htake).isRequired (hs.empty ⟨grown, hok⟩))⟩
  have hq := queueAll_spec hphase hkeyed paths
  have hawaiting := g.queueAll_awaiting paths
  rw [schedule] at hok
  dsimp only at hok
  generalize g.queueAll paths = answer at hq hawaiting hok
  obtain ⟨g₁, error⟩ := answer
  obtain ⟨hreq, hasked, hdeclared⟩ := hq
  dsimp only at hreq hasked hdeclared hawaiting hok
  obtain rfl := hdeclared.2 hall
  have hopen : g₁.isRequired path = false := by
    by_contra hr
    rw [Bool.not_eq_false] at hr
    rw [hawaiting.isRequired hd hr] at hnot
    cases hnot
  simp only [scheduleQueued_eq cross (hreq.phase.trans hphase)] at hok
  obtain ⟨id, hid, hqueued⟩ := hasked path htake
  have hopenAt : ¬ g₁.IsRequiredAt id := by
    rintro ⟨n, hn, hsched, hr⟩
    rw [isRequired_iff.2 ⟨id, n, hid, hn, hsched, hr⟩] at hopen
    cases hopen
  have hmem := hqueued.resolve_right hopenAt
  have hnonempty : g₁.queued.isEmpty = false := by
    rw [Bool.eq_false_iff]
    exact fun he => Std.TreeSet.isEmpty_iff_forall_not_mem.1 he id hmem
  simp only [hnonempty, Bool.false_eq_true, if_false, Except.ok.injEq] at hok
  rw [← hok, Bool.not_eq_true', Bool.eq_false_iff]
  intro hsettled
  obtain ⟨n, hn, _⟩ := find?_spec hid
  exact hopenAt (isRequiredAt_of_isSettled hn (List.all_eq_true.1 hsettled _
    (List.mem_map.2 ⟨id, Std.TreeSet.mem_toList.2 hmem, rfl⟩)))

theorem isAnswer_of_mem_scheduleFindings {paths : List TaskPath} {f : Finding}
    (hf : f ∈ scheduleFindings cross paths (g, others)) : f.IsAnswer cross g.build := by
  have hq := g.queueAll_awaiting paths
  rw [scheduleFindings] at hf
  dsimp only at hf
  generalize g.queueAll paths = answer at hq hf
  obtain ⟨g₁, error⟩ := answer
  cases error with
  | some e => cases hf
  | none =>
    dsimp only at hq hf
    rw [queuedFindings] at hf
    dsimp only at hf
    split at hf
    · cases hf
    · have hbuild : g₁.build = g.build := congrArg Registry.build hq.registry
      exact hbuild ▸ isAnswer_of_mem_mergeFindings cross hf

end Batches

end WorkGraph

end Foreman
