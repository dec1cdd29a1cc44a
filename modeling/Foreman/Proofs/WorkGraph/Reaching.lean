import Foreman.Proofs.WorkGraph.Batches

/-!
# What the run reaches

Populating leaves every graph with all brought in that its run needs (`Built.settled`), also where
providers are declared anew between the batches; each batch comes to its end (`Settled.batchEnds`).
So the run of a graph contains whatever its requested tasks reach along dependencies and finalizers,
and all that they reach along dependencies alone is required. A batch adds nothing else, if all that
it is asked for is reached (`Confined.merge`, `Rooted.schedule`).
-/

namespace Foreman

open Relation

namespace WorkGraph

variable {g g' : WorkGraph} {id : Nat} {n : Node} {path : TaskPath} {x y key : NodeKey}
  {roots roots' : List TaskPath}

/-! ## Populated graphs are settled -/

/-- What the run needs is part of it and resolved, and nodes for tasks stand for declared ones. -/
structure Settled (g : WorkGraph) : Prop where
  wired : g.Wired
  declared : ∀ (i : Nat) n task, g.nodes[i]? = some n → n.work = .task task →
    g.registry.Declares task
  brought : g.Brought []
  resolved : ∀ (i : Nat) n, g.nodes[i]? = some n → n.state.isScheduled = true → n.resolved = true

theorem new_settled (registry : Registry) : (new registry).Settled where
  wired := new_wired registry
  declared i n task hn := by simp [new] at hn
  brought i n hn := by simp [new] at hn
  resolved i n hn := by simp [new] at hn

/-- Declaring more changes no node. -/
theorem Settled.congr (h : g.Settled) (hnodes : g'.nodes = g.nodes)
    (hdeclared : ∀ task, g.registry.Declares task → g'.registry.Declares task) : g'.Settled where
  wired := (SameWiring.of_nodes hnodes).wired h.wired
  declared i n task hn hw := hdeclared task (h.declared i n task (by rwa [← hnodes]) hw)
  brought i n hn hs entry he := by
    rw [isSettled, hnodes]
    exact h.brought i n (by rwa [← hnodes]) hs entry he
  resolved i n hn hs := h.resolved i n (by rwa [← hnodes]) hs

theorem Settled.declare {providers : List (ProviderId × Provider)} {task : TaskDefinition}
    (h : g.Settled) (hok : g.declare providers task = .ok g') : g'.Settled := by
  obtain ⟨registry, hr, rfl⟩ := declare_eq hok
  exact h.congr rfl fun _ hd => (hd.provideAll providers).register hr

/-- All that nodes can ever stand for while no more is declared: what they stand for now, and what
the registry knows. -/
def supply (g : WorkGraph) (work : Work) : Prop :=
  g.registry.Knows work ∨ work.key ∈ g.nodes.toList.map (·.key)

/-- A key for each of it. -/
def supplyKeys (g : WorkGraph) : List NodeKey := g.registry.stock ++ g.nodes.toList.map (·.key)

theorem key_mem_supplyKeys {work : Work} (h : g.supply work) : work.key ∈ g.supplyKeys :=
  h.elim (fun hk => List.mem_append_left _ hk.key_mem) (List.mem_append_right _)

theorem length_supplyKeys (g : WorkGraph) : g.supplyKeys.length = g.nodeBound := by
  simp only [supplyKeys, List.length_append, Registry.length_stock, List.length_map,
    Array.length_toList, nodeBound, Registry.extent]
  omega

theorem Settled.drawn (h : g.Settled) : g.Drawn g.supply where
  wired := h.wired
  tasks := h.declared
  works _ n hn := .inr (List.mem_map.2 ⟨n, Array.mem_toList_iff.2 (Array.mem_of_getElem? hn), rfl⟩)
  stock _ hw := .inl hw

theorem Settled.queue (h : g.Settled) (hok : g.queue path = .ok g') : g'.Settled := by
  have hdrawn := h.drawn.queue hok
  have hspares := queue_spares hok
  refine ⟨hdrawn.wired, hdrawn.tasks, h.brought.of_spares h.wired hspares (queue_forward hok),
    fun i n hn hs => ?_⟩
  obtain ⟨m, hm, ha, hs⟩ := hspares.scheduled trivial hn hs
  rw [ha.resolved]
  exact h.resolved i m hm hs

section Merging

variable {σ : Type} (cross : Option (CrossBuild σ)) {state : WorkGraph × σ} {others others' : σ}
  {grown : Bool}

theorem resolved_expand (ordinal : Nat) (entry : Nat × Bool) (hn : state.1.nodes[entry.1]? = some n)
    (h : ∀ (i : Nat) n, state.1.nodes[i]? = some n → n.state.isScheduled = true → n.resolved = true)
    (i : Nat) (m : Node) (hm : (expand cross ordinal entry state).1.1.nodes[i]? = some m)
    (hs : m.state.isScheduled = true) : m.resolved = true := by
  by_cases hi : i = entry.1
  · subst hi
    obtain ⟨m', hm', hafter⟩ := expand_node cross hn ordinal
    cases hm'.symm.trans hm
    exact hafter.resolved
  · obtain ⟨u, hu, ha, hs⟩ := (expand_spares cross ordinal entry state).scheduled hi hm hs
    rw [ha.resolved]
    exact h i u hu hs

theorem phase_of_scheduleQueued {answer : Bool × WorkGraph × σ}
    (hok : scheduleQueued cross state = .ok answer) : state.1.phase = .populating :=
  (scheduleQueued_cases hok).1

theorem Settled.drawn_batchStart (h : g.Settled) : g.batchStart.Drawn g.supply :=
  h.drawn.congr (.of_nodes rfl) .refl

/-- Merging what is queued comes to its end, and before the fuel does. -/
def BatchEnds (g : WorkGraph) (others : σ) : Prop :=
  Drains cross g.nextOrdinal (g.queued.toList.map (·, true)) (g.batchStart, others)
    (merge cross g.nextOrdinal (2 * g.nodeBound) (g.queued.toList.map (·, true))
      (g.batchStart, others))

theorem Settled.batchEnds (h : g.Settled) (others : σ) : g.BatchEnds cross others := by
  refine merge_drains cross (fun _ hw => key_mem_supplyKeys hw) _ _ _ (g.batchStart, others)
    h.drawn_batchStart ?_
  rw [length_supplyKeys]
  omega

/-- A batch leaves a settled graph settled, however its tasks are found. -/
theorem Settled.scheduleQueued (h : g.Settled)
    (hok : scheduleQueued cross (g, others) = .ok (grown, g', others')) : g'.Settled := by
  rw [scheduleQueued_eq cross (phase_of_scheduleQueued cross hok), Except.ok.injEq] at hok
  split at hok
  · cases hok
    exact h
  · have hdrawn := h.drawn_batchStart
    have hstart : g.batchStart.Drawn g.supply ∧ ∀ (i : Nat) n, g.batchStart.nodes[i]? = some n →
        n.state.isScheduled = true → n.resolved = true := ⟨hdrawn, h.resolved⟩
    have hkept := @merge_keeps _ cross (g.batchStart, others)
      (fun state => state.1.Drawn g.supply ∧
        ∀ (i : Nat) n, state.1.nodes[i]? = some n → n.state.isScheduled = true → n.resolved = true)
      g.nextOrdinal
      (fun entry state hq hn _ => by
        obtain ⟨n, hn⟩ := Option.isSome_iff_exists.1 hn
        exact ⟨hq.1.expand cross _ entry, resolved_expand cross _ entry hn hq.2⟩)
      (2 * g.nodeBound) (g.queued.toList.map (·, true)) hstart
    have hclosed := (h.batchEnds cross others).brought cross hdrawn
      fun i n hn hs entry he => .inl ((h.brought i n hn hs entry he).resolve_right List.not_mem_nil)
    simp only [Prod.mk.injEq] at hok
    rw [hok.2] at hkept hclosed
    exact ⟨hkept.1.wired, hkept.1.tasks, hclosed, hkept.2⟩

theorem Settled.schedule (h : g.Settled) (paths : List TaskPath) (others : σ) :
    (schedule cross paths (g, others)).2.1.Settled :=
  schedule_preserves cross others (fun _ _ _ _ hg hok => hg.queue hok)
    (fun _ _ _ _ hg hok => hg.scheduleQueued cross hok) h

theorem Drawn.scheduleQueued {supply : Work → Prop} (h : g.Drawn supply)
    (hok : scheduleQueued cross (g, others) = .ok (grown, g', others')) : g'.Drawn supply := by
  rw [scheduleQueued_eq cross (phase_of_scheduleQueued cross hok), Except.ok.injEq] at hok
  split at hok
  · cases hok
    exact h
  · have hmerge := @merge_keeps _ cross (g.batchStart, others) (fun state => state.1.Drawn supply)
      g.nextOrdinal (fun entry state hq _ _ => hq.expand cross _ entry) (2 * g.nodeBound)
      (g.queued.toList.map (·, true)) (h.congr (.of_nodes rfl) .refl)
    simp only [Prod.mk.injEq] at hok
    rwa [hok.2] at hmerge

/-- Scheduling draws on no more than was there, whether it succeeds or not. -/
theorem Drawn.schedule {supply : Work → Prop} (h : g.Drawn supply) (paths : List TaskPath)
    (others : σ) : (schedule cross paths (g, others)).2.1.Drawn supply :=
  schedule_preserves cross others (fun _ _ _ _ hg hok => hg.queue hok)
    (fun _ _ _ _ hg hok => hg.scheduleQueued cross hok) h

end Merging

theorem Built.settled (h : Built g) : g.Settled := by
  induction h with
  | new registry => exact new_settled registry
  | declare _ hok ih => exact ih.declare hok
  | handOut _ hok ih =>
    have hspec := handOut_spec hok
    exact ih.congr hspec.nodes fun task hd => by rwa [hspec.registry]
  | queue _ hok ih => exact ih.queue hok
  | scheduleQueued _ hok ih => exact ih.scheduleQueued _ hok

/-! ## Reached keys -/

/-- The node of the one key depends on that of the other. -/
def Needs (g : WorkGraph) (x y : NodeKey) : Prop := g.Refers x .dependency y

/-- The node of the one key depends on that of the other or is finalized by it. -/
def Pulls (g : WorkGraph) (x y : NodeKey) : Prop :=
  g.Refers x .dependency y ∨ g.Refers x .finalizedBy y

/-- Steps lead from one of the tasks to the key. -/
def Reached (step : NodeKey → NodeKey → Prop) (roots : List TaskPath) (key : NodeKey) : Prop :=
  ∃ path ∈ roots, ReflTransGen step (.task path) key

section Reached

variable {step step' : NodeKey → NodeKey → Prop}

theorem Reached.root (h : path ∈ roots) : Reached step roots (.task path) := ⟨path, h, .refl⟩

theorem Reached.tail (h : Reached step roots x) (hs : step x y) : Reached step roots y := by
  obtain ⟨path, hp, hx⟩ := h
  exact ⟨path, hp, hx.tail hs⟩

theorem Reached.mono (h : Reached step roots key) (hroots : roots ⊆ roots')
    (hstep : ∀ x y, step x y → step' x y) : Reached step' roots' key := by
  obtain ⟨path, hp, hx⟩ := h
  exact ⟨path, hroots hp, ReflTransGen.mono hstep _ _ hx⟩

/-- What holds of the tasks and is passed on by each step holds of all that is reached. -/
theorem Reached.induct {P : NodeKey → Prop} (h : Reached step roots key)
    (hroot : ∀ path ∈ roots, P (.task path)) (hstep : ∀ x y, P x → step x y → P y) : P key := by
  obtain ⟨path, hp, hx⟩ := h
  induction hx with
  | refl => exact hroot path hp
  | tail _ hs ih => exact hstep _ _ ih hs

end Reached

theorem Forward.refers (h : g.Forward g') {r : Relationship} (hr : g.Refers x r y) :
    g'.Refers x r y := by
  obtain ⟨i, j, n, m, hn, rfl, hm, rfl, hj⟩ := hr
  obtain ⟨n', hn', hf⟩ := h.node i n hn
  obtain ⟨m', hm', hf'⟩ := h.node j m hm
  exact ⟨i, j, n', m', hn', hf.key, hm', hf'.key, hf.successors r j hj⟩

theorem Forward.pulled (h : g.Forward g') (hr : Reached g.Pulls roots key) :
    Reached g'.Pulls roots key :=
  hr.mono (fun _ hp => hp) fun _ _ => Or.imp h.refers h.refers

theorem Forward.needed (h : g.Forward g') (hr : Reached g.Needs roots key) :
    Reached g'.Needs roots key :=
  hr.mono (fun _ hp => hp) fun _ _ => h.refers

/-! ## The run is no more than what is reached -/

/-- What is part of the run, or required, is reached. -/
structure Confined (g : WorkGraph) (roots : List TaskPath) : Prop where
  scheduled : ∀ (i : Nat) n, g.nodes[i]? = some n → n.state.isScheduled = true →
    Reached g.Pulls roots n.key
  required : ∀ (i : Nat) n, g.nodes[i]? = some n → n.required = true → Reached g.Needs roots n.key

/-- The node that is asked for is reached, along dependencies if it is asked for as required. -/
def AsksWithin (g : WorkGraph) (roots : List TaskPath) (entry : Nat × Bool) : Prop :=
  ∃ n, g.nodes[entry.1]? = some n ∧ Reached g.Pulls roots n.key ∧
    (entry.2 = true → Reached g.Needs roots n.key)

theorem new_confined (registry : Registry) : (new registry).Confined [] where
  scheduled i n hn := by simp [new] at hn
  required i n hn := by simp [new] at hn

theorem Confined.mono (h : g.Confined roots) (hroots : roots ⊆ roots') : g.Confined roots' where
  scheduled i n hn hs := (h.scheduled i n hn hs).mono hroots fun _ _ hp => hp
  required i n hn hr := (h.required i n hn hr).mono hroots fun _ _ hp => hp

theorem AsksWithin.forward {entry : Nat × Bool} (h : g.AsksWithin roots entry) (hf : g.Forward g') :
    g'.AsksWithin roots entry := by
  obtain ⟨n, hn, hp, hr⟩ := h
  obtain ⟨n', hn', hnode⟩ := hf.node entry.1 n hn
  rw [← hnode.key] at hp hr
  exact ⟨n', hn', hf.pulled hp, fun he => hf.needed (hr he)⟩

/-- Nodes that are left alone are reached as they were. -/
theorem Confined.of_spares {spared : Nat → Prop} (h : g.Confined roots) (hs : g.Spares spared g')
    (hf : g.Forward g')
    (hrest : ∀ (i : Nat) n, ¬ spared i → g'.nodes[i]? = some n → Reached g'.Pulls roots n.key ∧
      (n.required = true → Reached g'.Needs roots n.key)) : g'.Confined roots := by
  constructor
  · intro i n hn hsched
    by_cases hi : spared i
    · obtain ⟨m, hm, ha, hsched⟩ := hs.scheduled hi hn hsched
      rw [Node.key, ha.work]
      exact hf.pulled (h.scheduled i m hm hsched)
    · exact (hrest i n hi hn).1
  · intro i n hn hr
    by_cases hi : spared i
    · obtain ⟨m, ha, hm | ⟨_, work, rfl⟩⟩ := hs.node i n hi hn
      · rw [Node.key, ha.work]
        exact hf.needed (h.required i m hm (ha.required ▸ hr))
      · rw [ha.required] at hr
        cases hr
    · exact (hrest i n hi hn).2 hr

theorem Confined.of_spares_all (h : g.Confined roots) (hs : g.Spares (fun _ => True) g')
    (hf : g.Forward g') : g'.Confined roots :=
  h.of_spares hs hf fun _ _ hi => absurd trivial hi

/-- What a reached node brings in is reached. -/
theorem asksWithin_of_broughtIn (hw : g.Wired) (hn : g.nodes[id]? = some n)
    (hp : Reached g.Pulls roots n.key) (hr : n.required = true → Reached g.Needs roots n.key)
    {entry : Nat × Bool} (he : entry ∈ broughtIn n) : g.AsksWithin roots entry := by
  obtain ⟨m, hm, ⟨hfin, he⟩ | ⟨hdep, he⟩⟩ := hw.refers_of_broughtIn hn he
  · exact ⟨m, hm, hp.tail (.inr hfin), fun h => by simp [he] at h⟩
  · exact ⟨m, hm, hp.tail (.inl hdep), fun h => (hr (he ▸ h)).tail hdep⟩

section Merging

variable {σ : Type} (cross : Option (CrossBuild σ)) {state : WorkGraph × σ} {entry : Nat × Bool}

/-- Working on a reached node makes it part of the run and asks for reached nodes only. -/
theorem Confined.expand (h : state.1.Confined roots) (ha : state.1.AsksWithin roots entry)
    (ordinal : Nat) (hw : (WorkGraph.expand cross ordinal entry state).1.1.Wired) :
    (WorkGraph.expand cross ordinal entry state).1.1.Confined roots ∧
      ∀ e ∈ (WorkGraph.expand cross ordinal entry state).2,
        (WorkGraph.expand cross ordinal entry state).1.1.AsksWithin roots e := by
  have hforward := (expand_merged cross ordinal entry state).toForward
  obtain ⟨n, hn, hpulled, hneeded⟩ := ha
  obtain ⟨m, hm, hafter⟩ := expand_node cross hn ordinal
  have hkey : m.key = n.key := congrArg Work.key hafter.work
  have hp : Reached (WorkGraph.expand cross ordinal entry state).1.1.Pulls roots m.key := by
    rw [hkey]
    exact hforward.pulled hpulled
  have hr : m.required = true →
      Reached (WorkGraph.expand cross ordinal entry state).1.1.Needs roots m.key := by
    intro hr
    rw [hafter.required, Bool.or_eq_true] at hr
    rw [hkey]
    exact hforward.needed (hr.elim (h.required entry.1 n hn) hneeded)
  refine ⟨h.of_spares (expand_spares cross ordinal entry state) hforward fun i u hi hu => ?_,
    fun e he => asksWithin_of_broughtIn hw hm hp hr (hafter.next ▸ he)⟩
  have hie : i = entry.1 := by simpa using hi
  subst hie
  cases hm.symm.trans hu
  exact ⟨hp, hr⟩

/-- A batch of reached nodes brings in reached nodes only. -/
theorem Confined.merge {supply : Work → Prop} (ordinal fuel : Nat) (asked : List (Nat × Bool))
    (state : WorkGraph × σ) (h : state.1.Confined roots) (hd : state.1.Drawn supply)
    (ha : ∀ entry ∈ asked, state.1.AsksWithin roots entry) :
    (merge cross ordinal fuel asked state).1.Confined roots := by
  have hstart : state.1.Confined roots ∧ state.1.Drawn supply := ⟨h, hd⟩
  refine (merge_keeps_asked cross
    (Q := fun state => state.1.Confined roots ∧ state.1.Drawn supply)
    (A := fun state entry => state.1.AsksWithin roots entry) ?_ fuel asked hstart ha).1
  rintro entry state ⟨hconfined, hdrawn⟩ hasked -
  have hnext := hdrawn.expand cross ordinal entry
  obtain ⟨hexpanded, hmore⟩ := hconfined.expand cross hasked ordinal hnext.wired
  exact ⟨⟨hexpanded, hnext⟩,
    fun e he => he.forward (expand_merged cross ordinal entry state).toForward, hmore⟩

/-- A batch of queued nodes for such tasks adds what they reach, and nothing else. -/
theorem Confined.scheduleQueued {others others' : σ} {grown : Bool} (h : g.Confined roots)
    (hset : g.Settled) (hqueued : ∀ id ∈ g.queued, ∃ path ∈ roots, ∃ n, g.nodes[id]? = some n ∧
      n.key = .task path)
    (hok : scheduleQueued cross (g, others) = .ok (grown, g', others')) : g'.Confined roots := by
  rw [scheduleQueued_eq cross (phase_of_scheduleQueued cross hok), Except.ok.injEq] at hok
  split at hok
  · cases hok
    exact h
  · have hstart : g.batchStart.Confined roots :=
      h.of_spares_all (.of_nodes rfl) (.of_nodes rfl rfl)
    have hasked : ∀ entry ∈ g.queued.toList.map (·, true), g.batchStart.AsksWithin roots entry := by
      intro entry he
      obtain ⟨id, hid, rfl⟩ := List.mem_map.1 he
      obtain ⟨path, hp, n, hn, hkey⟩ := hqueued id (Std.TreeSet.mem_toList.1 hid)
      exact ⟨n, hn, hkey ▸ .root hp, fun _ => hkey ▸ .root hp⟩
    have hmerge := hstart.merge cross g.nextOrdinal (2 * g.nodeBound) _ (g.batchStart, others)
      (hset.drawn.congr (.of_nodes rfl) .refl) hasked
    simp only [Prod.mk.injEq] at hok
    rwa [hok.2] at hmerge

end Merging

/-- What is part of the run or queued comes from these tasks. -/
structure Rooted (g : WorkGraph) (roots : List TaskPath) : Prop where
  queued : ∀ id ∈ g.queued, ∃ path ∈ roots, ∃ n, g.nodes[id]? = some n ∧ n.key = .task path
  confined : g.Confined roots

theorem new_rooted (registry : Registry) : (new registry).Rooted [] where
  queued := by simp [new]
  confined := new_confined registry

theorem Rooted.mono (h : g.Rooted roots) (hroots : roots ⊆ roots') : g.Rooted roots' where
  queued id hid := (h.queued id hid).imp fun _ hp => ⟨hroots hp.1, hp.2⟩
  confined := h.confined.mono hroots

theorem Rooted.congr (h : g.Rooted roots) (hphase : g'.phase = g.phase)
    (hnodes : g'.nodes = g.nodes) (hqueued : g'.queued = g.queued) : g'.Rooted roots where
  queued := by
    rw [hnodes, hqueued]
    exact h.queued
  confined := h.confined.of_spares_all (.of_nodes hnodes) (.of_nodes hphase hnodes)

theorem Rooted.queue (h : g.Rooted roots) (hkeyed : g.registry.Keyed) (hp : path ∈ roots)
    (hok : g.queue path = .ok g') : g'.Rooted roots where
  queued id hid := by
    rcases mem_queued_queue hkeyed hok hid with hid | ⟨n, hn, hkey⟩
    · obtain ⟨p, hp, n, hn, hkey⟩ := h.queued id hid
      obtain ⟨n', hn', hf⟩ := (queue_forward hok).node id n hn
      exact ⟨p, hp, n', hn', hf.key.trans hkey⟩
    · exact ⟨path, hp, n, hn, hkey⟩
  confined := h.confined.of_spares_all (queue_spares hok) (queue_forward hok)

/-- A batch empties the queue, and it declares only what providers do. -/
theorem emptied_of_scheduleQueued {σ : Type} (cross : Option (CrossBuild σ)) {others others' : σ}
    {grown : Bool} (hok : scheduleQueued cross (g, others) = .ok (grown, g', others')) :
    g'.queued.isEmpty = true ∧ g.registry.Informed g'.registry := by
  rw [scheduleQueued_eq cross (phase_of_scheduleQueued cross hok), Except.ok.injEq] at hok
  split at hok
  · cases hok
    exact ⟨by assumption, .refl⟩
  · have hmerged := merge_merged cross g.nextOrdinal (2 * g.nodeBound)
      (g.queued.toList.map (·, true)) (g.batchStart, others)
    simp only [Prod.mk.injEq] at hok
    rw [hok.2] at hmerged
    refine ⟨?_, hmerged.registry⟩
    rw [hmerged.queued]
    rfl

/-- What is part of the run or queued comes from some tasks. -/
theorem Built.rooted (h : Built g) : ∃ roots, g.Rooted roots := by
  induction h with
  | new registry => exact ⟨[], new_rooted registry⟩
  | declare _ hok ih =>
    obtain ⟨_, _, rfl⟩ := declare_eq hok
    exact ih.imp fun roots hroots => hroots.congr rfl rfl rfl
  | handOut _ hok ih =>
    have hsame := handOut_spec hok
    exact ih.imp fun roots hroots => hroots.congr hsame.phase hsame.nodes hsame.queued
  | queue _ hok ih =>
    obtain ⟨roots, hroots⟩ := ih
    obtain ⟨task, _, _, ht, _⟩ := queue_cases hok
    have hmono : roots ⊆ task.path :: roots := List.subset_cons_self ..
    refine ⟨task.path :: roots, fun id hid => ?_, ?_⟩
    · rcases mem_queued_of_queue hok hid with hold | ⟨task', n, ht', hn, hkey⟩
      · obtain ⟨p, hp, n, hn, hkey⟩ := hroots.queued id hold
        obtain ⟨n', hn', hf⟩ := (queue_forward hok).node id n hn
        exact ⟨p, hmono hp, n', hn', hf.key.trans hkey⟩
      · cases ht.symm.trans ht'
        exact ⟨task.path, List.mem_cons_self .., n, hn, hkey⟩
    · exact (hroots.confined.of_spares_all (queue_spares hok) (queue_forward hok)).mono hmono
  | scheduleQueued hbuilt hok ih =>
    obtain ⟨roots, hroots⟩ := ih
    have hnone := Std.TreeSet.isEmpty_iff_forall_not_mem.1 (emptied_of_scheduleQueued _ hok).1
    exact ⟨roots, fun id hid => absurd hid (hnone id),
      hroots.confined.scheduleQueued _ hbuilt.settled hroots.queued hok⟩

/-- Scheduling some of the tasks brings in what they reach, and nothing else. -/
theorem Rooted.schedule {σ : Type} (cross : Option (CrossBuild σ)) (h : g.Rooted roots)
    (hset : g.Settled) (hkeyed : g.registry.Keyed) {paths : List TaskPath} (hpaths : paths ⊆ roots)
    (others : σ) : (schedule cross paths (g, others)).2.1.Rooted roots := by
  have hstart : g.Rooted roots ∧ g.Settled ∧ g.registry.Keyed := ⟨h, hset, hkeyed⟩
  refine (schedule_preserves (Q := fun g => g.Rooted roots ∧ g.Settled ∧ g.registry.Keyed)
    cross others
    ?_ ?_ hstart).1
  · rintro path hp g g' ⟨hrooted, hset, hkeyed⟩ hok
    obtain ⟨_, _, _, _, _, hregistry, _⟩ := queue_nodes hok
    exact ⟨hrooted.queue hkeyed (hpaths hp) hok, hset.queue hok, hregistry ▸ hkeyed⟩
  · rintro g g' others' grown ⟨hrooted, hset, hkeyed⟩ hok
    obtain ⟨hempty, hinformed⟩ := emptied_of_scheduleQueued cross hok
    have hnone := Std.TreeSet.isEmpty_iff_forall_not_mem.1 hempty
    exact ⟨⟨fun id hid => absurd hid (hnone id),
      hrooted.confined.scheduleQueued cross hset hrooted.queued hok⟩, hset.scheduleQueued cross hok,
      hkeyed.informed hinformed⟩

/-! ## The run is all that is reached -/

/-- The node of the key is part of the run and required. -/
def Demands (g : WorkGraph) (key : NodeKey) : Prop :=
  ∃ (i : Nat) (n : Node), g.nodes[i]? = some n ∧ n.key = key ∧ n.state.isScheduled = true ∧
    n.required = true

theorem Demands.includes (h : g.Demands key) : g.Includes key := by
  obtain ⟨i, n, hn, hkey, hs, _⟩ := h
  exact ⟨i, n, hn, hkey, hs⟩

/-- What a required node depends on is required. -/
theorem Settled.demands (h : g.Settled) (hx : g.Demands x) (hr : g.Needs x y) : g.Demands y := by
  obtain ⟨k, u, hu, hkey, hs, hreq⟩ := hx
  obtain ⟨i, j, n, m, hn, rfl, hm, rfl, hj⟩ := hr
  cases h.wired.distinct k i u n hu hn hkey
  cases hu.symm.trans hn
  have hentry : (j, u.required) ∈ broughtIn u :=
    List.mem_append_right _ (List.mem_map_of_mem (Std.TreeSet.mem_toList.2 hj))
  obtain ⟨hsched, hrequired⟩ := h.brought.includes h.wired ⟨k, u, hu, rfl, hs⟩ hu rfl hentry hm
  exact ⟨j, m, hm, rfl, hsched, hrequired hreq⟩

theorem Settled.includes (h : g.Settled) (hx : g.Includes x) (hr : g.Pulls x y) : g.Includes y :=
  hr.elim (h.brought.includes_dependency h.wired hx) (h.brought.includes_finalizer h.wired hx)

/-- The run consists of all that the tasks reach, and required is all that they reach along
dependencies alone. -/
structure Exact (g : WorkGraph) (roots : List TaskPath) : Prop where
  numbered : ∀ id ∈ g.scheduled, id < g.nodes.size
  scheduled : ∀ (id : Nat) n, g.nodes[id]? = some n →
    (id ∈ g.scheduled ↔ Reached g.Pulls roots n.key)
  required : ∀ (id : Nat) n, g.nodes[id]? = some n →
    (n.required = true ↔ Reached g.Needs roots n.key)
  reached : ∀ key, Reached g.Pulls roots key →
    ∃ (id : Nat) (n : Node), g.nodes[id]? = some n ∧ n.key = key
  resolved : ∀ (id : Nat) n, g.nodes[id]? = some n → id ∈ g.scheduled → n.resolved = true

theorem Confined.exact (h : g.Confined roots) (hb : Built g)
    (hroots : ∀ path ∈ roots, g.isRequired path = true) : g.Exact roots := by
  have hset := hb.settled
  have hsound := hb.sound
  have hdemands : ∀ path ∈ roots, g.Demands (.task path) := fun path hp =>
    (isRequired_iff_exists hset.wired.distinct).1 (hroots path hp)
  have hincludes : ∀ key, Reached g.Pulls roots key → g.Includes key := fun key hr =>
    hr.induct (fun path hp => (hdemands path hp).includes) fun _ _ => hset.includes
  have hneeds : ∀ key, Reached g.Needs roots key → g.Demands key := fun key hr =>
    hr.induct hdemands fun _ _ => hset.demands
  constructor
  · intro id hid
    obtain ⟨n, hn, _⟩ := (hsound.scheduled id).1 hid
    exact (Array.getElem?_eq_some_iff.1 hn).1
  · intro id n hn
    rw [hsound.scheduled]
    constructor
    · rintro ⟨m, hm, hs⟩
      cases hm.symm.trans hn
      exact h.scheduled id n hn hs
    · intro hr
      exact ⟨n, hn, (hincludes n.key hr).unique hset.wired.distinct hn⟩
  · intro id n hn
    refine ⟨h.required id n hn, fun hr => ?_⟩
    obtain ⟨k, m, hm, hkey, _, hreq⟩ := hneeds n.key hr
    cases hset.wired.distinct k id m n hm hn hkey
    cases hm.symm.trans hn
    exact hreq
  · intro key hr
    obtain ⟨k, m, hm, hkey, _⟩ := hincludes key hr
    exact ⟨k, m, hm, hkey⟩
  · intro id n hn hid
    obtain ⟨m, hm, hs⟩ := (hsound.scheduled id).1 hid
    cases hm.symm.trans hn
    exact hset.resolved id n hn hs

end WorkGraph

end Foreman
