import Foreman.Proofs.Requests
import Foreman.Proofs.WorkGraph.Journal
import Foreman.Proofs.WorkGraph.Ordinals

/-!
# Scheduling again

Only tasks that are not required yet wait for a batch (`Populated.waiting`), and a batch makes them
required (`Populated.exists_newly_required`), so scheduling says that the graph grew just if it did
(`Populated.scheduleQueued_grew`), which is to say if the batch had a node to work on
(`scheduleQueued_worked`). There are then never more batches than nodes
(`Reachable.nextOrdinal_le`).

A request for a task that is required changes nothing (`Populated.queue_of_isRequired`); with
nothing queued, neither does scheduling such tasks, nor scheduling the same tasks twice
(`Reachable.schedulesHonestly`). What a controller says of its requests is as true
(`Controller.schedulesHonestly`).
-/

namespace Foreman

namespace WorkGraph

variable {g g' : WorkGraph} {id : Nat} {n : Node} {f : Node → Node} {path : TaskPath}
  {paths : List TaskPath}

/-- The graphs that populating can lead to, if tasks are declared under their own paths. The build
may be stopped in between. -/
inductive Reachable : WorkGraph → Prop
  | new {registry : Registry} (h : registry.Keyed) : Reachable (.new registry)
  | declare {g g' : WorkGraph} {providers : List (ProviderId × Provider)} {task : TaskDefinition}
      (h : Reachable g) (hok : g.declare providers task = .ok g') : Reachable g'
  | handOut {g g' : WorkGraph} {path : TaskPath} (h : Reachable g) (hok : g.handOut path = .ok g') :
      Reachable g'
  | abandonExports {g : WorkGraph} (h : Reachable g) : Reachable g.abandonExports
  | queue {g g' : WorkGraph} {path : TaskPath} (h : Reachable g) (hok : g.queue path = .ok g') :
      Reachable g'
  | scheduleQueued {g g' : WorkGraph} {σ : Type} {cross : Option (CrossBuild σ)}
      {others others' : σ}
      {grown : Bool} (h : Reachable g)
      (hok : WorkGraph.scheduleQueued cross (g, others) = .ok (grown, g', others')) : Reachable g'

theorem Reachable.schedule {σ : Type} (h : g.Reachable) (cross : Option (CrossBuild σ))
    (paths : List TaskPath) (others : σ) : (schedule cross paths (g, others)).2.1.Reachable :=
  schedule_preserves cross others (fun _ _ _ _ hg hok => hg.queue hok)
    (fun _ _ _ _ hg hok => hg.scheduleQueued hok) h

/-! ## What waits for a batch -/

/-- What holds of a graph while it is populated. -/
structure Populated (g : WorkGraph) : Prop where
  phase : g.phase = .populating
  keyed : g.registry.Keyed
  settled : g.Settled
  sound : g.Sound fun _ _ => True
  numbered : g.Numbered
  /-- What is queued is not required yet. -/
  waiting : ∀ id ∈ g.queued, ¬ g.IsRequiredAt id

theorem new_populated {registry : Registry} (h : registry.Keyed) : (new registry).Populated where
  phase := rfl
  keyed := h
  settled := new_settled registry
  sound := new_sound registry
  numbered := by simp [Numbered, new]
  waiting := by simp [new]

theorem isRequiredAt_congr (h : g'.nodes = g.nodes) : g'.IsRequiredAt id ↔ g.IsRequiredAt id := by
  rw [IsRequiredAt, IsRequiredAt, h]

/-- A graph in which nothing but the declarations and the exports changed. -/
theorem Populated.congr (h : g.Populated) (hphase : g'.phase = g.phase) (hkeyed : g'.registry.Keyed)
    (hsettled : g'.Settled) (hsound : g'.Sound fun _ _ => True) (hnodes : g'.nodes = g.nodes)
    (hqueued : g'.queued = g.queued) : g'.Populated where
  phase := hphase.trans h.phase
  keyed := hkeyed
  settled := hsettled
  sound := hsound
  numbered := by
    rw [Numbered, hnodes, hqueued]
    exact h.numbered
  waiting := by
    rw [hqueued]
    exact fun id hid hr => h.waiting id hid ((isRequiredAt_congr hnodes).1 hr)

theorem Populated.declare {providers : List (ProviderId × Provider)} {task : TaskDefinition}
    (h : g.Populated) (hok : g.declare providers task = .ok g') : g'.Populated := by
  have hsettled := h.settled.declare hok
  have hsound := declare_sound h.sound hok
  obtain ⟨registry, hr, rfl⟩ := declare_eq hok
  exact h.congr rfl ((h.keyed.provideAll providers).register hr) hsettled hsound rfl rfl

theorem Populated.handOut (h : g.Populated) (hok : g.handOut path = .ok g') : g'.Populated := by
  have hspec := handOut_spec hok
  exact h.congr hspec.phase (hspec.registry ▸ h.keyed)
    (h.settled.congr hspec.nodes fun _ hd => hspec.registry ▸ hd) (hspec.sound h.sound) hspec.nodes
    hspec.queued

theorem Populated.abandonExports (h : g.Populated) : g.abandonExports.Populated :=
  h.congr rfl h.keyed (h.settled.congr rfl fun _ hd => hd) (h.sound.congr rfl rfl rfl) rfl rfl

/-- Where nothing joined the run nothing became required. -/
theorem Spares.isRequiredAt (h : g.Spares (fun _ => True) g') (hr : g'.IsRequiredAt id) :
    g.IsRequiredAt id := by
  obtain ⟨n', hn', hs, hr⟩ := hr
  obtain ⟨n, hn, ha, hs⟩ := h.scheduled trivial hn' hs
  exact ⟨n, hn, hs, ha.required.symm.trans hr⟩

/-- A request queues only what is not required yet. -/
theorem waiting_of_queue (hok : g.queue path = .ok g') (hid : id ∈ g'.queued) :
    id ∈ g.queued ∨ ¬ g'.IsRequiredAt id := by
  obtain ⟨task, g₁, k, -, hg₁, hg'⟩ := queue_cases hok
  have hqueued := (nodeFor_merged g (.task task)).queued
  rw [hg₁] at hqueued
  obtain ⟨-, rfl⟩ | ⟨hopen, rfl⟩ := hg'
  · exact .inl (hqueued ▸ hid)
  · rcases Std.TreeSet.mem_insert.1 hid with hid | hid
    · right
      rintro ⟨n, hn, hs, hr⟩
      obtain rfl := Std.LawfulEqCmp.compare_eq_iff_eq.1 hid
      exact hopen ((Option.any_eq_true _ _).2 ⟨n, hn, by rw [hs, hr]; rfl⟩)
    · exact .inl (hqueued ▸ hid)

theorem Populated.queue (h : g.Populated) (hok : g.queue path = .ok g') : g'.Populated := by
  obtain ⟨g'', hok', hrequested, -⟩ := queue_ok h.phase h.keyed (Journal.contains_of_queue hok)
  cases hok'.symm.trans hok
  refine ⟨hrequested.phase.trans h.phase, hrequested.registry ▸ h.keyed, h.settled.queue hok,
    (queue_sound h.sound hok).1, hrequested.numbered h.numbered, fun id hid hr => ?_⟩
  rcases waiting_of_queue hok hid with hold | hnew
  · exact h.waiting id hold ((queue_spares hok).isRequiredAt hr)
  · exact hnew hr

theorem Populated.scheduleQueued {σ : Type} {cross : Option (CrossBuild σ)} {others others' : σ}
    {grown : Bool} (h : g.Populated)
    (hok : WorkGraph.scheduleQueued cross (g, others) = .ok (grown, g', others')) :
    g'.Populated := by
  obtain ⟨hforward, hinformed, -, hempty, -⟩ := scheduleQueued_spec cross h.numbered hok
  have hnone := Std.TreeSet.isEmpty_iff_forall_not_mem.1 hempty
  exact ⟨hforward.phase.trans h.phase, h.keyed.informed hinformed,
    h.settled.scheduleQueued cross hok,
    (scheduleQueued_grown (fun c _ => c.keeps_true _) (.start_true h.sound others) hok).sound,
    fun id hid => absurd hid (hnone id), fun id hid => absurd hid (hnone id)⟩

theorem Reachable.populated (h : g.Reachable) : g.Populated := by
  induction h with
  | new hkeyed => exact new_populated hkeyed
  | declare _ hok ih => exact ih.declare hok
  | handOut _ hok ih => exact ih.handOut hok
  | abandonExports _ ih => exact ih.abandonExports
  | queue _ hok ih => exact ih.queue hok
  | scheduleQueued _ hok ih => exact ih.scheduleQueued hok

/-! ## Requests that change nothing -/

theorem modify_eq_self (hn : g.nodes[id]? = some n) (hf : f n = n) : g.modify id f = g := by
  have hnodes : g.nodes.modify id f = g.nodes := by
    refine Array.ext_getElem? fun k => ?_
    rw [Array.getElem?_modify]
    split
    · rename_i hid
      rw [← hid, hn, Option.map_some, hf]
    · rfl
  rw [modify, hnodes]

/-- A task that has a node is declared. -/
theorem Populated.get? (h : g.Populated) (hn : g.nodes[id]? = some n) (hkey : n.key = .task path) :
    ∃ task, g.registry.get? path = some task ∧ task.path = path := by
  rw [Node.key] at hkey
  cases hw : n.work with
  | foreign build path' =>
    rw [hw] at hkey
    cases hkey
  | task task =>
    rw [hw] at hkey
    obtain rfl : task.path = path := NodeKey.task.inj hkey
    obtain ⟨path', ht⟩ := h.settled.declared id n task hn hw
    have hpath := h.keyed path' task ht
    exact ⟨task, by rwa [hpath], rfl⟩

theorem Populated.queue_of_isRequired (h : g.Populated) (hr : g.isRequired path = true) :
    g.queue path = .ok g := by
  obtain ⟨id, n, hid, hn, hs, hreq⟩ := isRequired_iff.1 hr
  obtain ⟨u, hu, hkey⟩ := find?_spec hid
  obtain ⟨task, ht, hpath⟩ := h.get? hu hkey
  have hnode : g.nodeFor (.task task) = (g, id) := by
    rw [nodeFor, Work.key, hpath, hid]
  have hjoined : n.state ≠ .notScheduled := by
    intro hstate
    rw [hstate] at hs
    cases hs
  have hsame : (g.modify id fun n =>
      if n.state = .notScheduled then { n with state := .queued } else n) = g :=
    modify_eq_self hn (if_neg hjoined)
  have hsettled : ((g.nodes[id]?).any fun n => n.state.isScheduled && n.required) = true :=
    (Option.any_eq_true _ _).2 ⟨n, hn, by rw [hs, hreq]; rfl⟩
  have hopen : g.require .populating .queueTasks = .ok () := if_pos h.phase
  simp only [WorkGraph.queue, hopen, ht, hnode, hsame, hsettled, bind, Except.bind, pure,
    Except.pure, if_true]

theorem Populated.queueAll_of_isRequired (h : g.Populated)
    (hr : ∀ path ∈ paths, g.isRequired path = true) : g.queueAll paths = (g, none) := by
  induction paths with
  | nil => rfl
  | cons path paths ih =>
    have hqueue := h.queue_of_isRequired (hr path (List.mem_cons_self ..))
    simp only [queueAll, eachUntilError, hqueue]
    exact ih fun p hp => hr p (List.mem_cons_of_mem path hp)

/-- With nothing queued, scheduling tasks that are required changes neither the graph nor the builds
around it. -/
theorem Populated.schedule_of_isRequired {σ : Type} (h : g.Populated)
    (cross : Option (CrossBuild σ))
    (hempty : g.queued.isEmpty = true) (hr : ∀ path ∈ paths, g.isRequired path = true)
    (others : σ) :
    schedule cross paths (g, others) = (.ok false, g, others) := by
  simp only [schedule, h.queueAll_of_isRequired hr, scheduleQueued_eq cross h.phase,
    hempty, if_true]

/-! ## Growth -/

/-- The run has a node that it did not have, or one of it became required. -/
def Grew (g g' : WorkGraph) : Prop :=
  (∃ id ∈ g'.scheduled, id ∉ g.scheduled) ∨ ∃ id, g'.IsRequiredAt id ∧ ¬ g.IsRequiredAt id

theorem not_grew_self (g : WorkGraph) : ¬ g.Grew g := by
  rintro (⟨id, hid, hnot⟩ | ⟨id, hid, hnot⟩)
  · exact hnot hid
  · exact hnot hid

/-- Requests alone do not count as growth. -/
theorem Awaiting.grew_iff {g₁ : WorkGraph} (h : g.Awaiting g₁) (hs : g.Sound fun _ _ => True)
    (hs₁ : g₁.Sound fun _ _ => True) : g₁.Grew g' ↔ g.Grew g' := by
  have hrun : ∀ id, id ∈ g₁.scheduled ↔ id ∈ g.scheduled := by
    intro id
    rw [hs₁.scheduled, hs.scheduled]
    constructor
    · rintro ⟨n', hn', hsched⟩
      obtain ⟨n, hn, -, hsched⟩ := h.spares.scheduled trivial hn' hsched
      exact ⟨n, hn, hsched⟩
    · rintro ⟨n, hn, hsched⟩
      obtain ⟨n', hn', hf⟩ := h.forward.node id n hn
      exact ⟨n', hn', hf.scheduled hsched⟩
  have hrequired : ∀ id, g₁.IsRequiredAt id ↔ g.IsRequiredAt id :=
    fun id => ⟨h.spares.isRequiredAt, h.forward.isRequiredAt⟩
  simp only [Grew, hrun, hrequired]

section Batches

variable {σ : Type} (cross : Option (CrossBuild σ)) {others others' : σ} {grown : Bool}

/-- How many nodes a merge works on: those that join the run, and those that become required. -/
def worked (ordinal : Nat) : Nat → List (Nat × Bool) → WorkGraph × σ → Nat
  | fuel, asked, state =>
    match asked.dropWhile state.1.isSettled, fuel with
    | entry :: asked, fuel + 1 =>
      let (state, more) := expand cross ordinal entry state
      worked ordinal fuel (asked ++ more) state + 1
    | _, _ => 0

theorem worked_pos_iff (ordinal fuel : Nat) (asked : List (Nat × Bool)) (state : WorkGraph × σ) :
    0 < worked cross ordinal (fuel + 1) asked state ↔ asked.all state.1.isSettled = false := by
  rw [← Bool.not_eq_true, List.all_eq_true, ← List.dropWhile_eq_nil_iff, worked.eq_def]
  cases hdrop : asked.dropWhile state.1.isSettled with
  | nil => simp [hdrop]
  | cons entry rest => simp [hdrop]

/-- A batch says that the graph grew just if there were nodes to work on. -/
theorem scheduleQueued_worked (h : g.Numbered)
    (hok : WorkGraph.scheduleQueued cross (g, others) = .ok (grown, g', others')) :
    grown = true ↔ 0 < worked cross g.nextOrdinal (2 * g.nodeBound) (g.queued.toList.map (·, true))
      (g.batchStart, others) := by
  rw [scheduleQueued_eq cross (phase_of_scheduleQueued cross hok), Except.ok.injEq] at hok
  cases hopen : g.queued.isEmpty with
  | true =>
    simp only [hopen, if_true, Prod.mk.injEq] at hok
    have hnone : g.queued.toList = [] := by
      rw [← List.isEmpty_iff, Std.TreeSet.isEmpty_toList, hopen]
    rw [← hok.1, hnone, worked.eq_def]
    simp
  | false =>
    simp only [hopen, Bool.false_eq_true, if_false, Prod.mk.injEq] at hok
    obtain ⟨id, hid⟩ := Std.TreeSet.isEmpty_eq_false_iff_exists_mem.1 hopen
    have hlt := h id hid
    obtain ⟨fuel, hfuel⟩ : ∃ fuel, 2 * g.nodeBound = fuel + 1 := by
      refine Nat.exists_eq_succ_of_ne_zero ?_
      rw [nodeBound]
      omega
    rw [← hok.1, hfuel, worked_pos_iff, Bool.not_eq_true']
    rfl

/-- Each batch makes a node newly required. -/
theorem Populated.exists_newly_required (h : g.Populated) (hopen : g.queued.isEmpty = false)
    (hok : WorkGraph.scheduleQueued cross (g, others) = .ok (grown, g', others')) :
    ∃ id, g'.IsRequiredAt id ∧ ¬ g.IsRequiredAt id := by
  obtain ⟨id, hid⟩ := Std.TreeSet.isEmpty_eq_false_iff_exists_mem.1 hopen
  obtain ⟨-, -, -, -, hrequired⟩ := scheduleQueued_spec cross h.numbered hok
  exact ⟨id, hrequired id hid, h.waiting id hid⟩

/-- A batch says that the graph grew just if it did: whatever was queued was not required. -/
theorem Populated.scheduleQueued_grew (h : g.Populated)
    (hok : WorkGraph.scheduleQueued cross (g, others) = .ok (grown, g', others')) :
    grown = true ↔ g.Grew g' := by
  cases hopen : g.queued.isEmpty with
  | true =>
    obtain ⟨rfl, rfl, -⟩ := eq_of_scheduleQueued_of_isEmpty cross hopen hok
    simp [not_grew_self]
  | false =>
    refine iff_of_true ?_ (.inr (h.exists_newly_required cross hopen hok))
    rw [scheduleQueued_eq cross h.phase, hopen] at hok
    simp only [Bool.false_eq_true, if_false, Except.ok.injEq, Prod.mk.injEq] at hok
    rw [← hok.1, Bool.not_eq_true', Bool.eq_false_iff]
    intro hsettled
    obtain ⟨id, hid⟩ := Std.TreeSet.isEmpty_eq_false_iff_exists_mem.1 hopen
    have hentry := List.all_eq_true.1 hsettled (id, true)
      (List.mem_map_of_mem (Std.TreeSet.mem_toList.2 hid))
    exact h.waiting id hid
      (isRequiredAt_of_isSettled (Array.getElem?_eq_getElem (h.numbered id hid)) hentry)

theorem Populated.schedule_ok (h : g.Populated)
    (hknown : ∀ path ∈ paths, g.registry.contains path = true) (others : σ) :
    ∃ grown, (schedule cross paths (g, others)).1 = .ok grown ∧
      (grown = true ↔ g.Grew (schedule cross paths (g, others)).2.1) := by
  have hdeclared := (queueAll_spec h.phase h.keyed paths).declared.2 hknown
  have hawaiting := g.queueAll_awaiting paths
  have hpopulated : (g.queueAll paths).1.Populated := by
    refine eachUntilError_keeps (fun path _ g₁ hg => ?_) h
    cases hq : g₁.queue path with
    | error e => exact hg
    | ok g₂ => exact hg.queue hq
  rw [schedule]
  dsimp only
  generalize g.queueAll paths = answer at hdeclared hawaiting hpopulated
  obtain ⟨g₁, error⟩ := answer
  dsimp only at hdeclared hawaiting hpopulated
  subst hdeclared
  obtain ⟨⟨grown, g', others'⟩, hok⟩ := scheduleQueued_ok cross hpopulated.phase others
  simp only [hok]
  exact ⟨grown, rfl, (hpopulated.scheduleQueued_grew cross hok).trans
    (hawaiting.grew_iff h.sound hpopulated.sound)⟩

end Batches

/-! ## How many batches there are -/

/-- A node that is part of the run and required counts once. -/
def countIfRequired (n : Node) : Nat := if n.state.isScheduled && n.required then 1 else 0

def requiredCount (g : WorkGraph) : Nat := total countIfRequired g.nodes.toList

theorem countIfRequired_le_one (n : Node) : countIfRequired n ≤ 1 := by
  unfold countIfRequired
  split <;> omega

theorem countIfRequired_le {n' : Node} (h : n.Forward n') :
    countIfRequired n ≤ countIfRequired n' := by
  unfold countIfRequired
  by_cases hn : (n.state.isScheduled && n.required) = true
  · rw [Bool.and_eq_true] at hn
    rw [h.scheduled hn.1, h.required hn.2]
    split <;> simp
  · rw [if_neg hn]
    omega

theorem requiredCount_le (g : WorkGraph) : g.requiredCount ≤ g.nodes.size := by
  have h := total_le_total countIfRequired_le_one g.nodes.toList
  rw [total_const, Array.length_toList, Nat.one_mul] at h
  exact h

theorem Forward.requiredCount_le (h : g.Forward g') : g.requiredCount ≤ g'.requiredCount := by
  refine total_le_of_getElem? fun i n hn => ?_
  obtain ⟨n', hn', hf⟩ := h.node i n (by simpa using hn)
  exact ⟨n', by simpa using hn', countIfRequired_le hf⟩

theorem Forward.requiredCount_lt (h : g.Forward g') (hnew : g'.IsRequiredAt id)
    (hold : ¬ g.IsRequiredAt id) : g.requiredCount < g'.requiredCount := by
  obtain ⟨n', hn', hs, hr⟩ := hnew
  have hone : countIfRequired n' = 1 := by simp [countIfRequired, hs, hr]
  have hplace : g'.nodes.toList[id]? = some n' := by simpa using hn'
  refine total_lt_of_getElem? (fun i n hn => ?_) hplace (by omega) fun n hn => ?_
  · obtain ⟨m, hm, hf⟩ := h.node i n (by simpa using hn)
    exact ⟨m, by simpa using hm, countIfRequired_le hf⟩
  · have hzero : countIfRequired n = 0 := by
      unfold countIfRequired
      refine if_neg fun hn' => hold ⟨n, by simpa using hn, ?_⟩
      simpa using hn'
    omega

/-- There were no more batches than there are nodes: each made one required, and required it
stays. -/
theorem Reachable.nextOrdinal_le (h : g.Reachable) : g.nextOrdinal ≤ g.nodes.size := by
  refine Nat.le_trans ?_ g.requiredCount_le
  induction h with
  | new => exact Nat.zero_le _
  | declare _ hok ih =>
    obtain ⟨_, _, rfl⟩ := declare_eq hok
    exact ih
  | handOut _ hok ih =>
    obtain ⟨-, rfl⟩ | ⟨-, -, rfl⟩ := handOut_cases hok
    · exact ih
    · exact ih
  | abandonExports _ ih => exact ih
  | queue _ hok ih =>
    rw [(queue_sameOrdinals hok).nextOrdinal]
    exact Nat.le_trans ih (queue_forward hok).requiredCount_le
  | @scheduleQueued g g' σ cross others others' grown h hok ih =>
    obtain ⟨hforward, -⟩ := scheduleQueued_spec cross h.populated.numbered hok
    cases hopen : g.queued.isEmpty with
    | true =>
      obtain ⟨-, rfl, -⟩ := eq_of_scheduleQueued_of_isEmpty cross hopen hok
      exact ih
    | false =>
      obtain ⟨id, hnew, hold⟩ := h.populated.exists_newly_required cross hopen hok
      have hlt := hforward.requiredCount_lt hnew hold
      have hnext := nextOrdinal_scheduleQueued cross hopen hok
      rw [hnext]
      omega

/-- Scheduling declared tasks says whether the graph grew, and all of it is done at once: what is
required is not scheduled again. -/
structure SchedulesHonestly (g : WorkGraph) : Prop where
  known : ∀ {σ : Type} (cross : Option (CrossBuild σ)) (paths : List TaskPath) (others : σ),
    (∀ path ∈ paths, g.registry.contains path = true) → ∃ grown g' others',
      schedule cross paths (g, others) = (.ok grown, g', others') ∧ (grown = true ↔ g.Grew g') ∧
        ∀ {σ' : Type} (cross' : Option (CrossBuild σ')) (others'' : σ'),
          schedule cross' paths (g', others'') = (.ok false, g', others'')
  required : ∀ {σ : Type} (cross : Option (CrossBuild σ)) (paths : List TaskPath) (others : σ),
    g.queued.isEmpty = true → (∀ path ∈ paths, g.isRequired path = true) →
      schedule cross paths (g, others) = (.ok false, g, others)

theorem Reachable.schedulesHonestly (h : g.Reachable) : g.SchedulesHonestly where
  known cross paths others hknown := by
    have hpopulated := h.populated
    obtain ⟨grown, hok, hgrew⟩ := hpopulated.schedule_ok cross hknown others
    have hspec := schedule_spec cross hpopulated.phase hpopulated.keyed hpopulated.numbered
      paths others
    have hafter := (h.schedule cross paths others).populated
    refine ⟨grown, _, _, Prod.ext hok rfl, hgrew, fun cross' others'' => ?_⟩
    exact hafter.schedule_of_isRequired cross' (hspec.empty ⟨grown, hok⟩)
      (fun path hp => hspec.isRequired ⟨grown, hok⟩ hp) others''
  required cross _ others hempty hr := h.populated.schedule_of_isRequired cross hempty hr others

end WorkGraph

/-! ## Controllers -/

namespace Controller

variable {c c' : Controller}

/-- Scheduling the requested tasks says whether the graph grew. Where nothing was requested that is
not required already, it only forgets the requests. -/
structure SchedulesHonestly (c : Controller) : Prop where
  known : ∀ {σ : Type} (cross : Option (CrossBuild σ)) (others : σ),
    (∀ path ∈ c.queued, c.graph.registry.contains path = true) → ∃ grown graph others',
      c.scheduleQueued cross others = (.ok grown, { c with graph, queued := ∅ }, others') ∧
        (grown = true ↔ c.graph.Grew graph) ∧ ∀ path ∈ c.queued, graph.isRequired path = true
  required : ∀ {σ : Type} (cross : Option (CrossBuild σ)) (others : σ),
    (∀ path ∈ c.queued, c.graph.isRequired path = true) →
      c.scheduleQueued cross others = (.ok false, { c with queued := ∅ }, others)
  again : ∀ {σ σ' : Type} (cross : Option (CrossBuild σ)) (others : σ)
    (cross' : Option (CrossBuild σ')) (others' : σ'),
      (c.scheduleQueued cross others).2.1.scheduleQueued cross' others' =
        (.ok false, (c.scheduleQueued cross others).2.1, others')

section Batches

variable {σ : Type} (cross : Option (CrossBuild σ)) (others : σ)

/-- Where nothing was requested that is not required already, the requests are forgotten and no
more. -/
theorem scheduleQueued_of_isRequired (hstate : c.state = .discoveringTasks)
    (hr : ∀ path ∈ c.queued, c.graph.isRequired path = true) :
    c.scheduleQueued cross others = (.ok false, { c with queued := ∅ }, others) := by
  have hbatch : c.batch = [] :=
    List.filter_eq_nil_iff.2 fun path hp => by simp [hr path (Std.TreeSet.mem_toList.1 hp)]
  rw [scheduleQueued_eq cross others hstate, hbatch, List.isEmpty_nil, if_pos rfl]

/-- Nothing stays requested, whatever comes of it. -/
theorem queued_scheduleQueued (hstate : c.state = .discoveringTasks) :
    (c.scheduleQueued cross others).2.1.state = .discoveringTasks ∧
      (c.scheduleQueued cross others).2.1.queued = ∅ := by
  rw [scheduleQueued_eq cross others hstate]
  split
  · exact ⟨hstate, rfl⟩
  · exact ⟨hstate, rfl⟩

theorem scheduleQueued_known (h : c.graph.Reachable) (hstate : c.state = .discoveringTasks)
    (hknown : ∀ path ∈ c.queued, c.graph.registry.contains path = true) : ∃ grown graph others',
      c.scheduleQueued cross others = (.ok grown, { c with graph, queued := ∅ }, others') ∧
        (grown = true ↔ c.graph.Grew graph) ∧ ∀ path ∈ c.queued, graph.isRequired path = true := by
  rw [scheduleQueued_eq cross others hstate]
  split
  · rename_i hempty
    refine ⟨false, c.graph, others, rfl, by simp [WorkGraph.not_grew_self], fun path hp => ?_⟩
    exact (mem_batch_or_isRequired hp).resolve_left (by simp [List.isEmpty_iff.1 hempty])
  · have hbatch : ∀ path ∈ c.batch, c.graph.registry.contains path = true := fun path hp =>
      hknown path (Std.TreeSet.mem_toList.1 (List.mem_of_mem_filter hp))
    have hspec := WorkGraph.schedule_spec cross h.populated.phase h.populated.keyed
      h.populated.numbered c.batch others
    obtain ⟨grown, hok, hgrew⟩ := h.populated.schedule_ok cross hbatch others
    refine ⟨grown, _, _, by rw [← hok], hgrew, fun path hp => ?_⟩
    rcases mem_batch_or_isRequired hp with hp | hr
    · exact hspec.isRequired ⟨grown, hok⟩ hp
    · exact hspec.toForward.isRequired hr

end Batches

theorem schedulesHonestly (h : c.graph.Reachable) (hstate : c.state = .discoveringTasks) :
    c.SchedulesHonestly where
  known cross others hknown := scheduleQueued_known cross others h hstate hknown
  required cross others hr := scheduleQueued_of_isRequired cross others hstate hr
  again cross others cross' others' := by
    obtain ⟨hstate', hqueued⟩ := queued_scheduleQueued cross others hstate
    generalize (c.scheduleQueued cross others).2.1 = c' at hstate' hqueued
    rw [scheduleQueued_of_isRequired cross' others' hstate' (by simp [hqueued]), ← hqueued]

/-! ### Histories -/

theorem graph_want (c : Controller) (path : TaskPath) : (c.want path).graph = c.graph := by
  rw [want]
  split <;> rfl

/-- Whatever is asked of a controller, its graph is one that populating leads to. -/
theorem reachable_after (h : c.graph.Reachable) (hstate : c.state = .discoveringTasks)
    (r : Request) :
    (c.after r).graph.Reachable := by
  cases r with
  | declare providers task =>
    rw [after]
    cases hok : c.declare providers task with
    | error e => exact h
    | ok c' =>
      obtain ⟨g, hg, rfl⟩ := eq_of_declare hok
      exact h.declare hg
  | queue path =>
    rw [after]
    cases hok : c.queue path with
    | error e => exact h
    | ok c' =>
      obtain rfl := eq_of_queue hok
      exact c.graph_want path ▸ h
  | exportTask path =>
    rw [after]
    cases hok : c.exportTask path with
    | error e => exact h
    | ok c' =>
      obtain ⟨g, hg, rfl⟩ := eq_of_exportTask hok
      rw [if_pos hstate]
      exact graph_want { c with graph := g } path ▸ h.handOut hg
  | observeTask path =>
    rw [after]
    cases hok : c.observeTask path with
    | error e => exact h
    | ok c' =>
      obtain ⟨g, hg, rfl⟩ := eq_of_observeTask hok
      exact h.handOut hg
  | populate cross paths others =>
    rw [after, populate, require_eq hstate]
    exact h.schedule cross paths others
  | scheduleQueued cross others =>
    rw [after, scheduleQueued_eq cross others hstate]
    split
    · exact h
    · exact h.schedule cross c.batch others

theorem reachable_afterAll {registry : Registry} (h : registry.Keyed) (requests : List Request) :
    ((Ledger.new registry).afterAll requests).controller.graph.Reachable ∧
      ((Ledger.new registry).afterAll requests).controller.state = .discoveringTasks := by
  have hstart : (Ledger.new registry).controller.graph.Reachable ∧ (Ledger.new registry).Kept :=
    ⟨.new h, Ledger.new_kept h⟩
  have hend := List.foldlRecOn (motive := fun l : Ledger => l.controller.graph.Reachable ∧ l.Kept)
    requests Ledger.after hstart fun l hl r _ =>
      ⟨reachable_after hl.1 hl.2.isOpen.state r, hl.2.after r⟩
  exact ⟨hend.1, hend.2.isOpen.state⟩

end Controller

/-- Whatever populated a graph, scheduling says whether it grew, and is done at once; so it is with
the controller of its build. -/
theorem WorkGraph.schedules_honestly {g : WorkGraph} (h : g.Reachable) :
    g.SchedulesHonestly ∧ ∀ c : Controller, c.graph = g → c.state = .discoveringTasks →
      c.SchedulesHonestly := by
  refine ⟨h.schedulesHonestly, ?_⟩
  rintro c rfl hstate
  exact Controller.schedulesHonestly h hstate

namespace Controller

open WorkGraph (smallTask)

/-- A test is part of the run with what it needs and its report; then the report is requested, and
what the test needs once more. -/
def reportHistory : List Request :=
  [.declare [] (smallTask "compile" [] [] []), .declare [] (smallTask "report" [] [] []),
    .declare [] (smallTask "test" ["compile"] ["report"] []), .queue ⟨":", "test"⟩,
    Ledger.batchAlone, .queue ⟨":", "report"⟩, .queue ⟨":", "compile"⟩]

/-- Only the report waits for a batch. The batch adds no task, but it tells that the report became
required. -/
theorem reportHistory_schedules : ∃ c g,
    c = ((Ledger.new (.empty ⟨"main"⟩)).afterAll reportHistory).controller ∧ g = c.graph ∧
      g.SchedulesHonestly ∧ c.SchedulesHonestly ∧ c.queued.toList = [⟨":", "report"⟩] ∧
      (c.scheduleQueued (none : Option (CrossBuild Unit)) ()).1.toOption = some true ∧
      (c.scheduleQueued (none : Option (CrossBuild Unit)) ()).2.1.graph.scheduled.toList =
        g.scheduled.toList := by
  obtain ⟨hreachable, hstate⟩ := reachable_afterAll (Registry.empty_keyed ⟨"main"⟩) reportHistory
  obtain ⟨hgraph, hcontrollers⟩ := WorkGraph.schedules_honestly hreachable
  exact ⟨_, _, rfl, rfl, hgraph, hcontrollers _ rfl hstate, by decide +kernel, by decide +kernel,
    by decide +kernel⟩

end Controller

end Foreman
