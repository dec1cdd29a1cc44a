import Foreman.Proofs.WorkGraph.Journal
import Foreman.Proofs.WorkGraph.Ordinals

/-!
# Which batch a node belongs to

A chronicle keeps the batches of a graph beside it, each with the tasks that were queued for it and
the graph that it left. After any history of requests the ordinal of a node of the run is the number
of the first batch that reached it, counting only batches that were not empty; no request ever
changes it, and nothing has a later one than what depends on it
(`Chronicle.ordinals_follow_batches`).
-/

namespace Foreman

namespace WorkGraph

variable {g g' : WorkGraph}

/-- A batch: the tasks that were queued for it, and the graph that it left. -/
structure Batch where
  tasks : List TaskPath
  graph : WorkGraph

/-- Scheduling the batch reached the node of the key, along dependencies and finalizers. -/
def Batch.Reaches (b : Batch) (key : NodeKey) : Prop := Reached b.graph.Pulls b.tasks key

/-- How the ordinals of a graph tell of its batches: a node with an ordinal was reached by the batch
of that number, and what a batch reached has an ordinal that is no later. -/
structure Recounts (g : WorkGraph) (batches : List Batch) : Prop where
  counted : g.nextOrdinal = batches.length
  nonempty : ∀ batch ∈ batches, batch.tasks ≠ []
  reached : ∀ j o, g.ordinalOf j = some o → ∃ batch, batches[o]? = some batch ∧
    g.HasAt (fun n => batch.Reaches n.key) j
  kept : ∀ (o : Nat) batch, batches[o]? = some batch → ∀ key, batch.Reaches key →
    ∃ j o', g.HasAt (fun n => n.key = key) j ∧ g.ordinalOf j = some o' ∧ o' ≤ o

theorem new_recounts (registry : Registry) : (new registry).Recounts [] where
  counted := rfl
  nonempty := by simp
  reached j o ho := by simp [ordinalOf, new] at ho
  kept o batch hb := by simp at hb

theorem HasAt.forward {P : NodeKey → Prop} {id : Nat} (h : g.HasAt (fun n => P n.key) id)
    (hf : g.Forward g') : g'.HasAt (fun n => P n.key) id := by
  obtain ⟨n, hn, hp⟩ := h
  obtain ⟨n', hn', hnode⟩ := hf.node id n hn
  refine ⟨n', hn', ?_⟩
  dsimp only
  rwa [hnode.key]

section Batches

variable {σ : Type} (cross : Option (CrossBuild σ)) {others others' : σ} {grown : Bool}
  {batches : List Batch}

theorem Recounts.of_sameOrdinals (h : g.Recounts batches) (hg : g.SameOrdinals g') :
    g'.Recounts batches where
  counted := hg.nextOrdinal.trans h.counted
  nonempty := h.nonempty
  reached j o ho := by
    obtain ⟨batch, hb, hr⟩ := h.reached j o ((hg.ordinal j).symm.trans ho)
    exact ⟨batch, hb, hr.forward hg.toForward⟩
  kept o batch hb key hkey := by
    obtain ⟨j, o', hj, ho', hle⟩ := h.kept o batch hb key hkey
    exact ⟨j, o', HasAt.forward (P := (· = key)) hj hg.toForward, (hg.ordinal j).trans ho', hle⟩

/-- A batch gives its number to the nodes that it is the first to reach, and to no others. -/
theorem Recounts.batched (h : g.Recounts batches) (hg : g.Rested) (hb : g.Batched g')
    (hne : g.queuedTasks ≠ []) : g'.Recounts (batches ++ [⟨g.queuedTasks, g'⟩]) := by
  have hlast : (batches ++ [(⟨g.queuedTasks, g'⟩ : Batch)])[batches.length]? =
      some ⟨g.queuedTasks, g'⟩ := List.getElem?_concat_length ..
  have hearlier : ∀ {o : Nat}, o < batches.length →
      (batches ++ [(⟨g.queuedTasks, g'⟩ : Batch)])[o]? = batches[o]? :=
    fun hlt => List.getElem?_append_left hlt
  refine ⟨?_, fun batch hmem => ?_, fun j o ho => ?_, fun o batch hbatch key hkey => ?_⟩
  · rw [hb.counted, h.counted, List.length_append, List.length_singleton]
  · rcases List.mem_append.1 hmem with hmem | hmem
    · exact h.nonempty batch hmem
    · rw [List.mem_singleton.1 hmem]
      exact hne
  · rcases hb.joined j ((hb.rested.run j).2 ⟨o, ho⟩) with hold | ⟨hnew, hr⟩
    · obtain ⟨o', ho'⟩ := (hg.run j).1 hold
      cases (hb.ordinal j o' ho').symm.trans ho
      obtain ⟨batch, hbatch, hr⟩ := h.reached j o ho'
      refine ⟨batch, ?_, hr.forward hb.toForward⟩
      rw [hearlier (List.getElem?_eq_some_iff.1 hbatch).1]
      exact hbatch
    · cases hnew.symm.trans ho
      exact ⟨⟨g.queuedTasks, g'⟩, h.counted ▸ hlast, hr⟩
  · by_cases hold : o < batches.length
    · rw [hearlier hold] at hbatch
      obtain ⟨j, o', hj, ho', hle⟩ := h.kept o batch hbatch key hkey
      exact ⟨j, o', HasAt.forward (P := (· = key)) hj hb.toForward, hb.ordinal j o' ho', hle⟩
    · have hlt := (List.getElem?_eq_some_iff.1 hbatch).1
      rw [List.length_append, List.length_singleton] at hlt
      obtain rfl : o = batches.length := by omega
      cases hlast.symm.trans hbatch
      obtain ⟨j, n, hn, hkey, hs⟩ := hb.includes key hkey
      obtain ⟨o', ho'⟩ := (hb.rested.run j).1 ⟨n, hn, hs⟩
      have hle := hb.rested.bound j o' ho'
      rw [hb.counted, h.counted] at hle
      exact ⟨j, o', ⟨n, hn, hkey⟩, ho', Nat.le_of_lt_succ hle⟩

/-- The tasks of the batch that scheduling makes; with nothing queued there is none. -/
def batch? (g : WorkGraph) : Option (List TaskPath) :=
  if g.queued.isEmpty then none else some g.queuedTasks

theorem Recounts.scheduleQueued (h : g.Recounts batches) (hg : Built g)
    (hok : WorkGraph.scheduleQueued cross (g, others) = .ok (grown, g', others')) :
    g.Onward g' ∧ g'.Recounts (batches ++ (g.batch?.map (⟨·, g'⟩)).toList) := by
  rw [batch?]
  cases hopen : g.queued.isEmpty with
  | false =>
    have hbatched := hg.rested.scheduleQueued cross hg.ready hopen hok
    exact ⟨hbatched.toOnward, h.batched hg.rested hbatched (hg.ready.queuedTasks_ne_nil hopen)⟩
  | true =>
    obtain ⟨-, rfl, -⟩ := eq_of_scheduleQueued_of_isEmpty cross hopen hok
    simpa using ⟨Onward.refl _, h⟩

end Batches

/-- Requests change no ordinal and make no batch. -/
theorem queueAll_sameOrdinals (g : WorkGraph) (paths : List TaskPath) :
    g.SameOrdinals (g.queueAll paths).1 := by
  refine eachUntilError_keeps (Q := g.SameOrdinals) (fun path _ g₁ hg => ?_) (.of_nodes rfl rfl rfl)
  cases hq : g₁.queue path with
  | error e => exact hg
  | ok g₂ => exact hg.trans (queue_sameOrdinals hq)

def Request.batch? (g : WorkGraph) : Request → Option (List TaskPath)
  | .scheduleQueued _ _ => g.batch?
  | .schedule _ paths _ =>
    if (g.queueAll paths).2.isNone then (g.queueAll paths).1.batch? else none
  | _ => none

/-- A graph with the batches that it took in. -/
structure Chronicle where
  journal : Journal
  batches : List Batch

namespace Chronicle

def new (registry : Registry) : Chronicle := ⟨.new registry, []⟩

def graph (c : Chronicle) : WorkGraph := c.journal.graph

def after (c : Chronicle) (r : Request) : Chronicle :=
  ⟨c.journal.after r, c.batches ++ ((r.batch? c.graph).map (⟨·, (c.journal.after r).graph⟩)).toList⟩

def afterAll (c : Chronicle) (requests : List Request) : Chronicle := requests.foldl after c

/-- What every request keeps. -/
structure Kept (c : Chronicle) : Prop where
  journal : c.journal.Kept
  recounts : c.graph.Recounts c.batches

variable {c : Chronicle}

theorem new_kept {registry : Registry} (h : registry.Keyed) : (new registry).Kept :=
  ⟨Journal.new_kept h, new_recounts registry⟩

theorem Kept.after_of (h : c.Kept) {r : Request} (hr : c.graph.Onward (c.after r).graph ∧
    (c.after r).graph.Recounts (c.after r).batches) :
    c.graph.Onward (c.after r).graph ∧ (c.after r).Kept :=
  ⟨hr.1, h.journal.after r, hr.2⟩

/-- A request that leaves the ordinals and makes no batch. -/
theorem Kept.after_of_sameOrdinals (h : c.Kept) {r : Request} (hbatch : r.batch? c.graph = none)
    (hg : c.graph.SameOrdinals (c.after r).graph) :
    c.graph.Onward (c.after r).graph ∧ (c.after r).Kept := by
  have hbatches : (c.after r).batches = c.batches := by
    simp [Chronicle.after, hbatch]
  refine h.after_of ⟨hg.onward, ?_⟩
  rw [hbatches]
  exact h.recounts.of_sameOrdinals hg

theorem sameOrdinals_declare (c : Chronicle) (providers : List (ProviderId × Provider))
    (task : TaskDefinition) : c.graph.SameOrdinals (c.after (.declare providers task)).graph := by
  simp only [Chronicle.after, graph, Journal.after, Journal.declare]
  cases hok : c.journal.graph.declare providers task with
  | error e => exact .of_nodes rfl rfl rfl
  | ok g' =>
    obtain ⟨_, _, rfl⟩ := declare_eq hok
    exact .of_nodes rfl rfl rfl

theorem sameOrdinals_handOut (c : Chronicle) (path : TaskPath) :
    c.graph.SameOrdinals (c.after (.handOut path)).graph := by
  simp only [Chronicle.after, graph, Journal.after, Journal.handOut]
  cases hok : c.journal.graph.handOut path with
  | error e => exact .of_nodes rfl rfl rfl
  | ok g' => obtain ⟨-, rfl⟩ | ⟨-, -, rfl⟩ := handOut_cases hok <;> exact .of_nodes rfl rfl rfl

theorem sameOrdinals_queue (c : Chronicle) (path : TaskPath) :
    c.graph.SameOrdinals (c.after (.queue path)).graph := by
  simp only [Chronicle.after, graph, Journal.after, Journal.queue]
  cases hok : c.journal.graph.queue path with
  | error e => exact .of_nodes rfl rfl rfl
  | ok g' => exact queue_sameOrdinals hok

section Batches

variable {σ : Type} (cross : Option (CrossBuild σ)) (others : σ)

theorem Kept.scheduleQueued (h : c.Kept) :
    c.graph.Onward (c.after (.scheduleQueued cross others)).graph ∧
      (c.after (.scheduleQueued cross others)).Kept := by
  refine h.after_of ?_
  obtain ⟨⟨grown, g', others'⟩, hok⟩ := scheduleQueued_ok cross h.journal.phase others
  have hstep := h.recounts.scheduleQueued cross h.journal.built hok
  simp only [Chronicle.after, graph, Journal.after, Journal.scheduleQueued, hok]
  exact hstep

theorem Kept.schedule (h : c.Kept) (paths : List TaskPath) :
    c.graph.Onward (c.after (.schedule cross paths others)).graph ∧
      (c.after (.schedule cross paths others)).Kept := by
  refine h.after_of ?_
  have hjournal := h.journal.queueAll paths
  have hqueued := c.journal.graph.queueAll_sameOrdinals paths
  obtain ⟨g₁, error, hanswer⟩ : ∃ g₁ error, c.journal.graph.queueAll paths = (g₁, error) :=
    ⟨_, _, rfl⟩
  rw [hanswer] at hjournal hqueued
  have hrecounts := h.recounts.of_sameOrdinals hqueued
  simp only [Chronicle.after, graph, Journal.after, Journal.schedule, WorkGraph.schedule,
    Request.batch?, hanswer]
  cases error with
  | some e => simpa using ⟨hqueued.onward, hrecounts⟩
  | none =>
    obtain ⟨⟨grown, g', others'⟩, hok⟩ := scheduleQueued_ok cross hjournal.phase others
    obtain ⟨honward, hbatch⟩ := hrecounts.scheduleQueued cross hjournal.built hok
    simp only [hok]
    exact ⟨hqueued.onward.trans honward, hbatch⟩

end Batches

/-- No request changes an ordinal. -/
theorem Kept.after (h : c.Kept) (r : Request) :
    c.graph.Onward (c.after r).graph ∧ (c.after r).Kept := by
  cases r with
  | declare providers task =>
    exact h.after_of_sameOrdinals rfl (c.sameOrdinals_declare providers task)
  | handOut path => exact h.after_of_sameOrdinals rfl (c.sameOrdinals_handOut path)
  | queue path => exact h.after_of_sameOrdinals rfl (c.sameOrdinals_queue path)
  | schedule cross paths others => exact h.schedule cross others paths
  | scheduleQueued cross others => exact h.scheduleQueued cross others

theorem Kept.afterAll (h : c.Kept) (requests : List Request) :
    c.graph.Onward (c.afterAll requests).graph ∧ (c.afterAll requests).Kept :=
  List.foldlRecOn (motive := fun c' : Chronicle => c.graph.Onward c'.graph ∧ c'.Kept) _ _
    ⟨.refl _, h⟩ fun _ hc r _ => ⟨hc.1.trans (hc.2.after r).1, (hc.2.after r).2⟩

theorem batches_prefix (c : Chronicle) (requests : List Request) :
    c.batches <+: (c.afterAll requests).batches :=
  List.foldlRecOn (motive := fun c' : Chronicle => c.batches <+: c'.batches) _ _
    (List.prefix_refl _)
    fun _ hc _ _ => hc.trans (List.prefix_append _ _)

/-- The ordinal of each node of the run is the number of the first batch that reached it, and it
stays. What a node depends on has no later one. -/
structure FollowsBatches (c : Chronicle) : Prop where
  counted : c.graph.nextOrdinal = c.batches.length
  nonempty : ∀ batch ∈ c.batches, batch.tasks ≠ []
  first : ∀ id ∈ c.graph.scheduled, ∃ n k batch, c.graph.nodes[id]? = some n ∧ n.ordinal = some k ∧
    c.batches[k]? = some batch ∧ batch.Reaches n.key ∧
      ∀ i earlier, i < k → c.batches[i]? = some earlier → ¬ earlier.Reaches n.key
  ordered : ∀ (i j : Nat) n m, c.graph.nodes[i]? = some n → c.graph.nodes[j]? = some m →
    i ∈ c.graph.scheduled → j ∈ n.successors.dependencies →
      ∃ o o', n.ordinal = some o ∧ m.ordinal = some o' ∧ o' ≤ o
  batches : ∀ later, c.batches <+: (c.afterAll later).batches
  stays : ∀ later, ∀ id ∈ c.graph.scheduled, ∃ n n', c.graph.nodes[id]? = some n ∧
    (c.afterAll later).graph.nodes[id]? = some n' ∧ id ∈ (c.afterAll later).graph.scheduled ∧
      n'.key = n.key ∧ n'.ordinal = n.ordinal

theorem Kept.followsBatches (h : c.Kept) : c.FollowsBatches := by
  have hrested : c.graph.Rested := h.journal.built.rested
  have hrun : ∀ id, id ∈ c.graph.scheduled ↔ c.graph.InRun id := h.journal.built.sound.scheduled
  refine ⟨h.recounts.counted, h.recounts.nonempty, fun id hid => ?_, fun i j n m hn hm hi hj => ?_,
    c.batches_prefix, fun later id hid => ?_⟩
  · obtain ⟨k, ho⟩ := (hrested.run id).1 ((hrun id).1 hid)
    obtain ⟨batch, hb, n, hn, hr⟩ := h.recounts.reached id k ho
    refine ⟨n, k, batch, hn, (ordinalOf_of_getElem? hn).symm.trans ho, hb, hr, ?_⟩
    -- an earlier batch that reached it would have given it an ordinal that it kept
    intro i earlier hi hearlier hreached
    obtain ⟨j, o, ⟨m, hm, hkey⟩, ho', hle⟩ := h.recounts.kept i earlier hearlier n.key hreached
    cases h.journal.built.settled.wired.distinct j id m n hm hn hkey
    cases ho'.symm.trans ho
    exact absurd hle (Nat.not_le.2 hi)
  · obtain ⟨o, o', ho, ho', hle⟩ := hrested.edges i n j hn ((inRun_iff hn).1 ((hrun i).1 hi)) hj
    exact ⟨o, o', (ordinalOf_of_getElem? hn).symm.trans ho,
      (ordinalOf_of_getElem? hm).symm.trans ho', hle⟩
  · obtain ⟨honward, hlater⟩ := h.afterAll later
    obtain ⟨k, ho⟩ := (hrested.run id).1 ((hrun id).1 hid)
    obtain ⟨n, hn, hs⟩ := (hrun id).1 hid
    obtain ⟨n', hn', hf⟩ := honward.node id n hn
    refine ⟨n, n', hn, hn', (hlater.journal.built.sound.scheduled id).2 ⟨n', hn', hf.scheduled hs⟩,
      hf.key, ?_⟩
    rw [← ordinalOf_of_getElem? hn, ← ordinalOf_of_getElem? hn', ho]
    exact honward.ordinal id k ho

/-- Ordinals follow batches. -/
theorem ordinals_follow_batches {registry : Registry} (h : registry.Keyed)
    (requests : List Request) :
    ((new registry).afterAll requests).FollowsBatches :=
  ((new_kept h).afterAll requests).2.followsBatches

/-- A test is scheduled and brings its report with it, which is requested afterwards, for a batch of
its own; then the package is, which needs the compilation too. Nothing is queued for the last
call. -/
def packageHistory : List Request :=
  [.declare [] (smallTask "compile" [] [] []), .declare [] (smallTask "format" [] [] []),
    .declare [] (smallTask "report" ["format"] [] []),
    .declare [] (smallTask "test" ["compile"] ["report"] []),
    .declare [] (smallTask "docs" [] [] []),
    .declare [] (smallTask "package" ["compile", "docs"] [] []),
    .schedule (none : Option (CrossBuild Unit)) [⟨":", "test"⟩] (), .queue ⟨":", "report"⟩,
    .scheduleQueued (none : Option (CrossBuild Unit)) (),
    .schedule (none : Option (CrossBuild Unit)) [⟨":", "package"⟩] (),
    .scheduleQueued (none : Option (CrossBuild Unit)) ()]

/-- The test and what came with it are of the first batch, also the report and what it needs; the
second batch was the first to reach nothing. -/
theorem packageHistory_followsBatches : ∃ c, c = (new (.empty ⟨"main"⟩)).afterAll packageHistory ∧
    c.FollowsBatches ∧ c.batches.map (·.tasks) =
      [[⟨":", "test"⟩], [⟨":", "report"⟩], [⟨":", "package"⟩]] ∧
    c.graph.nodes.toList.map (fun n => (n.key.text, n.ordinal)) =
      [(":test", some 0), (":compile", some 0), (":report", some 0), (":format", some 0),
        (":package", some 2), (":docs", some 2)] :=
  ⟨_, rfl, ordinals_follow_batches (Registry.empty_keyed _) _, by decide +kernel, by decide +kernel⟩

end Chronicle

end WorkGraph

end Foreman
