import Foreman.Proofs.WorkGraph.Batches
import Foreman.Proofs.WorkGraph.Frozen

/-!
# When a work graph can be frozen

Freezing checks the dependencies, the footprints and the mandatory order, and it asks that nothing
is queued and nothing was rejected. The check of the dependencies refuses no graph whose mandatory
order has no loop, and adding hints and conflicts to the order cannot fail; so what is left to check
is what `freeze_ok_iff` says. What the run of such a graph waits for is what was found for its tasks
(`Surveyed.mem_executionEdges_iff`).
-/

namespace Foreman

open Relation

/-- Files to destroy are declared together with others. -/
def Mutations.Mixed (m : Mutations) : Prop :=
  m.destroys ≠ [] ∧ (m.outputs ≠ [] ∨ m.inputs ≠ [] ∨ m.localState ≠ [])

theorem Mutations.footprint_ok_iff {m : Mutations} {node : String} :
    (∃ f, m.footprint node = .ok f) ↔ ¬ m.Mixed := by
  have hmixed : m.Mixed ↔
      m.destroys ≠ [] ∧ ¬(m.outputs = [] ∧ m.inputs = [] ∧ m.localState = []) := by
    rw [Mixed]
    tauto
  rw [hmixed, footprint]
  split
  · rename_i h
    simp [h]
  · rename_i h
    exact ⟨fun _ => h, fun _ => ⟨_, rfl⟩⟩

theorem mapM_ok_iff {α β ε : Type} {f : α → Except ε β} {l : List α} :
    (∃ l', l.mapM f = .ok l') ↔ ∀ a ∈ l, ∃ b, f a = .ok b := by
  induction l with
  | nil => simp [pure, Except.pure]
  | cons a l ih =>
    rw [List.forall_mem_cons, ← ih, List.mapM_cons]
    cases hf : f a with
    | error e => simp [bind, Except.bind]
    | ok b =>
      cases hl : l.mapM f with
      | error e => simp [bind, Except.bind]
      | ok l' => simp [bind, Except.bind, pure, Except.pure]

namespace WorkGraph

variable {g g' : WorkGraph} {H : BuildId → TaskPath → Prop} {log : List Finding} {f : Finding}
  {path : TaskPath} {key : NodeKey}

theorem footprints_ok_iff : (∃ footprints, g.footprints = .ok footprints) ↔
    ∀ (id : Nat) (n : Node) task, id ∈ g.scheduled → g.nodes[id]? = some n → n.work = .task task →
      ¬ task.mutations.Mixed := by
  rw [footprints, mapM_ok_iff]
  constructor
  · intro h id n task hid hn hw
    have hid := h id (Std.TreeSet.mem_toList.2 hid)
    rw [hn, Option.map_some, Option.getD_some, hw] at hid
    exact Mutations.footprint_ok_iff.1 hid
  · intro h id hid
    cases hn : g.nodes[id]? with
    | none => exact ⟨_, rfl⟩
    | some n =>
      rw [Option.map_some, Option.getD_some]
      cases hw : n.work with
      | task task =>
        exact Mutations.footprint_ok_iff.2 (h id n task (Std.TreeSet.mem_toList.1 hid) hn hw)
      | foreign build path => exact ⟨_, rfl⟩

theorem dependencyGraph_edge_iff {a b : Nat} : g.dependencyGraph.Edge a b ↔
    ∃ n, g.nodes[a]? = some n ∧ b ∈ n.successors.dependencies ∧ b ∈ g.scheduled := by
  rw [Digraph.Edge, Digraph.next, dependencyGraph, Digraph.ofFn, Array.getElem?_ofFn]
  by_cases ha : a < g.nodes.size
  · rw [dif_pos ha, Option.getD_some, Array.getElem?_eq_getElem ha, Option.map_some,
      Option.getD_some, mem_inRun]
    simp
  · rw [dif_neg ha, Array.getElem?_eq_none (Nat.le_of_not_lt ha)]
    simp

/-- A loop of dependencies is one of the mandatory order: all its nodes are in the run. -/
theorem acyclic_dependencyGraph (h : Acyclic g.mandatory.Before) :
    Acyclic g.dependencyGraph.Edge := by
  have hchain : ∀ a b, a ∈ g.scheduled → TransGen g.dependencyGraph.Edge a b →
      TransGen g.mandatory.Before a b ∧ b ∈ g.scheduled := by
    have hstep : ∀ a b, a ∈ g.scheduled → g.dependencyGraph.Edge a b →
        g.mandatory.Before a b ∧ b ∈ g.scheduled := by
      intro a b ha hab
      obtain ⟨n, hn, hdep, hb⟩ := dependencyGraph_edge_iff.1 hab
      exact ⟨mandatory_before_iff.2 ⟨ha, hb, n, hn, .inl hdep⟩, hb⟩
    intro a b ha hab
    induction hab with
    | single hab => exact ⟨.single (hstep _ _ ha hab).1, (hstep _ _ ha hab).2⟩
    | tail _ hbc ih => exact ⟨ih.1.tail (hstep _ _ ih.2 hbc).1, (hstep _ _ ih.2 hbc).2⟩
  intro a ha
  obtain ⟨b, _, hba⟩ := TransGen.tail'_iff.1 ha
  obtain ⟨_, _, _, hs⟩ := dependencyGraph_edge_iff.1 hba
  exact h a (hchain a a hs ha).1

/-- A graph can be frozen just if it is populated, nothing is queued, no reference was rejected, no
task of the run declares files to destroy together with others, and the mandatory order has no
loop. -/
theorem freeze_ok_iff : (∃ g', g.freeze = .ok g') ↔
    g.phase = .populating ∧ g.queued.isEmpty = true ∧ g.rejected = [] ∧
      (∀ (id : Nat) (n : Node) task, id ∈ g.scheduled → g.nodes[id]? = some n →
        n.work = .task task → ¬ task.mutations.Mixed) ∧ Acyclic g.mandatory.Before := by
  constructor
  · rintro ⟨g', hf⟩
    obtain ⟨footprints, p, hto⟩ := freeze_spec hf
    have hrest : g.queued.isEmpty = true ∧ g.rejected = [] := by
      simp only [freeze, require, if_pos hto.phase, bind, Except.bind] at hf
      split at hf
      · split at hf
        · cases hf
        · exact ⟨by assumption, by assumption⟩
      · cases hf
    exact ⟨hto.phase, hrest.1, hrest.2, footprints_ok_iff.1 ⟨footprints, hto.footprints_eq⟩,
      hto.mandatory⟩
  · rintro ⟨hphase, hqueued, hrejected, hfoot, hacyc⟩
    obtain ⟨footprints, hfoot⟩ := footprints_ok_iff.2 hfoot
    have hdep := Digraph.checkCycles_of_acyclic (acyclic_dependencyGraph hacyc) g.scheduled.toList
      g.nameOf
    have hmand : g.mandatory.digraph.checkCycles g.scheduled.toList g.nameOf = .ok () :=
      Digraph.checkCycles_of_acyclic (hacyc.mono fun a b => Precedence.edge_iff.1) _ _
    simp [freeze, require, hphase, hqueued, hrejected, hfoot, hdep, hmand, bind, Except.bind, pure,
      Except.pure]

/-! ## What the run waits for -/

/-- Nothing of another build finalizes a task. -/
theorem Surveyed.not_foreign_of_finalizer (h : g.Surveyed log) (hs : g.Sound H) (hf : f ∈ log)
    (hb : f.build = g.build) (hr : f.relationship = .finalizedBy) {d : BuildId}
    (hw : .foreign d path ∈ f.targets) : False := by
  have hrefers : g.Refers (.task f.task.path) .finalizedBy (.foreign d path) :=
    (h.traced.refers _ _ _).2 ⟨f, hf, hb, rfl, hr.symm, _, hw, rfl⟩
  obtain ⟨i, j, n, m, hn, _, hm, hkey, hj⟩ := hrefers
  have hwork : m.work = .foreign d path := by
    rw [Node.key] at hkey
    cases hw : m.work <;> rw [hw, Work.key] at hkey <;> cases hkey
    rfl
  exact (hs.foreign j m d path hm hwork).1.finalizes i
    ((h.tidy.wired.finalizes i j m hm).2 ⟨n, hn, hj⟩)

/-- The run waits for just what was found for its tasks: for what they depend on, for what they must
run after, where it is part of the run or of another build, and for what they finalize. -/
theorem Surveyed.mem_executionEdges_iff (h : g.Surveyed log) (hs : g.Sound H) (hb : g.Brought []) :
    (∃ targets, (.task path, targets) ∈ g.executionEdges ∧ key ∈ targets) ↔
      (∃ f ∈ log, f.build = g.build ∧ f.relationship = .dependency ∧ f.task.path = path ∧
        ∃ work ∈ f.targets, work.key = key) ∨
      (∃ f ∈ log, f.build = g.build ∧ f.relationship = .mustRunAfter ∧ f.task.path = path ∧
        ∃ work ∈ f.targets, work.key = key ∧ (work.isForeign = true ∨ g.Includes key)) ∨
      ∃ f ∈ log, f.build = g.build ∧ f.relationship = .finalizedBy ∧ .task f.task.path = key ∧
        ∃ work ∈ f.targets, work.key = .task path := by
  have hforeign : ∀ work : Work, work.isForeign = true ↔ ∃ d path, work.key = .foreign d path := by
    intro work
    cases work <;> simp [Work.isForeign, Work.key]
  have hrefers : ∀ (x : TaskPath) (r : Relationship) (y : NodeKey), g.Refers (.task x) r y ↔
      ∃ f ∈ log, f.build = g.build ∧ f.relationship = r ∧ f.task.path = x ∧
        ∃ work ∈ f.targets, work.key = y := by
    intro x r y
    rw [h.traced.refers]
    refine exists_congr fun f => and_congr_right fun _ => and_congr_right fun _ => ?_
    rw [Finding.Names, NodeKey.task.injEq, eq_comm (a := x), eq_comm (a := r)]
    exact and_left_comm
  rw [WorkGraph.mem_executionEdges_iff h.tidy.wired hs]
  constructor
  · rintro ⟨_, hdep | ⟨hmust, hin⟩ | ⟨hfin, hin⟩⟩
    · exact .inl ((hrefers _ _ _).1 hdep)
    · obtain ⟨f, hf, hbuild, hr, hpath, work, hw, rfl⟩ := (hrefers _ _ _).1 hmust
      exact .inr (.inl ⟨f, hf, hbuild, hr, hpath, work, hw, rfl, hin.symm.imp (hforeign work).2 id⟩)
    · obtain ⟨f, hf, hbuild, rfl, hr, work, hw, hkey⟩ := (h.traced.refers _ _ _).1 hfin
      exact .inr (.inr ⟨f, hf, hbuild, hr.symm, rfl, work, hw, hkey⟩)
  · rintro (⟨f, hf, hbuild, hr, rfl, hw⟩ | ⟨f, hf, hbuild, hr, rfl, work, hw, rfl, hin⟩ |
      ⟨f, hf, hbuild, hr, rfl, hw⟩)
    · exact ⟨h.traced.found f hf hbuild, .inl ((hrefers _ _ _).2 ⟨f, hf, hbuild, hr, rfl, hw⟩)⟩
    · exact ⟨h.traced.found f hf hbuild, .inr (.inl ⟨(hrefers _ _ _).2
        ⟨f, hf, hbuild, hr, rfl, work, hw, rfl⟩, hin.symm.imp id (hforeign work).1⟩)⟩
    · have hfin := (hrefers f.task.path .finalizedBy (.task path)).2 ⟨f, hf, hbuild, hr, rfl, hw⟩
      have hin := h.traced.found f hf hbuild
      exact ⟨hb.includes_finalizer h.tidy.wired hin hfin, .inr (.inr ⟨hfin, hin⟩)⟩

end WorkGraph

end Foreman
