import Foreman.Proofs.Run.Choosing
import Foreman.Proofs.WorkGraph.Ordering

/-!
# What a plan waits for in other builds

A task of another build has a node of the plan only if some task depends on it. Such a node waits
for nothing, so that nothing speaks against an order that puts it first, and it touches nothing, so
that it is in no conflict. A node of the plan then waits for it just if it depends on it, must run
after it, or has a hint to run after it and is of the same batch (`freeze_awaits`). So a hint
reaches into another build exactly if the same batch brings the task in for a dependency:
`acrossGraph` has such a hint.
-/

namespace Foreman

open Relation

theorem Footprint.conflicts_none (f : Footprint) : f.conflicts .none = false := by
  simp [Footprint.conflicts, Footprint.none, Places.overlaps]

namespace WorkGraph

variable {g g' : WorkGraph} {footprints : List Footprint} {p : Precedence} {plan : Plan}
  {a b c i j : Nat} {n v : Node} {m u : PlannedNode} {H : BuildId → TaskPath → Prop}

/-! ## The nodes for tasks of other builds -/

theorem Sound.inert (h : g.Sound H) (hn : g.nodes[a]? = some n) (hf : n.work.isForeign = true) :
    n.Inert := by
  cases hw : n.work with
  | task definition =>
    rw [hw] at hf
    cases hf
  | foreign build path => exact (h.foreign a n build path hn hw).1

theorem PlannedAs.work_eq (h : g.PlannedAs p plan i a n m) : m.work = n.work := by
  obtain ⟨footprint, dependents, rfl⟩ := h.eq
  rfl

theorem PlannedAs.footprint_of_foreign (h : g.PlannedAs p plan i a n m)
    (hf : n.work.isForeign = true) : m.footprint = .none := by
  have hfoot := h.footprint
  cases hw : n.work with
  | task definition =>
    rw [hw] at hf
    cases hf
  | foreign build path =>
    rw [hw] at hfoot
    exact (Except.ok.inj hfoot).symm

/-- The plan's handles of other builds are those of the must-run-after references. -/
theorem PlannedAs.mem_afterExports {build : BuildId} {path : TaskPath}
    (h : g.PlannedAs p plan i a n m) : (build, path) ∈ m.afterExports ↔
      ∃ s ∈ n.successors.mustRunAfter, ∃ w, g.nodes[s]? = some w ∧ w.key = .foreign build path := by
  obtain ⟨footprint, dependents, rfl⟩ := h.eq
  simp only [planNode, List.mem_filterMap]
  constructor
  · rintro ⟨key, hkey, hd⟩
    obtain ⟨s, hs, w, hw, rfl⟩ := mem_keysOf.1 hkey
    refine ⟨s, Std.TreeSet.mem_toList.1 hs, w, hw, ?_⟩
    split at hd
    · simp_all
    · cases hd
  · rintro ⟨s, hs, w, hw, hkey⟩
    refine ⟨.foreign build path, ?_, rfl⟩
    exact mem_keysOf.2 ⟨s, Std.TreeSet.mem_toList.2 hs, w, hw, hkey⟩

/-- A task of another build has joined the run because some task depends on it: it is not requested
and finalizes nothing. -/
theorem Built.exists_dependent (h : Built g) (hn : g.nodes[a]? = some n)
    (hs : n.state.isScheduled = true) (hf : n.work.isForeign = true) :
    ∃ x, g.Refers x .dependency n.key := by
  obtain ⟨roots, hroots⟩ := h.rooted
  obtain ⟨path, _, hpath⟩ := hroots.confined.scheduled a n hn hs
  rcases hpath.cases_tail with hroot | ⟨x, _, hdep | hfin⟩
  · cases hw : n.work with
    | task definition =>
      rw [hw] at hf
      cases hf
    | foreign build path =>
      rw [Node.key, hw] at hroot
      cases hroot
  · exact ⟨x, hdep⟩
  · have hwired := h.settled.wired
    obtain ⟨k, a', w, n', hw, rfl, hn', hkey, hmem⟩ := hfin
    cases hwired.distinct a' a n' n hn' hn hkey
    have hback : k ∈ n.finalizes := (hwired.finalizes k a n hn).2 ⟨w, hw, hmem⟩
    exact absurd hback ((h.sound.inert hn hf).finalizes k)

/-! ## The frozen order -/

/-- The frozen order holds the mandatory order, and besides it only conflicts and hints within a
batch. -/
theorem frozenOrder_cases (h : (g.frozenOrder footprints).Before a b) :
    g.mandatory.Before a b ∨
      (((g.scheduled.toList.zip footprints).lookup a).getD .none).conflicts
        (((g.scheduled.toList.zip footprints).lookup b).getD .none) = true ∨
      (a, b) ∈ g.hints ∧ g.ordinalOf a = g.ordinalOf b := by
  rw [frozenOrder, acceptHints_eq, orderConflicts_eq] at h
  rcases Precedence.before_foldl g.tryHint_tries h with h | ⟨hint, q, htried⟩
  · rcases Precedence.before_foldl (g.tryConflict_tries _) h with h | ⟨_, q, htried⟩
    · exact .inl h
    · refine .inr (.inl ?_)
      by_contra hfree
      refine htried ?_
      rw [tryConflict]
      split
      · rw [Bool.not_eq_true] at hfree
        simp [hfree]
      · rfl
  · refine .inr (.inr ⟨hint, ?_⟩)
    by_contra hother
    exact htried (if_neg hother)

/-- A task of another build comes after nothing. -/
theorem not_before_of_foreign (hs : g.Sound H) (hf : g.footprints = .ok footprints)
    (hu : g.PlannedAs p plan j b v u) (hv : v.work.isForeign = true) :
    ¬ (g.frozenOrder footprints).Before b c := by
  intro h
  have hinert := hs.inert hu.node hv
  rcases frozenOrder_cases h with hmandatory | hconflict | ⟨hint, _⟩
  · obtain ⟨_, _, v', hv', hmem⟩ := mandatory_before_iff.1 hmandatory
    cases hu.node.symm.trans hv'
    rcases hmem with hdep | hmust | hfin
    · exact hinert.successors .dependency c hdep
    · exact hinert.successors .mustRunAfter c hmust
    · exact hinert.finalizes c hfin
  · rw [hu.lookup_footprint hf, hu.footprint_of_foreign hv, Footprint.none_conflicts] at hconflict
    cases hconflict
  · obtain ⟨_, _, v', hv', hmem⟩ := mem_hints.1 hint
    cases hu.node.symm.trans hv'
    exact hinert.successors .shouldRunAfter c hmem

/-- What comes after a task of another build: what depends on it or must run after it, and in its
own batch what has a hint to. -/
theorem before_foreign_iff (hb : Built g) (hf : g.FrozenTo footprints (g.frozenOrder footprints) g')
    (hm : g.PlannedAs p plan i a n m) (hu : g.PlannedAs p plan j b v u)
    (hv : v.work.isForeign = true) : (g.frozenOrder footprints).Before a b ↔
      b ∈ n.successors.dependencies ∨ b ∈ n.successors.mustRunAfter ∨
        b ∈ n.successors.shouldRunAfter ∧ m.ordinal = u.ordinal := by
  have hs := hb.sound
  have hinert := hs.inert hu.node hv
  have ha : a ∈ g.scheduled := Std.TreeSet.mem_toList.1 (List.mem_of_getElem? hm.position)
  have hb' : b ∈ g.scheduled := Std.TreeSet.mem_toList.1 (List.mem_of_getElem? hu.position)
  constructor
  · intro h
    rcases frozenOrder_cases h with hmandatory | hconflict | ⟨hint, ho⟩
    · obtain ⟨_, _, n', hn', hmem⟩ := mandatory_before_iff.1 hmandatory
      cases hm.node.symm.trans hn'
      rcases hmem with hdep | hmust | hfin
      · exact .inl hdep
      · exact .inr (.inl hmust)
      · obtain ⟨v', hv', hback⟩ := (hb.settled.wired.finalizes b a n hm.node).1 hfin
        cases hu.node.symm.trans hv'
        exact absurd hback (hinert.successors .finalizedBy a)
    · rw [hu.lookup_footprint hf.footprints_eq, hu.footprint_of_foreign hv,
        Footprint.conflicts_none] at hconflict
      cases hconflict
    · obtain ⟨_, _, n', hn', hmem⟩ := mem_hints.1 hint
      cases hm.node.symm.trans hn'
      rw [hm.ordinalOf_eq hs hb.dated, hu.ordinalOf_eq hs hb.dated, Option.some.injEq] at ho
      exact .inr (.inr ⟨hmem, ho⟩)
  · have hmandatory : b ∈ n.successors.dependencies ∨ b ∈ n.successors.mustRunAfter →
        (g.frozenOrder footprints).Before a b := fun h =>
      hf.extended.before a b (mandatory_before_iff.2 ⟨ha, hb', n, hm.node, h.imp id .inl⟩)
    rintro (hdep | hmust | ⟨hint, ho⟩)
    · exact hmandatory (.inl hdep)
    · exact hmandatory (.inr hmust)
    · -- A path back would have to lead on from the other build's task.
      refine (frozenOrder_hint footprints hs hb.dated hm hu hint ho).resolve_right fun hback => ?_
      rcases hback.cases_head with rfl | ⟨c, hbc, _⟩
      · cases hu.node.symm.trans hm.node
        exact hinert.successors .shouldRunAfter b hint
      · exact not_before_of_foreign hs hf.footprints_eq hu hv hbc

end WorkGraph

/-! ## The waits of a plan -/

namespace Plan

/-- What a plan waits for in other builds, against the graph that it was frozen from. -/
structure Awaits (p : Plan) (g : WorkGraph) : Prop where
  /-- A task of another build is in the plan because some task depends on it. -/
  needed : ∀ (j : Nat) u, p.nodes[j]? = some u → u.work.isForeign = true →
    ∃ x, g.Refers x .dependency u.key
  /-- The waits for its node. -/
  node : ∀ (i j : Nat) m u, p.nodes[i]? = some m → p.nodes[j]? = some u → u.work.isForeign = true →
    (p.Waits i j ↔ g.Refers m.key .dependency u.key ∨ g.Refers m.key .mustRunAfter u.key ∨
      g.Refers m.key .shouldRunAfter u.key ∧ m.ordinal = u.ordinal)
  /-- The waits for the outcome of its handle. -/
  handle : ∀ (i : Nat) m build path, p.nodes[i]? = some m →
    ((build, path) ∈ m.afterExports ↔ g.Refers m.key .mustRunAfter (.foreign build path))

/-- Every wait for a task of another build comes from a dependency or a must-run-after reference. -/
structure KeepsHintsLocal (p : Plan) (g : WorkGraph) : Prop where
  node : ∀ (i j : Nat) m u, p.nodes[i]? = some m → p.nodes[j]? = some u → u.work.isForeign = true →
    p.Waits i j → g.Refers m.key .dependency u.key ∨ g.Refers m.key .mustRunAfter u.key
  handle : ∀ (i : Nat) m build path, p.nodes[i]? = some m → (build, path) ∈ m.afterExports →
    g.Refers m.key .dependency (.foreign build path) ∨
      g.Refers m.key .mustRunAfter (.foreign build path)

/-- Some node has a hint, and no more than that, to a task of another build in its own batch. -/
def HintsAcross (p : Plan) (g : WorkGraph) : Prop :=
  ∃ (i j : Nat) (m u : PlannedNode), p.nodes[i]? = some m ∧ p.nodes[j]? = some u ∧
    u.work.isForeign = true ∧ m.ordinal = u.ordinal ∧ g.Refers m.key .shouldRunAfter u.key ∧
    ¬ g.Refers m.key .dependency u.key ∧ ¬ g.Refers m.key .mustRunAfter u.key

theorem Awaits.keepsHintsLocal_iff {p : Plan} {g : WorkGraph} (h : p.Awaits g) :
    p.KeepsHintsLocal g ↔ ¬ p.HintsAcross g := by
  constructor
  · rintro hlocal ⟨i, j, m, u, hm, hu, hforeign, ho, hint, hdep, hmust⟩
    have hwait := (h.node i j m u hm hu hforeign).2 (.inr (.inr ⟨hint, ho⟩))
    exact (hlocal.node i j m u hm hu hforeign hwait).elim hdep hmust
  · intro hno
    refine ⟨fun i j m u hm hu hforeign hwait => ?_, fun i m build path hm hafter => ?_⟩
    · rcases (h.node i j m u hm hu hforeign).1 hwait with hdep | hmust | ⟨hint, ho⟩
      · exact .inl hdep
      · exact .inr hmust
      · by_contra hnone
        rw [not_or] at hnone
        exact hno ⟨i, j, m, u, hm, hu, hforeign, ho, hint, hnone.1, hnone.2⟩
    · exact .inr ((h.handle i m build path hm).1 hafter)

end Plan

namespace WorkGraph

variable {g g' : WorkGraph}

/-- The plan of a frozen graph waits for a task of another build where a node depends on it or must
run after it, and where it has a hint to and both are of one batch. So no hint reaches into another
build just if none is at a task that its own batch brings in. -/
theorem freeze_awaits (hb : Built g) (hf : g.freeze = .ok g') :
    ∃ plan, g'.plan = some plan ∧ plan.Awaits g ∧
      (plan.KeepsHintsLocal g ↔ ¬ plan.HintsAcross g) := by
  obtain ⟨footprints, hto⟩ := frozenTo_of_freeze hf
  have hs := hb.sound
  have hd := hb.settled.wired.distinct
  obtain ⟨hall, -⟩ := planOf_nodes hs hto.footprints_eq (g.frozenOrder footprints)
  have hawaits : (g.planOf footprints (g.frozenOrder footprints)).Awaits g := by
    refine ⟨fun j u hu hforeign => ?_, fun i j m u hm hu hforeign => ?_,
      fun i m build path hm => ?_⟩
    · obtain ⟨b, v, hu⟩ := hall j u hu
      obtain ⟨v', hv', hsched⟩ := (hs.scheduled b).1
        (Std.TreeSet.mem_toList.1 (List.mem_of_getElem? hu.position))
      cases hu.node.symm.trans hv'
      rw [hu.work_eq] at hforeign
      rw [hu.key_eq]
      exact hb.exists_dependent hu.node hsched hforeign
    · obtain ⟨a, n, hm⟩ := hall i m hm
      obtain ⟨b, v, hu⟩ := hall j u hu
      rw [hu.work_eq] at hforeign
      have hrefers : ∀ r, b ∈ n.successors.get r ↔ g.Refers m.key r u.key := by
        intro r
        rw [hm.key_eq, hu.key_eq]
        exact ⟨fun hmem => ⟨a, b, n, v, hm.node, rfl, hu.node, rfl, hmem⟩,
          hd.mem_of_refers hm.node hu.node⟩
      rw [waits_iff_before hs hto hm.position hu.position,
        before_foreign_iff hb hto hm hu hforeign, ← hrefers, ← hrefers, ← hrefers]
      rfl
    · obtain ⟨a, n, hm⟩ := hall i m hm
      rw [hm.mem_afterExports, hm.key_eq]
      constructor
      · rintro ⟨s, hmem, w, hw, hkey⟩
        exact ⟨a, s, n, w, hm.node, rfl, hw, hkey, hmem⟩
      · rintro ⟨a', s, n', w, hn', hkey', hw, hkey, hmem⟩
        cases hd a' a n' n hn' hm.node hkey'
        cases hn'.symm.trans hm.node
        exact ⟨s, hmem, w, hw, hkey⟩
  exact ⟨_, by rw [hto.eq]; rfl, hawaits, hawaits.keepsHintsLocal_iff⟩

def openBuilds : CrossBuild Unit :=
  ⟨fun _ _ others => (.ok (), others), fun _ _ others => (.ok (), others)⟩

/-- The graph of a build among others after some of its tasks were requested together. -/
def requestedAmong (tasks : List TaskDefinition) (names : List String) : WorkGraph :=
  (schedule (some openBuilds) (names.map (⟨":", ·⟩))
    (new ((Registry.empty ⟨"app"⟩).registerFree tasks), ())).2.1

theorem requestedAmong_built (tasks : List TaskDefinition) (names : List String) :
    Built (requestedAmong tasks names) :=
  (Built.new _).schedule _ _ _

def libraryTask : TaskReference := .inBuild ⟨"lib"⟩ ⟨":", "b"⟩

/-- `y` depends on a task of the library, which `x` must run after; and `z` has a hint to run after
another, which nothing needs. -/
def librarianGraph : WorkGraph :=
  requestedAmong [
    { smallTask "x" [] [] [] with mustRunAfter := [libraryTask] },
    { smallTask "y" [] [] [] with dependsOn := [libraryTask] },
    { smallTask "z" [] [] [] with shouldRunAfter := [.inBuild ⟨"lib"⟩ ⟨":", "c"⟩] }] ["x", "y", "z"]

/-- Both `x` and `y` wait for the node of the library's task, and `x` for its handle too. -/
theorem librarianGraph_awaits : ∃ plan, librarianGraph.frozen.plan = some plan ∧
    plan.Awaits librarianGraph ∧ plan.Waits 0 3 ∧ plan.Waits 1 3 ∧
    ∃ m, plan.nodes[0]? = some m ∧ m.afterExports = [(⟨"lib"⟩, ⟨":", "b"⟩)] := by
  obtain ⟨plan, hplan, hawaits, _⟩ := freeze_awaits (requestedAmong_built _ _)
    (freeze_eq_frozen (g := librarianGraph) (by decide +kernel))
  cases (plan_frozen (g := librarianGraph) (by decide +kernel)).symm.trans hplan
  have hnodes : (librarianGraph.firstStage.run.plan.nodes[0]?).any (fun x =>
      (librarianGraph.firstStage.run.plan.nodes[1]?).any fun y =>
        (librarianGraph.firstStage.run.plan.nodes[3]?).any fun u =>
          u.work.isForeign && librarianGraph.Refers x.key .mustRunAfter u.key &&
            librarianGraph.Refers y.key .dependency u.key &&
            x.afterExports = [(⟨"lib"⟩, ⟨":", "b"⟩)]) = true := by
    decide +kernel
  simp only [Option.any_eq_true, Bool.and_eq_true, decide_eq_true_eq] at hnodes
  obtain ⟨x, hx, y, hy, u, hu, ⟨⟨hforeign, hmust⟩, hdep⟩, hafter⟩ := hnodes
  exact ⟨_, hplan, hawaits, (hawaits.node 0 3 x u hx hu hforeign).2 (.inr (.inl hmust)),
    (hawaits.node 1 3 y u hy hu hforeign).2 (.inl hdep), x, hx, hafter⟩

/-- `x` has a hint to run after a task of the library, on which `y` depends. -/
def acrossGraph : WorkGraph :=
  requestedAmong [
    { smallTask "x" [] [] [] with shouldRunAfter := [libraryTask] },
    { smallTask "y" [] [] [] with dependsOn := [libraryTask] }] ["x", "y"]

/-- The graph is accepted, and `x` waits for the library's task for nothing but its hint. -/
theorem acrossGraph_waits_for_hint : Built acrossGraph ∧
    acrossGraph.freeze = .ok acrossGraph.frozen ∧
    acrossGraph.frozen.plan = some acrossGraph.firstStage.run.plan ∧
    ¬ acrossGraph.firstStage.run.plan.KeepsHintsLocal acrossGraph := by
  refine ⟨requestedAmong_built _ _, freeze_eq_frozen (by decide +kernel),
    plan_frozen (by decide +kernel), fun hlocal => ?_⟩
  have hnodes : (acrossGraph.firstStage.run.plan.nodes[0]?).any (fun x =>
      (acrossGraph.firstStage.run.plan.nodes[2]?).any fun u =>
        u.work.isForeign && 2 ∈ x.runAfter && !acrossGraph.Refers x.key .dependency u.key &&
          !acrossGraph.Refers x.key .mustRunAfter u.key) = true := by
    decide +kernel
  simp only [Option.any_eq_true, Bool.and_eq_true, Bool.not_eq_true', decide_eq_true_eq,
    decide_eq_false_iff_not] at hnodes
  obtain ⟨x, hx, u, hu, ⟨⟨hforeign, hafter⟩, hdep⟩, hmust⟩ := hnodes
  exact (hlocal.node 0 2 x u hx hu hforeign ⟨x, hx, .inr (.inr hafter)⟩).elim hdep hmust

end WorkGraph

end Foreman
