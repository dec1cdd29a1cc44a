import Foreman.Proofs.BuildTree.Assembling
import Foreman.Proofs.WorkGraph.Hinting

/-!
# What the tasks of a tree wait for

The plans of a frozen tree together let a task wait for tasks of several builds (`BuildTree.Waits`).
The check for cycles through several builds looks at what the tasks declare. The order that freezing
adds to it, for conflicting footprints and accepted hints, was only checked within one build, so a
loop of waits can be closed by it and by nothing else (`acyclic_waits_iff`).
-/

namespace Foreman

open Relation

namespace WorkGraph

variable {g g' : WorkGraph} {footprints : List Footprint} {p : Precedence} {a b : Nat} {n m : Node}

theorem FrozenTo.scheduled_eq (h : g.FrozenTo footprints p g') : g'.scheduled = g.scheduled := by
  rw [h.eq]
  rfl

theorem FrozenTo.mandatory_eq (h : g.FrozenTo footprints p g') : g'.mandatory = g.mandatory := by
  rw [h.eq]
  rfl

theorem FrozenTo.executionEdges_eq (h : g.FrozenTo footprints p g') :
    g'.executionEdges = g.executionEdges := by
  rw [h.eq]
  rfl

/-- Where a node of the run waits for another, the edges tell. -/
theorem mem_executionEdges (ha : a ∈ g.scheduled) (hn : g.nodes[a]? = some n)
    (hm : g.nodes[b]? = some m) (hb : b ∈ g.waitsOf n) :
    ∃ targets, (n.key, targets) ∈ g.executionEdges ∧ m.key ∈ targets := by
  refine ⟨g.keysOf (g.waitsOf n).toList, ?_, ?_⟩
  · rw [executionEdges, List.mem_filterMap]
    exact ⟨a, Std.TreeSet.mem_toList.2 ha, by rw [hn]; rfl⟩
  · exact mem_keysOf.2 ⟨b, Std.TreeSet.mem_toList.2 hb, m, hm, rfl⟩

end WorkGraph

namespace BuildTree

variable {t t' : BuildTree} {b : BuildId} {c : Controller} {x y : TreeTask}

/-! ## The check -/

/-- The check sees that the one task waits for the other. -/
def Seen (waits : List (TreeTask × List TreeTask)) (x y : TreeTask) : Prop :=
  ∃ targets, (x, targets) ∈ waits ∧ y ∈ targets

theorem edge_waitGraph {waits : List (TreeTask × List TreeTask)} (h : Seen waits x y) :
    (waitGraph waits).Edge ((mentioned waits).idxOf x) ((mentioned waits).idxOf y) := by
  obtain ⟨targets, hx, hy⟩ := h
  have hmem : x ∈ mentioned waits := by
    rw [mentioned, List.mem_eraseDups, List.mem_flatMap]
    exact ⟨(x, targets), hx, List.mem_cons_self ..⟩
  have hlt := List.idxOf_lt_length_of_mem hmem
  have hget : (mentioned waits)[(mentioned waits).idxOf x]? = some x := by
    rw [List.getElem?_eq_getElem hlt, List.getElem_idxOf]
  simp only [Digraph.Edge, Digraph.next, waitGraph, Digraph.ofFn, Array.getElem?_ofFn, dif_pos hlt,
    Option.getD_some, List.mem_flatMap, List.mem_filter, hget]
  exact ⟨(x, targets), ⟨hx, by simp⟩, List.mem_map_of_mem hy⟩

/-- What passes the check has no loop. -/
theorem acyclic_seen (h : t.checkCrossBuildCycles = .ok ()) : Acyclic (Seen t.waits) := by
  have hacyc := Digraph.acyclic_of_checkCycles h fun i j hij => by
    have hlt := hij.lt_size
    simp only [Digraph.size, waitGraph, Digraph.ofFn, Array.size_ofFn] at hlt
    exact List.mem_range.2 hlt
  exact hacyc.of_map (mentioned t.waits).idxOf fun x y hxy => edge_waitGraph hxy

/-! ## Frozen trees -/

/-- Where the builds of a tree are replaced one by one and none is refused, each has been
replaced. -/
theorem eachUntilError_spec {f : Controller → Except GraphError Controller} {l : List BuildId}
    (hl : l.Nodup)
    (h : eachUntilError (fun build (t : BuildTree) =>
      match (t.controller? build).map f with
      | some (.ok c) => (t.setController build c, none)
      | some (.error e) => (t, some e)
      | none => (t, none)) l t = (t', none)) :
    t'.services = t.services ∧
      (∀ b ∈ l, Option.Rel (fun c c' => f c = .ok c') t.builds[b]? t'.builds[b]?) ∧
      ∀ b ∉ l, t'.builds[b]? = t.builds[b]? := by
  induction l generalizing t with
  | nil =>
    cases h
    exact ⟨rfl, by simp, fun b _ => rfl⟩
  | cons d l ih =>
    obtain ⟨hd, hl⟩ := List.nodup_cons.1 hl
    rw [eachUntilError] at h
    cases hc : t.controller? d with
    | none =>
      rw [hc] at h
      obtain ⟨hs, hin, hout⟩ := ih hl h
      refine ⟨hs, fun b hb => ?_, fun b hb => hout b fun hm => hb (List.mem_cons_of_mem _ hm)⟩
      rcases List.mem_cons.1 hb with rfl | hb
      · rw [hout b hd, show t.builds[b]? = none from hc]
        exact .none
      · exact hin b hb
    | some c =>
      rw [hc] at h
      simp only [Option.map_some] at h
      cases hf : f c with
      | error e => simp [hf] at h
      | ok c' =>
        rw [hf] at h
        obtain ⟨hs, hin, hout⟩ := ih hl h
        refine ⟨hs, fun b hb => ?_, fun b hb => ?_⟩
        · by_cases hbd : b = d
          · subst hbd
            rw [hout b hd, show t.builds[b]? = some c from hc]
            simp only [setController, Std.TreeMap.getElem?_insert_self]
            exact .some hf
          · have := hin b ((List.mem_cons.1 hb).resolve_left hbd)
            rwa [setController, getElem?_insert_ne hbd] at this
        · rw [List.mem_cons, not_or] at hb
          rw [hout b hb.2, setController, getElem?_insert_ne hb.1]

theorem eachController_spec {f : Controller → Except GraphError Controller}
    (h : t.eachController f = (t', none)) : t'.services = t.services ∧
      ∀ b : BuildId, Option.Rel (fun c c' => f c = .ok c') t.builds[b]? t'.builds[b]? := by
  obtain ⟨hs, hin, hout⟩ := eachUntilError_spec Std.TreeMap.nodup_keys h
  refine ⟨hs, fun b => ?_⟩
  by_cases hb : b ∈ t.builds.keys
  · exact hin b hb
  · have hnone : t.builds[b]? = none := by
      rw [Std.TreeMap.mem_keys, Std.TreeMap.mem_iff_isSome_getElem?] at hb
      simpa using hb
    rw [hout b hb, hnone]
    exact .none

theorem finalize_spec {c c' : Controller} (h : c.finalize = .ok c') :
    c.graph.freeze = .ok c'.graph ∧ c'.state = .readyToRun ∧ c'.completion = c.completion := by
  rw [Controller.finalize] at h
  cases hr : c.require .discoveringTasks .finalizeWorkGraph with
  | error e => simp [hr, bind, Except.bind] at h
  | ok =>
    simp only [hr, bind, Except.bind, pure, Except.pure] at h
    split at h
    · cases hg : c.graph.freeze with
      | error e => simp [hg] at h
      | ok g =>
        simp only [hg, Except.ok.injEq] at h
        subst h
        exact ⟨rfl, rfl, rfl⟩
    · cases h

/-- Where every build is replaced none comes in. -/
theorem exists_of_eachController {f : Controller → Except GraphError Controller} {c' : Controller}
    (h : t.eachController f = (t', none)) (hc : t'.builds[b]? = some c') :
    ∃ c, t.builds[b]? = some c ∧ f c = .ok c' := by
  have hrel := (eachController_spec h).2 b
  rw [hc] at hrel
  exact exists_of_rel_some (R := fun c c' => f c = .ok c') hrel

/-- Where every build is replaced none is lost. -/
theorem exists_eachController {f : Controller → Except GraphError Controller}
    (h : t.eachController f = (t', none)) (hc : t.builds[b]? = some c) :
    ∃ c', t'.builds[b]? = some c' ∧ f c = .ok c' := by
  have hrel := (eachController_spec h).2 b
  rw [hc] at hrel
  exact exists_of_some_rel (R := fun c c' => f c = .ok c') hrel

/-- Each build of a frozen tree was frozen from a sound graph. -/
theorem exists_frozenTo (h : t.Assembled) (hf : t.eachController (·.finalize) = (t', none))
    (hc : t'.builds[b]? = some c) : ∃ (g : WorkGraph) (footprints : List Footprint)
      (p : Precedence), g.Sound (HandedOut t.builds) ∧ g.build = b ∧
        g.FrozenTo footprints p c.graph := by
  obtain ⟨d, hd, hfin⟩ := exists_of_eachController hf hc
  obtain ⟨footprints, p, hto⟩ := WorkGraph.freeze_spec (finalize_spec hfin).1
  exact ⟨d.graph, footprints, p, (h.sound b d hd).graph, (h.sound b d hd).build, hto⟩

/-! ## Waits -/

/-- In some build the node of the one task stands in a relation to that of the other. -/
def InPlan (t : BuildTree) (R : WorkGraph → Plan → Nat → Nat → Prop) (x y : TreeTask) : Prop :=
  ∃ b c plan, ∃ i j : Nat, ∃ n m : PlannedNode, t.builds[b]? = some c ∧
    c.graph.plan = some plan ∧ plan.nodes[i]? = some n ∧ plan.nodes[j]? = some m ∧
    R c.graph plan i j ∧ treeTask b n.key = x ∧ treeTask b m.key = y

/-- In some build the node of the task comes after a task of another build in order. -/
def ByExport (t : BuildTree) (x y : TreeTask) : Prop :=
  ∃ b c plan, ∃ i : Nat, ∃ n : PlannedNode, t.builds[b]? = some c ∧ c.graph.plan = some plan ∧
    plan.nodes[i]? = some n ∧ y ∈ n.afterExports ∧ treeTask b n.key = x

/-- One task waits for another: some plan says so of the nodes that stand for them. -/
def Waits (t : BuildTree) (x y : TreeTask) : Prop :=
  t.InPlan (fun _ plan => plan.Waits) x y ∨ t.ByExport x y

end BuildTree

/-- By what the tasks declare, plan node `i` comes after plan node `j`. -/
def WorkGraph.Mandatory (g : WorkGraph) (i j : Nat) : Prop :=
  ∃ a b, g.scheduled.toList[i]? = some a ∧ g.scheduled.toList[j]? = some b ∧ g.mandatory.Before a b

namespace BuildTree

variable {t t' : BuildTree} {b : BuildId} {c : Controller} {x y : TreeTask}

/-- One task waits for another by what the tasks declare. -/
def DeclaredWaits (t : BuildTree) (x y : TreeTask) : Prop :=
  t.InPlan (fun g plan i j => plan.Waits i j ∧ g.Mandatory i j) x y ∨ t.ByExport x y

/-- One task waits for another by an order that freezing added: their footprints conflict, or a
hint was accepted. -/
def AddedWaits (t : BuildTree) (x y : TreeTask) : Prop :=
  t.InPlan (fun g plan i j => plan.Waits i j ∧ ¬ g.Mandatory i j) x y

theorem waits_iff : t.Waits x y ↔ t.DeclaredWaits x y ∨ t.AddedWaits x y := by
  constructor
  · rintro (⟨b, c, plan, i, j, n, m, hc, hplan, hn, hm, hw, hx, hy⟩ | hexp)
    · by_cases hmand : c.graph.Mandatory i j
      · exact .inl (.inl ⟨b, c, plan, i, j, n, m, hc, hplan, hn, hm, ⟨hw, hmand⟩, hx, hy⟩)
      · exact .inr ⟨b, c, plan, i, j, n, m, hc, hplan, hn, hm, ⟨hw, hmand⟩, hx, hy⟩
    · exact .inl (.inr hexp)
  · rintro ((⟨b, c, plan, i, j, n, m, hc, hplan, hn, hm, hw, hx, hy⟩ | hexp) |
      ⟨b, c, plan, i, j, n, m, hc, hplan, hn, hm, hw, hx, hy⟩)
    · exact .inl ⟨b, c, plan, i, j, n, m, hc, hplan, hn, hm, hw.1, hx, hy⟩
    · exact .inr hexp
    · exact .inl ⟨b, c, plan, i, j, n, m, hc, hplan, hn, hm, hw.1, hx, hy⟩

/-- A node that waits for something runs a task of its build. -/
theorem exists_path_of_mem_waitsOf {g : WorkGraph} {H : BuildId → TaskPath → Prop} {id s : Nat}
    {n : Node} (hs : g.Sound H) (hn : g.nodes[id]? = some n) (hw : s ∈ g.waitsOf n) :
    ∃ path, n.key = .task path := by
  cases hwork : n.work with
  | task definition => exact ⟨definition.path, by rw [Node.key, hwork]; rfl⟩
  | foreign d path =>
    have hinert := (hs.foreign id n d path hn hwork).1
    rcases WorkGraph.mem_waitsOf.1 hw with h | ⟨h, _⟩ | ⟨h, _⟩
    · exact absurd h (hinert.successors .dependency s)
    · exact absurd h (hinert.successors .mustRunAfter s)
    · exact absurd h (hinert.finalizes s)

/-- The check sees what the nodes of a run wait for. -/
theorem seen_of_mem_waitsOf {g : WorkGraph} {H : BuildId → TaskPath → Prop} {id s : Nat}
    {n m : Node} (hs : g.Sound H) (hc : t.builds[b]? = some c)
    (hedges : c.graph.executionEdges = g.executionEdges) (hid : id ∈ g.scheduled)
    (hn : g.nodes[id]? = some n) (hm : g.nodes[s]? = some m) (hw : s ∈ g.waitsOf n) :
    Seen t.waits (treeTask b n.key) (treeTask b m.key) := by
  obtain ⟨path, hpath⟩ := exists_path_of_mem_waitsOf hs hn hw
  obtain ⟨targets, htargets, hkey⟩ := WorkGraph.mem_executionEdges hid hn hm hw
  rw [hpath, ← hedges] at htargets
  rw [hpath]
  refine ⟨targets.map (treeTask b), ?_, List.mem_map_of_mem hkey⟩
  rw [waits, List.mem_flatMap]
  refine ⟨(b, c), Std.TreeMap.mem_toList_iff_getElem?_eq_some.2 hc, ?_⟩
  rw [List.mem_filterMap]
  exact ⟨_, htargets, rfl⟩

/-- The check sees every wait that the tasks declare. -/
theorem seen_of_declaredWaits (h : t.Assembled)
    (hf : t.eachController (·.finalize) = (t', none)) (hxy : t'.DeclaredWaits x y) :
    Seen t'.waits x y := by
  rcases hxy with ⟨b, c, plan, i, j, n, m, hc, hplan, hn, hm, ⟨_, hmand⟩, rfl, rfl⟩ |
    ⟨b, c, plan, i, n, hc, hplan, hn, hy, rfl⟩
  · obtain ⟨g, footprints, p, hs, _, hto⟩ := exists_frozenTo h hf hc
    rw [hto.plan_eq, Option.some.injEq] at hplan
    subst hplan
    obtain ⟨id, v, hv⟩ := (WorkGraph.planOf_nodes hs hto.footprints_eq p).1 i n hn
    obtain ⟨id', u, hu⟩ := (WorkGraph.planOf_nodes hs hto.footprints_eq p).1 j m hm
    obtain ⟨k, k', hk, hk', hbefore⟩ := hmand
    rw [hto.scheduled_eq] at hk hk'
    rw [hto.mandatory_eq] at hbefore
    cases hv.position.symm.trans hk
    cases hu.position.symm.trans hk'
    obtain ⟨hid, hid', w, hw, hcase⟩ := WorkGraph.mandatory_before_iff.1 hbefore
    cases hv.node.symm.trans hw
    have hwait : id' ∈ g.waitsOf v := by
      rw [WorkGraph.mem_waitsOf]
      rcases hcase with h | h | h
      · exact .inl h
      · exact .inr (.inl ⟨h, .inl hid'⟩)
      · exact .inr (.inr ⟨h, hid'⟩)
    rw [hv.key_eq, hu.key_eq]
    exact seen_of_mem_waitsOf hs hc hto.executionEdges_eq hid hv.node hu.node hwait
  · obtain ⟨g, footprints, p, hs, _, hto⟩ := exists_frozenTo h hf hc
    rw [hto.plan_eq, Option.some.injEq] at hplan
    subst hplan
    obtain ⟨id, v, hv⟩ := (WorkGraph.planOf_nodes hs hto.footprints_eq p).1 i n hn
    obtain ⟨s, hmust, u, hu, hkey⟩ := hv.mem_afterExports.1 hy
    have hforeign : g.isForeign s = true := by
      rw [WorkGraph.isForeign, hu]
      cases hwork : u.work with
      | task definition => simp [Node.key, hwork, Work.key] at hkey
      | foreign d path => simp [hwork, Work.isForeign]
    have hwait : s ∈ g.waitsOf v := WorkGraph.mem_waitsOf.2 (.inr (.inl ⟨hmust, .inr hforeign⟩))
    have hid : id ∈ g.scheduled := Std.TreeSet.mem_toList.1 (List.mem_of_getElem? hv.position)
    have hseen := seen_of_mem_waitsOf hs hc hto.executionEdges_eq hid hv.node hu hwait
    rw [hkey] at hseen
    rw [hv.key_eq]
    exact hseen

/-! ## Loops of waits -/

/-- In a frozen tree that passed the check no loop of waits is made of what the tasks declare, nor
runs within one plan; the waits of all plans together have a loop just if an order that freezing
added leads on to a chain back. -/
theorem acyclic_waits_iff (h : t.Assembled) (hf : t.eachController (·.finalize) = (t', none))
    (hc : t'.checkCrossBuildCycles = .ok ()) :
    Acyclic t'.DeclaredWaits ∧
      (∀ (b : BuildId) (c : Controller) (plan : Plan), t'.builds[b]? = some c →
        c.graph.plan = some plan → Acyclic plan.Waits) ∧
      (Acyclic t'.Waits ↔ ∀ x y, t'.AddedWaits x y → ¬ ReflTransGen t'.Waits y x) := by
  have hdeclared : Acyclic t'.DeclaredWaits :=
    (acyclic_seen hc).mono fun x y hxy => seen_of_declaredWaits h hf hxy
  refine ⟨hdeclared, fun b c plan hb hplan => ?_, hdeclared.iff_of_split fun x y => waits_iff⟩
  obtain ⟨g, footprints, p, hs, _, hto⟩ := exists_frozenTo h hf hb
  rw [hto.plan_eq, Option.some.injEq] at hplan
  subst hplan
  exact (WorkGraph.planOf_sound hs hto).acyclic

/-- The order that freezing added shows among the nodes that only come first in order. -/
theorem runAfter_of_addedWaits (h : t.Assembled)
    (hf : t.eachController (·.finalize) = (t', none)) (hxy : t'.AddedWaits x y) :
    ∃ (b : BuildId) (c : Controller) (plan : Plan) (n : PlannedNode), t'.builds[b]? = some c ∧
      c.graph.plan = some plan ∧ n ∈ plan.nodes ∧ n.runAfter ≠ [] := by
  obtain ⟨b, c, plan, i, j, n, m, hc, hplan, hn, _, ⟨hw, hmand⟩, _, _⟩ := hxy
  obtain ⟨g, footprints, p, hs, _, hto⟩ := exists_frozenTo h hf hc
  refine ⟨b, c, plan, n, hc, hplan, Array.mem_of_getElem? hn, fun hempty => hmand ?_⟩
  rw [hto.plan_eq, Option.some.injEq] at hplan
  subst hplan
  obtain ⟨m', hm', hj⟩ := hw
  cases hn.symm.trans hm'
  rw [hempty, ← or_assoc] at hj
  obtain ⟨a, a', ha, ha', hbefore⟩ :=
    WorkGraph.mandatory_of_mem hs hto hn (hj.resolve_right List.not_mem_nil)
  rw [WorkGraph.Mandatory, hto.scheduled_eq, hto.mandatory_eq]
  exact ⟨a, a', ha, ha', hbefore⟩

/-! ## Two trees of two builds -/

/-- A tree with these builds, the tasks of one of them requested and all scheduled. -/
def requestedTree (registries : List Registry) (b : BuildId) (paths : List TaskPath) : BuildTree :=
  let builds := registries.foldl (fun (t : BuildTree) r => (t.addBuild r).toOption.getD t)
    (.new ⟨4, false, ⟨true⟩, .empty 4, false⟩)
  (builds.request b paths).1.schedule.1

theorem requestedTree_assembled (registries : List Registry) (b : BuildId)
    (paths : List TaskPath) : (requestedTree registries b paths).Assembled := by
  refine (Assembled.request ?_ b paths).schedule
  refine List.foldlRecOn _ _ (.new _) fun t ht r _ => ?_
  cases hadd : t.addBuild r with
  | error e => exact ht
  | ok t' => exact ht.addBuild hadd

def frozen (t : BuildTree) : BuildTree := (t.eachController (·.finalize)).1

theorem eachController_eq_frozen (h : (t.eachController (·.finalize)).2.isNone = true) :
    t.eachController (·.finalize) = (t.frozen, none) := by
  rw [frozen]
  generalize t.eachController (·.finalize) = answer at h
  obtain ⟨t', error⟩ := answer
  cases error with
  | none => rfl
  | some e => cases h

theorem check_eq_ok (h : t.checkCrossBuildCycles.toOption.isSome = true) :
    t.checkCrossBuildCycles = .ok () := by
  cases hc : t.checkCrossBuildCycles with
  | ok => rfl
  | error e =>
    rw [hc] at h
    cases h

def planAt (t : BuildTree) (b : BuildId) : Plan :=
  ((t.builds[b]?).bind (·.graph.plan)).getD ⟨b, #[]⟩

/-- The nodes of a build's plan tell what waits. -/
theorem waits_of_planAt {i j : Nat} (hi : i < (t.planAt b).nodes.size)
    (hj : j < (t.planAt b).nodes.size) (hx : treeTask b (t.planAt b).nodes[i].key = x)
    (hy : treeTask b (t.planAt b).nodes[j].key = y)
    (hij : j ∈ (t.planAt b).nodes[i].dependencies ∨ j ∈ (t.planAt b).nodes[i].finalizes ∨
      j ∈ (t.planAt b).nodes[i].runAfter) : t.Waits x y := by
  have hn := Array.getElem?_eq_getElem hi
  have hm := Array.getElem?_eq_getElem hj
  generalize (t.planAt b).nodes[i] = n at hn hx hij
  generalize (t.planAt b).nodes[j] = m at hm hy
  cases hplan : (t.builds[b]?).bind (·.graph.plan) with
  | none => simp [planAt, hplan] at hn
  | some plan =>
    rw [planAt, hplan, Option.getD_some] at hn hm
    rw [Option.bind_eq_some_iff] at hplan
    obtain ⟨c, hc, hplan⟩ := hplan
    exact .inl ⟨b, c, plan, i, j, n, m, hc, hplan, hn, hm, ⟨n, hn, hij⟩, hx, hy⟩

def registryOf (name : String) (tasks : List TaskDefinition) : Registry :=
  (Registry.empty ⟨name⟩).registerFree tasks

/-- The application is tested once the library of the other build is there. -/
def libraryTree : BuildTree :=
  requestedTree
    [registryOf "app"
      [{ TaskDefinition.plain ⟨":", "build"⟩ with dependsOn := [.inBuild ⟨"lib"⟩ ⟨":", "jar"⟩] },
        { TaskDefinition.plain ⟨":", "test"⟩ with dependsOn := [.path "build"] }],
      registryOf "lib" [.plain ⟨":", "jar"⟩]]
    ⟨"app"⟩ [⟨":", "test"⟩]

/-- Without hints and conflicts a tree that passed the check has no loop. -/
theorem libraryTree_waits_acyclic : Acyclic libraryTree.frozen.Waits := by
  have hassembled : libraryTree.Assembled := requestedTree_assembled _ _ _
  have hfrozen := eachController_eq_frozen (t := libraryTree) (by decide +kernel)
  have hcheck := check_eq_ok (t := libraryTree.frozen) (by decide +kernel)
  refine (acyclic_waits_iff hassembled hfrozen hcheck).2.2.2 fun x y hxy => ?_
  obtain ⟨b, c, plan, n, hc, hplan, hn, hafter⟩ := runAfter_of_addedWaits hassembled hfrozen hxy
  have hall : libraryTree.frozen.builds.toList.all (fun e =>
      e.2.graph.plan.all fun plan => plan.nodes.all (·.runAfter.isEmpty)) = true := by
    decide +kernel
  have hbuild := List.all_eq_true.1 hall (b, c)
    (Std.TreeMap.mem_toList_iff_getElem?_eq_some.2 hc)
  simp only [hplan, Option.all_some] at hbuild
  exact absurd (by simpa using Array.all_eq_true'.1 hbuild n hn) hafter

/-- In the application `c` has a hint to follow `a`, which needs `b` of the library, which needs
`c`. -/
def hintedTree : BuildTree :=
  requestedTree
    [registryOf "app"
      [{ TaskDefinition.plain ⟨":", "a"⟩ with dependsOn := [.inBuild ⟨"lib"⟩ ⟨":", "b"⟩] },
        { TaskDefinition.plain ⟨":", "c"⟩ with shouldRunAfter := [.path "a"] }],
      registryOf "lib"
        [{ TaskDefinition.plain ⟨":", "b"⟩ with dependsOn := [.inBuild ⟨"app"⟩ ⟨":", "c"⟩] }]]
    ⟨"app"⟩ [⟨":", "a"⟩, ⟨":", "c"⟩]

/-- The hint is accepted, the check passes, and the tasks wait in a circle. -/
theorem hintedTree_waits_in_circle : hintedTree.Assembled ∧
    hintedTree.eachController (·.finalize) = (hintedTree.frozen, none) ∧
    hintedTree.frozen.checkCrossBuildCycles = .ok () ∧ ¬ Acyclic hintedTree.frozen.Waits := by
  have hca : hintedTree.frozen.Waits (⟨"app"⟩, ⟨":", "c"⟩) (⟨"app"⟩, ⟨":", "a"⟩) :=
    waits_of_planAt (b := ⟨"app"⟩) (i := 1) (j := 0) (by decide +kernel) (by decide +kernel)
      (by decide +kernel) (by decide +kernel) (by decide +kernel)
  have hab : hintedTree.frozen.Waits (⟨"app"⟩, ⟨":", "a"⟩) (⟨"lib"⟩, ⟨":", "b"⟩) :=
    waits_of_planAt (b := ⟨"app"⟩) (i := 0) (j := 2) (by decide +kernel) (by decide +kernel)
      (by decide +kernel) (by decide +kernel) (by decide +kernel)
  have hbc : hintedTree.frozen.Waits (⟨"lib"⟩, ⟨":", "b"⟩) (⟨"app"⟩, ⟨":", "c"⟩) :=
    waits_of_planAt (b := ⟨"lib"⟩) (i := 0) (j := 1) (by decide +kernel) (by decide +kernel)
      (by decide +kernel) (by decide +kernel) (by decide +kernel)
  refine ⟨requestedTree_assembled _ _ _, eachController_eq_frozen (by decide +kernel),
    check_eq_ok (by decide +kernel), fun hacyc => ?_⟩
  exact hacyc _ (.tail (.tail (.single hca) hab) hbc)

end BuildTree

end Foreman
