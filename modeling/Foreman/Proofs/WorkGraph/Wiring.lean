import Foreman.Proofs.WorkGraph.Growing

/-!
# What the nodes of a work graph refer to

The edges of a graph, by the keys of their ends (`WorkGraph.Refers`). In a graph whose edges all
lead to nodes and whose nodes know what they finalize (`WorkGraph.Wired`), recording an edge adds
that edge and no other (`refers_addEdge`). What the graph waits for is told by its edges alone
(`mem_executionEdges_iff`).
-/

namespace Foreman

def Node.wiring (n : Node) : Work × Successors × NodeSet := (n.work, n.successors, n.finalizes)

namespace WorkGraph

variable {g g' g'' : WorkGraph} {id i j : Nat} {n m : Node} {f : Node → Node} {x y : NodeKey}
  {r relationship : Relationship} {H : BuildId → TaskPath → Prop}

/-- The node of the one key refers to that of the other. -/
def Refers (g : WorkGraph) (x : NodeKey) (r : Relationship) (y : NodeKey) : Prop :=
  ∃ (i j : Nat) (n m : Node), g.nodes[i]? = some n ∧ n.key = x ∧ g.nodes[j]? = some m ∧ m.key = y ∧
    j ∈ n.successors.get r

/-- The node of a key is part of the run. -/
def Includes (g : WorkGraph) (x : NodeKey) : Prop :=
  ∃ (i : Nat) (n : Node), g.nodes[i]? = some n ∧ n.key = x ∧ n.state.isScheduled = true

/-- The edges of a graph lead to nodes, and a node knows what it finalizes. -/
structure Wired (g : WorkGraph) : Prop where
  distinct : g.Distinct
  successors : ∀ (i : Nat) (n : Node) r j, g.nodes[i]? = some n → j ∈ n.successors.get r →
    j < g.nodes.size
  finalizes : ∀ (i j : Nat) (m : Node), g.nodes[j]? = some m → (i ∈ m.finalizes ↔
    ∃ n, g.nodes[i]? = some n ∧ j ∈ n.successors.get .finalizedBy)

theorem new_wired (registry : Registry) : (new registry).Wired where
  distinct := new_distinct registry
  successors i n r j hn := by simp [new] at hn
  finalizes i j m hm := by simp [new] at hm

/-! ## Changes that leave the edges -/

/-- Node by node the graphs stand for the same and have the same edges. -/
def SameWiring (g g' : WorkGraph) : Prop :=
  ∀ k : Nat, (g'.nodes[k]?).map Node.wiring = (g.nodes[k]?).map Node.wiring

theorem SameWiring.refl (g : WorkGraph) : g.SameWiring g := fun _ => rfl

theorem SameWiring.symm (h : g.SameWiring g') : g'.SameWiring g := fun k => (h k).symm

theorem SameWiring.trans (h : g.SameWiring g') (h' : g'.SameWiring g'') : g.SameWiring g'' :=
  fun k => (h' k).trans (h k)

theorem SameWiring.of_nodes (h : g'.nodes = g.nodes) : g.SameWiring g' := fun k => by rw [h]

theorem SameWiring.modify (hf : ∀ n, (f n).wiring = n.wiring) : g.SameWiring (g.modify id f) := by
  intro k
  rw [getElem?_modify]
  split
  · rw [Option.map_map]
    exact congrArg (fun h => Option.map h g.nodes[k]?) (funext hf)
  · rfl

theorem SameWiring.exists (h : g.SameWiring g') (hn : g.nodes[i]? = some n) :
    ∃ n', g'.nodes[i]? = some n' ∧ n'.key = n.key ∧ n'.successors = n.successors ∧
      n'.finalizes = n.finalizes := by
  have hi := h i
  rw [hn, Option.map_some, Option.map_eq_some_iff] at hi
  obtain ⟨n', hn', hw⟩ := hi
  simp only [Node.wiring, Prod.mk.injEq] at hw
  exact ⟨n', hn', congrArg Work.key hw.1, hw.2.1, hw.2.2⟩

theorem SameWiring.size_le (h : g.SameWiring g') : g.nodes.size ≤ g'.nodes.size := by
  by_contra hlt
  obtain ⟨n', hn', _⟩ := h.exists (Array.getElem?_eq_getElem (Nat.lt_of_not_le hlt))
  simp at hn'

theorem SameWiring.refers_of (h : g.SameWiring g') (hr : g.Refers x r y) : g'.Refers x r y := by
  obtain ⟨i, j, n, m, hn, rfl, hm, rfl, hj⟩ := hr
  obtain ⟨n', hn', hkn, hsn, _⟩ := h.exists hn
  obtain ⟨m', hm', hkm, _⟩ := h.exists hm
  exact ⟨i, j, n', m', hn', hkn, hm', hkm, by rw [hsn]; exact hj⟩

theorem SameWiring.refers_iff (h : g.SameWiring g') : g'.Refers x r y ↔ g.Refers x r y :=
  ⟨h.symm.refers_of, h.refers_of⟩

theorem SameWiring.wired (h : g.SameWiring g') (hg : g.Wired) : g'.Wired where
  distinct i j n m hn hm hkey := by
    obtain ⟨n', hn', hkn, _⟩ := h.symm.exists hn
    obtain ⟨m', hm', hkm, _⟩ := h.symm.exists hm
    exact hg.distinct i j n' m' hn' hm' (hkn.trans (hkey.trans hkm.symm))
  successors i n r j hn hj := by
    obtain ⟨n', hn', _, hsn, _⟩ := h.symm.exists hn
    exact Nat.lt_of_lt_of_le (hg.successors i n' r j hn' (by rw [hsn]; exact hj)) h.size_le
  finalizes i j m hm := by
    obtain ⟨m', hm', _, _, hfm⟩ := h.symm.exists hm
    rw [← hfm, hg.finalizes i j m' hm']
    constructor
    · rintro ⟨n, hn, hj⟩
      obtain ⟨n', hn', _, hsn, _⟩ := h.exists hn
      exact ⟨n', hn', by rw [hsn]; exact hj⟩
    · rintro ⟨n, hn, hj⟩
      obtain ⟨n', hn', _, hsn, _⟩ := h.symm.exists hn
      exact ⟨n', hn', by rw [hsn]; exact hj⟩

theorem enter_sameWiring (g : WorkGraph) (ordinal : Nat) (entry : Nat × Bool) :
    g.SameWiring (g.enter ordinal entry) := by
  obtain ⟨id, required⟩ := entry
  have hrequired : g.SameWiring
      (g.modify id fun n => { n with required := n.required || required }) := .modify fun _ => rfl
  rw [enter]
  dsimp only
  split
  · exact hrequired
  · exact (hrequired.trans
      (.modify (f := fun n => { n with state := .scheduled }.lowerOrdinal ordinal)
      fun _ => rfl)).trans (.of_nodes rfl)

theorem lowerDependencies_sameWiring (g : WorkGraph) (n : Node) :
    g.SameWiring (g.lowerDependencies n) := by
  rw [lowerDependencies]
  split
  · exact List.foldlRecOn _ _ (.refl g) fun g₁ h d _ => h.trans (.modify fun _ => rfl)
  · exact .refl g

/-! ## New nodes and new edges -/

theorem getElem?_nodeFor_eq (g : WorkGraph) (work : Work) (k : Nat) :
    (g.nodeFor work).1.nodes[k]? = g.nodes[k]? ∨
    k = g.nodes.size ∧ g.nodes[k]? = none ∧ (g.nodeFor work).1.nodes[k]? = some (.new work) := by
  rw [nodeFor]
  split
  · exact .inl rfl
  · by_cases hk : k = g.nodes.size
    · subst hk
      exact .inr ⟨rfl, by simp, by simp⟩
    · exact .inl (by simp only [Array.getElem?_push, if_neg hk])

theorem not_mem_new (work : Work) (r : Relationship) (j : Nat) :
    j ∉ (Node.new work).successors.get r := (Node.new_inert work).successors r j

theorem Wired.nodeFor (h : g.Wired) (work : Work) : (g.nodeFor work).1.Wired where
  distinct := (g.nodeFor_merged work).distinct h.distinct
  successors i n r j hn hj := by
    refine Nat.lt_of_lt_of_le ?_ (g.nodeFor_merged work).size_le
    rcases g.getElem?_nodeFor_eq work i with he | ⟨_, _, he⟩
    · exact h.successors i n r j (he.symm.trans hn) hj
    · rw [he, Option.some.injEq] at hn
      exact absurd (hn ▸ hj) (not_mem_new work r j)
  finalizes i j m hm := by
    have hback : (∃ n, (g.nodeFor work).1.nodes[i]? = some n ∧ j ∈ n.successors.get .finalizedBy) ↔
        ∃ n, g.nodes[i]? = some n ∧ j ∈ n.successors.get .finalizedBy := by
      rcases g.getElem?_nodeFor_eq work i with he | ⟨_, hnone, he⟩
      · rw [he]
      · rw [he, hnone]
        simp [not_mem_new]
    rw [hback]
    rcases g.getElem?_nodeFor_eq work j with he | ⟨hsize, _, he⟩
    · exact h.finalizes i j m (he.symm.trans hm)
    · rw [he, Option.some.injEq] at hm
      subst hm
      refine ⟨fun hi => absurd hi ((Node.new_inert work).finalizes i), ?_⟩
      rintro ⟨n, hn, hj⟩
      exact absurd (h.successors i n _ j hn hj) (by rw [hsize]; exact Nat.lt_irrefl _)

theorem Wired.refers_nodeFor (h : g.Wired) (work : Work) :
    (g.nodeFor work).1.Refers x r y ↔ g.Refers x r y := by
  constructor
  · rintro ⟨i, j, n, m, hn, rfl, hm, rfl, hj⟩
    rcases g.getElem?_nodeFor_eq work i with he | ⟨_, _, he⟩
    · have hlt := h.successors i n r j (he.symm.trans hn) hj
      rcases g.getElem?_nodeFor_eq work j with he' | ⟨hsize, _⟩
      · exact ⟨i, j, n, m, he.symm.trans hn, rfl, he'.symm.trans hm, rfl, hj⟩
      · exact absurd hlt (by rw [hsize]; exact Nat.lt_irrefl _)
    · rw [he, Option.some.injEq] at hn
      exact absurd (hn ▸ hj) (not_mem_new work r j)
  · rintro ⟨i, j, n, m, hn, rfl, hm, rfl, hj⟩
    exact ⟨i, j, n, m, getElem?_nodeFor hn, rfl, getElem?_nodeFor hm, rfl, hj⟩

/-- The graph `g'` has one edge more than `g`: from node `i` to node `j`. -/
structure Linked (g : WorkGraph) (i : Nat) (relationship : Relationship) (j : Nat)
    (g' : WorkGraph) :
    Prop where
  size : g'.nodes.size = g.nodes.size
  node : ∀ (k : Nat) (n : Node), g.nodes[k]? = some n → ∃ n', g'.nodes[k]? = some n' ∧
    n'.work = n.work ∧
    (∀ r s, s ∈ n'.successors.get r ↔
      s ∈ n.successors.get r ∨ k = i ∧ r = relationship ∧ s = j) ∧
    ∀ s, s ∈ n'.finalizes ↔ s ∈ n.finalizes ∨ relationship = .finalizedBy ∧ k = j ∧ s = i

theorem Linked.exists (h : g.Linked i relationship j g') {k : Nat} (hn : g'.nodes[k]? = some n) :
    ∃ n₀, g.nodes[k]? = some n₀ ∧ n.work = n₀.work ∧
      (∀ r s, s ∈ n.successors.get r ↔
        s ∈ n₀.successors.get r ∨ k = i ∧ r = relationship ∧ s = j) ∧
      ∀ s, s ∈ n.finalizes ↔ s ∈ n₀.finalizes ∨ relationship = .finalizedBy ∧ k = j ∧ s = i := by
  have hlt : k < g.nodes.size := by
    rw [← h.size]
    exact (Array.getElem?_eq_some_iff.1 hn).1
  obtain ⟨n', hn', hrest⟩ := h.node k _ (Array.getElem?_eq_getElem hlt)
  cases hn'.symm.trans hn
  exact ⟨_, Array.getElem?_eq_getElem hlt, hrest⟩

/-- The one more edge, by the keys of its ends. -/
theorem Linked.refers_iff (h : g.Linked i relationship j g') (hi : g.nodes[i]? = some n)
    (hj : g.nodes[j]? = some m) :
    g'.Refers x r y ↔ g.Refers x r y ∨ x = n.key ∧ r = relationship ∧ y = m.key := by
  constructor
  · rintro ⟨a, b, u, v, hu, rfl, hv, rfl, hb⟩
    obtain ⟨u₀, hu₀, hku, hsu, _⟩ := h.exists hu
    obtain ⟨v₀, hv₀, hkv, _⟩ := h.exists hv
    rcases (hsu r b).1 hb with hb | ⟨rfl, hr, rfl⟩
    · exact .inl ⟨a, b, u₀, v₀, hu₀, congrArg Work.key hku.symm, hv₀,
        congrArg Work.key hkv.symm, hb⟩
    · cases hu₀.symm.trans hi
      cases hv₀.symm.trans hj
      exact .inr ⟨congrArg Work.key hku, hr, congrArg Work.key hkv⟩
  · rintro (⟨a, b, u, v, hu, rfl, hv, rfl, hb⟩ | ⟨rfl, rfl, rfl⟩)
    · obtain ⟨u', hu', hku, hsu, _⟩ := h.node a u hu
      obtain ⟨v', hv', hkv, _⟩ := h.node b v hv
      exact ⟨a, b, u', v', hu', congrArg Work.key hku, hv', congrArg Work.key hkv,
        (hsu r b).2 (.inl hb)⟩
    · obtain ⟨n', hn', hkn, hsn, _⟩ := h.node i n hi
      obtain ⟨m', hm', hkm, _⟩ := h.node j m hj
      exact ⟨i, j, n', m', hn', congrArg Work.key hkn, hm', congrArg Work.key hkm,
        (hsn r j).2 (.inr ⟨rfl, rfl, rfl⟩)⟩

theorem Linked.wired (h : g.Linked i relationship j g') (hg : g.Wired) (hi : g.nodes[i]? = some n)
    (hj : g.nodes[j]? = some m) : g'.Wired where
  distinct a b u v hu hv hkey := by
    obtain ⟨u₀, hu₀, hku, _⟩ := h.exists hu
    obtain ⟨v₀, hv₀, hkv, _⟩ := h.exists hv
    exact hg.distinct a b u₀ v₀ hu₀ hv₀
      ((congrArg Work.key hku).symm.trans (hkey.trans (congrArg Work.key hkv)))
  successors a u r b hu hb := by
    rw [h.size]
    obtain ⟨u₀, hu₀, _, hsu, _⟩ := h.exists hu
    rcases (hsu r b).1 hb with hb | ⟨_, _, rfl⟩
    · exact hg.successors a u₀ r b hu₀ hb
    · exact (Array.getElem?_eq_some_iff.1 hj).1
  finalizes a b v hv := by
    obtain ⟨v₀, hv₀, _, _, hfv⟩ := h.exists hv
    rw [hfv, hg.finalizes a b v₀ hv₀]
    constructor
    · rintro (⟨u₀, hu₀, hb⟩ | ⟨rfl, rfl, rfl⟩)
      · obtain ⟨u, hu, _, hsu, _⟩ := h.node a u₀ hu₀
        exact ⟨u, hu, (hsu _ b).2 (.inl hb)⟩
      · obtain ⟨u, hu, _, hsu, _⟩ := h.node a n hi
        exact ⟨u, hu, (hsu _ b).2 (.inr ⟨rfl, rfl, rfl⟩)⟩
    · rintro ⟨u, hu, hb⟩
      obtain ⟨u₀, hu₀, _, hsu, _⟩ := h.exists hu
      rcases (hsu _ b).1 hb with hb | ⟨rfl, rfl, rfl⟩
      · exact .inl ⟨u₀, hu₀, hb⟩
      · exact .inr ⟨rfl, rfl, rfl⟩

/-- The node learns of its successor, and a finalizer of what it finalizes. -/
theorem addEdge_linked (g : WorkGraph) (id : Nat) (relationship : Relationship) (target : Work) :
    (g.nodeFor target).1.Linked id relationship (g.nodeFor target).2
      (g.addEdge id relationship target) := by
  rw [addEdge]
  generalize g.nodeFor target = answer
  obtain ⟨g₁, j⟩ := answer
  have hlink : ∀ (k : Nat) (n : Node), g₁.nodes[k]? = some n → ∃ n',
      (g₁.modify id fun n =>
        { n with successors := n.successors.insert relationship j }).nodes[k]? = some n' ∧
      n'.work = n.work ∧ n'.finalizes = n.finalizes ∧ ∀ r s, s ∈ n'.successors.get r ↔
        s ∈ n.successors.get r ∨ k = id ∧ r = relationship ∧ s = j := by
    intro k n hn
    rw [getElem?_modify, hn]
    split
    · rename_i hk
      exact ⟨_, rfl, rfl, rfl, fun r s => by simp [Successors.mem_get_insert, hk]⟩
    · rename_i hk
      exact ⟨n, rfl, rfl, rfl, fun r s => by simp [Ne.symm hk]⟩
  have hplain : relationship ≠ .finalizedBy → g₁.Linked id relationship j (g₁.modify id fun n =>
      { n with successors := n.successors.insert relationship j }) := by
    refine fun hr => ⟨by simp [modify], fun k n hn => ?_⟩
    obtain ⟨n', hn', hwork, hfin, hsucc⟩ := hlink k n hn
    exact ⟨n', hn', hwork, hsucc, fun s => by simp [hfin, hr]⟩
  cases relationship with
  | finalizedBy =>
    refine ⟨by simp [modify], fun k n hn => ?_⟩
    obtain ⟨n', hn', hwork, hfin, hsucc⟩ := hlink k n hn
    simp only
    rw [getElem?_modify, hn']
    split
    · rename_i hk
      refine ⟨_, rfl, hwork, hsucc, fun s => ?_⟩
      rw [← hfin, Std.TreeSet.mem_insert, Std.LawfulEqCmp.compare_eq_iff_eq, or_comm]
      simp [hk, eq_comm]
    · rename_i hk
      exact ⟨n', rfl, hwork, hsucc, fun s => by simp [hfin, Ne.symm hk]⟩
  | dependency => exact hplain (by simp)
  | mustRunAfter => exact hplain (by simp)
  | shouldRunAfter => exact hplain (by simp)

theorem Wired.addEdge (h : g.Wired) (hn : g.nodes[id]? = some n) (relationship : Relationship)
    (target : Work) : (g.addEdge id relationship target).Wired := by
  obtain ⟨m, hm, _⟩ := g.key_nodeFor target
  exact (g.addEdge_linked id relationship target).wired (h.nodeFor target) (getElem?_nodeFor hn) hm

/-- Recording an edge adds it and no other. -/
theorem Wired.refers_addEdge (h : g.Wired) (hn : g.nodes[id]? = some n)
    (relationship : Relationship)
    (target : Work) : (g.addEdge id relationship target).Refers x r y ↔
      g.Refers x r y ∨ x = n.key ∧ r = relationship ∧ y = target.key := by
  obtain ⟨m, hm, hkey⟩ := g.key_nodeFor target
  rw [(g.addEdge_linked id relationship target).refers_iff (getElem?_nodeFor hn) hm,
    h.refers_nodeFor, hkey]

/-! ## What the edges say of the run -/

theorem mem_foldl_insert {s : NodeSet} {l : List Nat} :
    id ∈ l.foldl (·.insert ·) s ↔ id ∈ s ∨ id ∈ l := by
  induction l generalizing s with
  | nil => simp
  | cons c l ih =>
    rw [List.foldl_cons, ih, Std.TreeSet.mem_insert, Std.LawfulEqCmp.compare_eq_iff_eq,
      List.mem_cons]
    tauto

theorem mem_waitsOf : id ∈ g.waitsOf n ↔ id ∈ n.successors.dependencies ∨
    id ∈ n.successors.mustRunAfter ∧ (id ∈ g.scheduled ∨ g.isForeign id = true) ∨
      id ∈ n.finalizes ∧ id ∈ g.scheduled := by
  rw [waitsOf, mem_foldl_insert]
  simp only [List.mem_append, List.mem_filter, Std.TreeSet.mem_toList, Bool.or_eq_true,
    ← Std.TreeSet.mem_iff_contains]

theorem mem_keysOf {ids : List Nat} {key : NodeKey} :
    key ∈ g.keysOf ids ↔ ∃ id ∈ ids, ∃ n, g.nodes[id]? = some n ∧ n.key = key := by
  simp only [keysOf, List.mem_filterMap, Option.map_eq_some_iff]

theorem refers_iff_any : g.Refers x r y ↔
    g.nodes.any (fun n => n.key = x && y ∈ g.keysOf (n.successors.get r).toList) = true := by
  simp only [Array.any_eq_true', Bool.and_eq_true, decide_eq_true_eq, mem_keysOf,
    Std.TreeSet.mem_toList]
  constructor
  · rintro ⟨i, j, n, m, hn, hx, hm, hy, hj⟩
    exact ⟨n, Array.mem_of_getElem? hn, hx, j, hj, m, hm, hy⟩
  · rintro ⟨n, hmem, hx, j, hj, m, hm, hy⟩
    obtain ⟨i, hn⟩ := Array.mem_iff_getElem?.1 hmem
    exact ⟨i, j, n, m, hn, hx, hm, hy, hj⟩

instance (g : WorkGraph) (x y : NodeKey) (r : Relationship) : Decidable (g.Refers x r y) :=
  decidable_of_iff _ refers_iff_any.symm

theorem Includes.unique (h : g.Distinct) (hx : g.Includes n.key) (hn : g.nodes[i]? = some n) :
    n.state.isScheduled = true := by
  obtain ⟨k, u, hu, hkey, hs⟩ := hx
  cases h k i u n hu hn hkey
  cases hu.symm.trans hn
  exact hs

theorem isScheduled_iff_includes {path : TaskPath} (h : g.Distinct) :
    g.isScheduled path = true ↔ g.Includes (.task path) := by
  rw [isScheduled, taskNode?, Option.any_eq_true]
  constructor
  · rintro ⟨n, hn, hs⟩
    obtain ⟨i, hi, hn⟩ := Option.bind_eq_some_iff.1 hn
    obtain ⟨n', hn', hkey⟩ := find?_spec hi
    cases hn.symm.trans hn'
    exact ⟨i, n, hn, hkey, hs⟩
  · rintro ⟨i, n, hn, hkey, hs⟩
    refine ⟨n, Option.bind_eq_some_iff.2 ⟨i, ?_, hn⟩, hs⟩
    cases hfind : g.find? (.task path) with
    | none => exact absurd hkey (key_ne_of_find?_eq_none hfind hn)
    | some k =>
      obtain ⟨u, hu, hkey'⟩ := find?_spec hfind
      rw [h k i u n hu hn (hkey'.trans hkey.symm)]

/-- The keys of the nodes of the run and what they wait for, by the edges. -/
theorem mem_executionEdges_iff (hg : g.Wired) (hs : g.Sound H) :
    (∃ targets, (x, targets) ∈ g.executionEdges ∧ y ∈ targets) ↔ g.Includes x ∧
      (g.Refers x .dependency y ∨
        g.Refers x .mustRunAfter y ∧ (g.Includes y ∨ ∃ d path, y = .foreign d path) ∨
        g.Refers y .finalizedBy x ∧ g.Includes y) := by
  have hforeign : ∀ (j : Nat) (m : Node), g.nodes[j]? = some m →
      (g.isForeign j = true ↔ ∃ d path, m.key = .foreign d path) := by
    intro j m hm
    rw [isForeign, hm, Option.any_some, Node.key]
    cases m.work <;> simp [Work.isForeign, Work.key]
  have hincludes : ∀ (j : Nat) (m : Node), g.nodes[j]? = some m →
      (j ∈ g.scheduled ↔ g.Includes m.key) := by
    intro j m hm
    rw [hs.scheduled]
    constructor
    · rintro ⟨u, hu, hstate⟩
      cases hu.symm.trans hm
      exact ⟨j, m, hm, rfl, hstate⟩
    · exact fun h => ⟨m, hm, h.unique hg.distinct hm⟩
  simp only [executionEdges, List.mem_filterMap, Option.map_eq_some_iff, Prod.mk.injEq]
  constructor
  · rintro ⟨targets, ⟨i, hi, n, hn, rfl, rfl⟩, hy⟩
    obtain ⟨j, hj, m, hm, rfl⟩ := mem_keysOf.1 hy
    refine ⟨(hincludes i n hn).1 (Std.TreeSet.mem_toList.1 hi), ?_⟩
    rcases mem_waitsOf.1 (Std.TreeSet.mem_toList.1 hj) with h | ⟨h, hrun⟩ | ⟨h, hrun⟩
    · exact .inl ⟨i, j, n, m, hn, rfl, hm, rfl, h⟩
    · refine .inr (.inl ⟨⟨i, j, n, m, hn, rfl, hm, rfl, h⟩, ?_⟩)
      exact hrun.imp (hincludes j m hm).1 (hforeign j m hm).1
    · obtain ⟨u, hu, hi'⟩ := (hg.finalizes j i n hn).1 h
      cases hu.symm.trans hm
      exact .inr (.inr ⟨⟨j, i, m, n, hm, rfl, hn, rfl, hi'⟩, (hincludes j m hm).1 hrun⟩)
  · rintro ⟨⟨i, n, hn, rfl, hstate⟩, hcase⟩
    refine ⟨_, ⟨i, Std.TreeSet.mem_toList.2 ((hs.scheduled i).2 ⟨n, hn, hstate⟩), n, hn, rfl, rfl⟩,
      ?_⟩
    have hsame : ∀ (k : Nat) (u : Node), g.nodes[k]? = some u → u.key = n.key → k = i ∧ u = n := by
      intro k u hu hkey
      cases hg.distinct k i u n hu hn hkey
      exact ⟨rfl, Option.some.inj (hu.symm.trans hn)⟩
    have hwaits : ∀ (j : Nat) (m : Node), g.nodes[j]? = some m → m.key = y → j ∈ g.waitsOf n →
        y ∈ g.keysOf (g.waitsOf n).toList :=
      fun j m hm hkey hj => mem_keysOf.2 ⟨j, Std.TreeSet.mem_toList.2 hj, m, hm, hkey⟩
    rcases hcase with ⟨k, j, u, m, hu, hku, hm, rfl, hj⟩ |
      ⟨⟨k, j, u, m, hu, hku, hm, rfl, hj⟩, hrun⟩ | ⟨⟨j, k, m, u, hm, rfl, hu, hku, hk⟩, hrun⟩
    · obtain ⟨rfl, rfl⟩ := hsame k u hu hku
      exact hwaits j m hm rfl (mem_waitsOf.2 (.inl hj))
    · obtain ⟨rfl, rfl⟩ := hsame k u hu hku
      exact hwaits j m hm rfl (mem_waitsOf.2 (.inr (.inl ⟨hj,
        hrun.imp (hincludes j m hm).2 (hforeign j m hm).2⟩)))
    · obtain ⟨rfl, rfl⟩ := hsame k u hu hku
      exact hwaits j m hm rfl (mem_waitsOf.2 (.inr (.inr
        ⟨(hg.finalizes j k u hu).2 ⟨m, hm, hk⟩, (hincludes j m hm).2 hrun⟩)))

end WorkGraph

end Foreman
