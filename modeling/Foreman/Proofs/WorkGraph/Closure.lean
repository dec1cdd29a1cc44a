import Foreman.Proofs.WorkGraph.Extent

/-!
# Batches bring in all that they need

Working on one node changes no other but in its batch and in what it finalizes (`expand_spares`).
Each step of a merge takes a node further than it was, and no node can be taken further than to be
required, so a merge comes to its end before its fuel does (`merge_drains`). Then all that was asked
for is settled, and so is what the nodes of the run bring in (`merge_closed`).
-/

namespace Foreman

/-- The nodes differ at most in their batch, in what they finalize, and in being queued. -/
structure Node.Alike (n n' : Node) : Prop where
  work : n'.work = n.work
  scheduled : n'.state.isScheduled = n.state.isScheduled
  required : n'.required = n.required
  successors : n'.successors = n.successors
  resolved : n'.resolved = n.resolved

theorem Node.Alike.refl (n : Node) : n.Alike n := ⟨rfl, rfl, rfl, rfl, rfl⟩

theorem Node.Alike.trans {n n' n'' : Node} (h : n.Alike n') (h' : n'.Alike n'') : n.Alike n'' where
  work := h'.work.trans h.work
  scheduled := h'.scheduled.trans h.scheduled
  required := h'.required.trans h.required
  successors := h'.successors.trans h.successors
  resolved := h'.resolved.trans h.resolved

theorem Node.Alike.forward {n n' : Node} (h : n.Alike n') : n.Forward n' where
  work := h.work
  scheduled hs := by rwa [h.scheduled]
  required hr := by rwa [h.required]
  successors r j hj := by rwa [h.successors]

theorem Node.Alike.broughtIn_eq {n n' : Node} (h : n.Alike n') :
    WorkGraph.broughtIn n' = WorkGraph.broughtIn n := by
  rw [WorkGraph.broughtIn, WorkGraph.broughtIn, h.successors, h.required]

/-- How far a node has come: it is part of the run, and it is required. -/
def Node.standing (n : Node) : Nat :=
  n.state.isScheduled.toNat + (n.state.isScheduled && n.required).toNat

theorem Node.standing_le_two (n : Node) : n.standing ≤ 2 := by
  rw [standing]
  cases n.state.isScheduled <;> cases n.required <;> decide

theorem Node.Forward.standing_le {n n' : Node} (h : n.Forward n') : n.standing ≤ n'.standing := by
  have hs := h.scheduled
  have hr := h.required
  rw [standing, standing]
  revert hs hr
  cases n.state.isScheduled <;> cases n.required <;> cases n'.state.isScheduled <;>
    cases n'.required <;> simp

/-- A node that is settled now and was not has come further. -/
theorem Node.Forward.standing_lt {n n' : Node} (h : n.Forward n') {wanted : Bool}
    (hopen : (n.state.isScheduled && (n.required || !wanted)) = false)
    (hs : (n'.state.isScheduled && (n'.required || !wanted)) = true) :
    n.standing < n'.standing := by
  have hscheduled := h.scheduled
  have hrequired := h.required
  rw [standing, standing]
  revert hscheduled hrequired hopen hs
  cases n.state.isScheduled <;> cases n.required <;> cases n'.state.isScheduled <;>
    cases n'.required <;> cases wanted <;> simp

namespace WorkGraph

variable {g g' g'' : WorkGraph} {id : Nat} {n : Node} {f : Node → Node} {spared : Nat → Prop}

/-! ## Nodes that are left alone -/

/-- The spared nodes of the later graph were as they are, or they are new. -/
structure Spares (g : WorkGraph) (spared : Nat → Prop) (g' : WorkGraph) : Prop where
  size : g.nodes.size ≤ g'.nodes.size
  node : ∀ (k : Nat) (n' : Node), spared k → g'.nodes[k]? = some n' → ∃ n, n.Alike n' ∧
    (g.nodes[k]? = some n ∨ g.nodes.size ≤ k ∧ ∃ work, n = .new work)

theorem Spares.refl (g : WorkGraph) : g.Spares spared g :=
  ⟨Nat.le_refl _, fun _ n _ hn => ⟨n, .refl n, .inl hn⟩⟩

theorem Spares.trans (h : g.Spares spared g') (h' : g'.Spares spared g'') :
    g.Spares spared g'' where
  size := Nat.le_trans h.size h'.size
  node k n'' hk hn'' := by
    obtain ⟨n', ha', hn' | ⟨hsize, work, rfl⟩⟩ := h'.node k n'' hk hn''
    · obtain ⟨n, ha, hn⟩ := h.node k n' hk hn'
      exact ⟨n, ha.trans ha', hn⟩
    · exact ⟨_, ha', .inr ⟨Nat.le_trans h.size hsize, work, rfl⟩⟩

/-- A spared node of the run was part of it before. -/
theorem Spares.scheduled {n' : Node} (h : g.Spares spared g') (hk : spared id)
    (hn' : g'.nodes[id]? = some n') (hs : n'.state.isScheduled = true) :
    ∃ n, g.nodes[id]? = some n ∧ n.Alike n' ∧ n.state.isScheduled = true := by
  obtain ⟨n, ha, hn | ⟨_, work, rfl⟩⟩ := h.node id n' hk hn'
  · exact ⟨n, hn, ha, ha.scheduled.symm.trans hs⟩
  · rw [ha.scheduled] at hs
    simp [Node.new, NodeState.isScheduled] at hs

theorem Spares.of_nodes (h : g'.nodes = g.nodes) : g.Spares spared g' := by
  refine ⟨Nat.le_of_eq (by rw [h]), fun k n _ hn => ⟨n, .refl n, .inl ?_⟩⟩
  rw [← h]
  exact hn

theorem modify_spares (hf : ∀ n : Node, spared id → n.Alike (f n)) :
    g.Spares spared (g.modify id f) := by
  refine ⟨by simp [modify], fun k n' hk hn' => ?_⟩
  rw [getElem?_modify] at hn'
  split at hn'
  · rename_i hid
    subst hid
    obtain ⟨n, hn, rfl⟩ := Option.map_eq_some_iff.1 hn'
    exact ⟨n, hf n hk, .inl hn⟩
  · exact ⟨n', .refl n', .inl hn'⟩

theorem nodeFor_spares (g : WorkGraph) (work : Work) (spared : Nat → Prop) :
    g.Spares spared (g.nodeFor work).1 := by
  refine ⟨(g.nodeFor_merged work).size_le, fun k n' _ hn' => ?_⟩
  rcases g.getElem?_nodeFor_eq work k with he | ⟨hsize, _, he⟩
  · exact ⟨n', .refl n', .inl (he.symm.trans hn')⟩
  · rw [he, Option.some.injEq] at hn'
    exact ⟨n', .refl n', .inr ⟨Nat.le_of_eq hsize.symm, work, hn'.symm⟩⟩

theorem addEdge_spares (g : WorkGraph) (id : Nat) (relationship : Relationship) (target : Work) :
    g.Spares (· ≠ id) (g.addEdge id relationship target) := by
  have hnode := g.nodeFor_spares target (· ≠ id)
  rw [addEdge]
  generalize g.nodeFor target = answer at hnode
  obtain ⟨g₁, succ⟩ := answer
  have hsucc : g.Spares (· ≠ id) (g₁.modify id fun n =>
      { n with successors := n.successors.insert relationship succ }) :=
    hnode.trans (modify_spares fun n h => absurd rfl h)
  cases relationship with
  | finalizedBy => exact hsucc.trans (modify_spares fun n _ => ⟨rfl, rfl, rfl, rfl, rfl⟩)
  | _ => exact hsucc

theorem enter_spares (g : WorkGraph) (ordinal : Nat) (entry : Nat × Bool) :
    g.Spares (· ≠ entry.1) (g.enter ordinal entry) := by
  obtain ⟨id, required⟩ := entry
  have hrequired : g.Spares (· ≠ id)
      (g.modify id fun n => { n with required := n.required || required }) :=
    modify_spares fun n h => absurd rfl h
  rw [enter]
  dsimp only
  split
  · exact hrequired
  · exact (hrequired.trans (modify_spares
      (f := fun n => { n with state := .scheduled }.lowerOrdinal ordinal)
      fun n h => absurd rfl h)).trans (.of_nodes rfl)

theorem lowerDependencies_spares (g : WorkGraph) (n : Node) (spared : Nat → Prop) :
    g.Spares spared (g.lowerDependencies n) := by
  rw [lowerDependencies]
  split
  · exact List.foldlRecOn _ _ (.refl g)
      fun g₁ h d _ => h.trans (modify_spares fun n _ => ⟨rfl, rfl, rfl, rfl, rfl⟩)
  · exact .refl g

/-! ## What edges do not touch -/

/-- The node of a number has the property. -/
def HasAt (g : WorkGraph) (P : Node → Prop) (id : Nat) : Prop := ∃ n, g.nodes[id]? = some n ∧ P n

/-- The property does not look at the edges of a node. -/
def Blind (P : Node → Prop) : Prop :=
  ∀ (n : Node) (successors : Successors) (finalizes : NodeSet), P n →
    P { n with successors, finalizes }

section HasAt

variable {P : Node → Prop} {k : Nat}

theorem HasAt.modify (h : g.HasAt P id) (hf : ∀ n, P n → P (f n)) : (g.modify k f).HasAt P id := by
  obtain ⟨n, hn, hp⟩ := h
  rw [HasAt, getElem?_modify, hn]
  split
  · exact ⟨f n, rfl, hf n hp⟩
  · exact ⟨n, rfl, hp⟩

theorem HasAt.addEdge (hP : Blind P) (h : g.HasAt P id) (relationship : Relationship)
    (target : Work) : (g.addEdge k relationship target).HasAt P id := by
  have hnode : (g.nodeFor target).1.HasAt P id := by
    obtain ⟨n, hn, hp⟩ := h
    exact ⟨n, getElem?_nodeFor hn, hp⟩
  rw [WorkGraph.addEdge]
  generalize g.nodeFor target = answer at hnode
  obtain ⟨g₁, succ⟩ := answer
  have hsucc : (g₁.modify k fun n =>
      { n with successors := n.successors.insert relationship succ }).HasAt P id :=
    HasAt.modify hnode fun n hp => hP n _ _ hp
  cases relationship with
  | finalizedBy => exact hsucc.modify fun n hp => hP n _ _ hp
  | _ => exact hsucc

end HasAt

section Merging

variable {σ : Type} (cross : Option (CrossBuild σ)) {state : WorkGraph × σ}

theorem HasAt.resolveRelationship {P : Node → Prop} {k : Nat} (hP : Blind P)
    (h : state.1.HasAt P id) (task : TaskDefinition) (relationship : Relationship) :
    (resolveRelationship cross k task state relationship).1.HasAt P id := by
  obtain ⟨g, others⟩ := state
  rw [WorkGraph.resolveRelationship]
  generalize Resolution.resolve cross task relationship g.registry others = answer
  obtain ⟨r, error⟩ := answer
  exact List.foldlRecOn (motive := fun g : WorkGraph => g.HasAt P id) _ _ h
    fun g hg target _ => hg.addEdge hP relationship target

theorem resolveRelationship_spares (id : Nat) (task : TaskDefinition) (state : WorkGraph × σ)
    (relationship : Relationship) :
    state.1.Spares (· ≠ id) (resolveRelationship cross id task state relationship).1 := by
  obtain ⟨g, others⟩ := state
  rw [resolveRelationship]
  generalize Resolution.resolve cross task relationship g.registry others = answer
  obtain ⟨r, error⟩ := answer
  exact List.foldlRecOn _ _ (.of_nodes rfl)
    fun g₁ h target _ => h.trans (g₁.addEdge_spares id relationship target)

theorem resolveNode_spares (id : Nat) (state : WorkGraph × σ) :
    state.1.Spares (· ≠ id) (resolveNode cross id state).1 := by
  have hresolved : state.1.Spares (· ≠ id)
      (state.1.modify id fun n => { n with resolved := true }) :=
    modify_spares fun n h => absurd rfl h
  rw [resolveNode]
  split
  · exact .refl _
  · split
    · exact .refl _
    · dsimp only
      split
      · exact List.foldlRecOn
          (motive := fun state₁ : WorkGraph × σ => state.1.Spares (· ≠ id) state₁.1) _ _ hresolved
          fun state₁ h relationship _ =>
            h.trans (resolveRelationship_spares cross id _ state₁ relationship)
      · exact hresolved

/-- Work on a node up to what it brings in. -/
theorem expand_eq (ordinal : Nat) (entry : Nat × Bool) (hn : state.1.nodes[entry.1]? = some n) :
    ∃ n', (resolveNode cross entry.1 (state.1.enter ordinal entry, state.2)).1.nodes[entry.1]? =
        some n' ∧
      expand cross ordinal entry state =
        (((resolveNode cross entry.1 (state.1.enter ordinal entry, state.2)).1.lowerDependencies n',
          (resolveNode cross entry.1 (state.1.enter ordinal entry, state.2)).2), broughtIn n') := by
  obtain ⟨n₁, hn₁, _⟩ := (state.1.enter_merged ordinal entry).node entry.1 n hn
  obtain ⟨n₂, hn₂, _⟩ := (resolveNode_merged cross entry.1
    (state.1.enter ordinal entry, state.2)).node entry.1 n₁ hn₁
  refine ⟨n₂, hn₂, ?_⟩
  rw [expand]
  generalize resolveNode cross entry.1 (state.1.enter ordinal entry, state.2) = answer at hn₂
  obtain ⟨g, others⟩ := answer
  simp only at hn₂ ⊢
  rw [hn₂]

theorem expand_spares (ordinal : Nat) (entry : Nat × Bool) (state : WorkGraph × σ) :
    state.1.Spares (· ≠ entry.1) (expand cross ordinal entry state).1.1 := by
  have h := (state.1.enter_spares ordinal entry).trans (resolveNode_spares cross entry.1
    (state.1.enter ordinal entry, state.2))
  rw [expand]
  generalize resolveNode cross entry.1 (state.1.enter ordinal entry, state.2) = answer at h
  obtain ⟨g, others⟩ := answer
  dsimp only at h ⊢
  split
  · exact h.trans (lowerDependencies_spares g _ _)
  · exact h

theorem nodes_scheduled_enter (hn : g.nodes[id]? = some n) (ordinal : Nat) (required : Bool) :
    ∃ n', (g.enter ordinal (id, required)).nodes[id]? = some n' ∧ n'.work = n.work ∧
      n'.resolved = n.resolved ∧ n'.state.isScheduled = true ∧
      n'.required = (n.required || required) := by
  rw [enter]
  simp only [hn, Option.any_some]
  split
  · rename_i hs
    refine ⟨{ n with required := n.required || required }, ?_, rfl, rfl, hs, rfl⟩
    rw [getElem?_modify, if_pos rfl, hn]
    rfl
  · refine ⟨{ n with required := n.required || required, state := .scheduled }.lowerOrdinal ordinal,
      ?_, rfl, rfl, rfl, rfl⟩
    rw [getElem?_modify, if_pos rfl, getElem?_modify, if_pos rfl, hn]
    rfl

def IsResolvedAt (g : WorkGraph) (id : Nat) : Prop :=
  ∃ n, g.nodes[id]? = some n ∧ n.resolved = true

theorem resolveNode_isResolvedAt (state : WorkGraph × σ) (hn : state.1.nodes[id]? = some n) :
    (resolveNode cross id state).1.IsResolvedAt id := by
  rw [resolveNode, hn]
  dsimp only
  split
  · exact ⟨n, hn, by assumption⟩
  · have hstart : (state.1.modify id fun n => { n with resolved := true }).IsResolvedAt id :=
      ⟨{ n with resolved := true }, by rw [getElem?_modify, if_pos rfl, hn]; rfl, rfl⟩
    split
    · exact List.foldlRecOn (motive := fun state : WorkGraph × σ => state.1.IsResolvedAt id) _ _
        hstart fun state hs relationship _ =>
          HasAt.resolveRelationship cross (fun _ _ _ hr => hr) hs _ relationship
    · exact hstart

theorem HasAt.resolveNode {P : Node → Prop} {k : Nat} (hP : Blind P)
    (hr : ∀ n : Node, P n → P { n with resolved := true }) (h : state.1.HasAt P id) :
    (resolveNode cross k state).1.HasAt P id := by
  rw [WorkGraph.resolveNode]
  split
  · exact h
  · split
    · exact h
    · have hstart : (state.1.modify k fun n => { n with resolved := true }).HasAt P id :=
        h.modify hr
      dsimp only
      split
      · exact List.foldlRecOn (motive := fun state : WorkGraph × σ => state.1.HasAt P id) _ _ hstart
          fun state hs relationship _ => hs.resolveRelationship cross hP _ relationship
      · exact hstart

/-- What working on an entry makes of its node, which brings in the given entries next. -/
structure WorkedOn (n : Node) (required : Bool) (next : List (Nat × Bool)) (m : Node) : Prop where
  work : m.work = n.work
  scheduled : m.state.isScheduled = true
  required : m.required = (n.required || required)
  resolved : m.resolved = true
  next : next = broughtIn m

theorem expand_node {entry : Nat × Bool} (hn : state.1.nodes[entry.1]? = some n) (ordinal : Nat) :
    ∃ m, (expand cross ordinal entry state).1.1.nodes[entry.1]? = some m ∧
      WorkedOn n entry.2 (expand cross ordinal entry state).2 m := by
  obtain ⟨n₁, hn₁, hw₁, _, hs₁, hr₁⟩ := nodes_scheduled_enter hn ordinal entry.2
  have hentered : (state.1.enter ordinal entry).HasAt (fun m => m.work = n.work ∧
      m.state.isScheduled = true ∧ m.required = (n.required || entry.2)) entry.1 :=
    ⟨n₁, hn₁, hw₁, hs₁, hr₁⟩
  obtain ⟨n₂, hn₂, hw₂, hs₂, hr₂⟩ := @HasAt.resolveNode entry.1 _ cross
    (state.1.enter ordinal entry, state.2) _ entry.1 (fun _ _ _ h => h) (fun _ h => h) hentered
  obtain ⟨n₃, hn₃, hresolved⟩ :=
    resolveNode_isResolvedAt cross (state.1.enter ordinal entry, state.2) hn₁
  cases hn₂.symm.trans hn₃
  obtain ⟨n₃, hn₃, he⟩ := expand_eq cross ordinal entry hn
  cases hn₂.symm.trans hn₃
  rw [he]
  obtain ⟨m, hm, _⟩ := (lowerDependencies_merged (resolveNode cross entry.1
    (state.1.enter ordinal entry, state.2)).1 n₂).node entry.1 n₂ hn₂
  obtain ⟨n₃, ha, hn₃ | ⟨hsize, _⟩⟩ := (lowerDependencies_spares _ n₂ fun _ => True).node _ m
    trivial hm
  · cases hn₂.symm.trans hn₃
    exact ⟨m, hm, ha.work.trans hw₂, ha.scheduled.trans hs₂, ha.required.trans hr₂,
      ha.resolved.trans hresolved, ha.broughtIn_eq.symm⟩
  · exact absurd (Array.getElem?_eq_some_iff.1 hn₂).1 (Nat.not_lt.2 hsize)

/-! ## Tidy graphs -/

/-- Edges lead to nodes, tasks that nodes stand for are declared, and all that nodes stand for comes
from a supply of which the stock of the registry is part. -/
structure Drawn (supply : Work → Prop) (g : WorkGraph) : Prop where
  wired : g.Wired
  tasks : ∀ (i : Nat) n task, g.nodes[i]? = some n → n.work = .task task → g.registry.Declares task
  works : ∀ (i : Nat) n, g.nodes[i]? = some n → supply n.work
  stock : ∀ work, g.registry.Knows work → supply work

/-- Edges lead to nodes, and nodes stand for declared tasks and for others that the registry
knows. -/
structure Tidy (g : WorkGraph) : Prop where
  wired : g.Wired
  known : g.Known
  declared : ∀ (i : Nat) n task, g.nodes[i]? = some n → n.work = .task task →
    g.registry.Declares task

variable {supply : Work → Prop}

theorem Tidy.drawn (h : g.Tidy) : g.Drawn g.registry.Knows where
  wired := h.wired
  tasks := h.declared
  works := h.known
  stock _ h := h

theorem Drawn.mono (h : g.Drawn supply) {supply' : Work → Prop}
    (hle : ∀ work, supply work → supply' work) : g.Drawn supply' where
  wired := h.wired
  tasks := h.tasks
  works i n hn := hle n.work (h.works i n hn)
  stock work hw := hle work (h.stock work hw)

theorem Drawn.tidy {r : Registry} (h : g.Drawn r.Knows) (hr : r.SameStock g.registry) : g.Tidy where
  wired := h.wired
  known i n hn := (hr.knows_iff n.work).2 (h.works i n hn)
  declared := h.tasks

theorem new_tidy (registry : Registry) : (new registry).Tidy where
  wired := new_wired _
  known := new_known _
  declared i n task hn := by simp [new] at hn

theorem Drawn.congr (h : g.Drawn supply) (hnodes : g.SameWiring g')
    (hregistry : g.registry.Informed g'.registry) : g'.Drawn supply := by
  have hback : ∀ (i : Nat) n, g'.nodes[i]? = some n → ∃ n₀, g.nodes[i]? = some n₀ ∧
      n.work = n₀.work := by
    intro i n hn
    have hi := hnodes i
    rw [hn, Option.map_some, eq_comm, Option.map_eq_some_iff] at hi
    obtain ⟨n₀, hn₀, hw⟩ := hi
    exact ⟨n₀, hn₀, (Prod.mk.inj hw).1.symm⟩
  refine ⟨hnodes.wired h.wired, fun i n task hn hw => ?_, fun i n hn => ?_,
    fun work hw => h.stock work ((hregistry.sameStock.knows_iff work).1 hw)⟩
  · obtain ⟨n₀, hn₀, hwork⟩ := hback i n hn
    exact (h.tasks i n₀ task hn₀ (hwork.symm.trans hw)).informed hregistry
  · obtain ⟨n₀, hn₀, hwork⟩ := hback i n hn
    rw [hwork]
    exact h.works i n₀ hn₀

theorem Tidy.congr (h : g.Tidy) (hnodes : g.SameWiring g')
    (hregistry : g.registry.Informed g'.registry) : g'.Tidy :=
  (h.drawn.congr hnodes hregistry).tidy hregistry.sameStock

theorem Drawn.size_le (h : g.Drawn supply) {keys : List NodeKey}
    (hkeys : ∀ work, supply work → work.key ∈ keys) : g.nodes.size ≤ keys.length :=
  h.wired.distinct.size_le fun i n hn => hkeys n.work (h.works i n hn)

@[simp] theorem registry_enter (g : WorkGraph) (ordinal : Nat) (entry : Nat × Bool) :
    (g.enter ordinal entry).registry = g.registry := by
  rw [enter]
  dsimp only
  split <;> rfl

@[simp] theorem registry_lowerDependencies (g : WorkGraph) (n : Node) :
    (g.lowerDependencies n).registry = g.registry := by
  rw [lowerDependencies]
  split
  · exact List.foldlRecOn (motive := fun g₁ : WorkGraph => g₁.registry = g.registry) _ _ rfl
      fun _ h _ _ => h
  · rfl

@[simp] theorem registry_addEdge (g : WorkGraph) (id : Nat) (relationship : Relationship)
    (target : Work) : (g.addEdge id relationship target).registry = g.registry := by
  have h := registry_nodeFor (g := g) target
  rw [addEdge]
  generalize g.nodeFor target = answer at h
  cases relationship <;> exact h

/-- A node found for some work stands for what a node stood for before, or for that work. -/
theorem work_nodeFor {target : Work} {k : Nat} (hn : (g.nodeFor target).1.nodes[k]? = some n) :
    (∃ n₀, g.nodes[k]? = some n₀ ∧ n.work = n₀.work) ∨ n.work = target := by
  rcases g.getElem?_nodeFor_eq target k with he | ⟨_, _, he⟩
  · exact .inl ⟨n, he.symm.trans hn, rfl⟩
  · rw [he, Option.some.injEq] at hn
    exact .inr (by rw [← hn]; rfl)

theorem Drawn.nodeFor (h : g.Drawn supply) {target : Work} (ht : supply target)
    (hd : ∀ task, target = .task task → g.registry.Declares task) :
    (g.nodeFor target).1.Drawn supply := by
  refine ⟨h.wired.nodeFor target, fun k m task hm hw => ?_, fun k m hm => ?_,
    fun work hw => h.stock work (by rwa [registry_nodeFor] at hw)⟩
  · rw [registry_nodeFor]
    rcases work_nodeFor hm with ⟨m₀, hm₀, hwork⟩ | hwork
    · exact h.tasks k m₀ task hm₀ (hwork.symm.trans hw)
    · exact hd task (hwork.symm.trans hw)
  · rcases work_nodeFor hm with ⟨m₀, hm₀, hwork⟩ | hwork
    · rw [hwork]
      exact h.works k m₀ hm₀
    · rw [hwork]
      exact ht

theorem Drawn.addEdge (h : g.Drawn supply) (hn : g.nodes[id]? = some n)
    (relationship : Relationship) {target : Work} (ht : supply target)
    (hd : ∀ task, target = .task task → g.registry.Declares task) :
    (g.addEdge id relationship target).Drawn supply := by
  have hnode := h.nodeFor ht hd
  have hlinked := g.addEdge_linked id relationship target
  refine ⟨h.wired.addEdge hn relationship target, fun k m task hm hw => ?_, fun k m hm => ?_,
    fun work hw => h.stock work (by rwa [registry_addEdge] at hw)⟩
  · obtain ⟨m₀, hm₀, hwork, _⟩ := hlinked.exists hm
    have := hnode.tasks k m₀ task hm₀ (hwork.symm.trans hw)
    rwa [registry_nodeFor, ← registry_addEdge g id relationship target] at this
  · obtain ⟨m₀, hm₀, hwork, _⟩ := hlinked.exists hm
    rw [hwork]
    exact hnode.works k m₀ hm₀

/-- What a node of the graph refers to is drawn from the stock. -/
theorem Drawn.resolveRelationship (h : state.1.Drawn supply) {task : TaskDefinition}
    (hn : state.1.nodes[id]? = some n) (hw : n.work = .task task) (relationship : Relationship) :
    (resolveRelationship cross id task state relationship).1.Drawn supply := by
  obtain ⟨g, others⟩ := state
  have hr := Resolution.resolve_known cross relationship others
    (h.tasks id n task hn hw).mem_allTasks
  rw [WorkGraph.resolveRelationship]
  generalize Resolution.resolve cross task relationship g.registry others = answer at hr
  obtain ⟨r, error⟩ := answer
  let g₁ : WorkGraph := { g with registry := r.registry, rejected := g.rejected ++ error.toList }
  have hstart : g₁.Drawn supply := h.congr (.of_nodes rfl) hr.informed
  have hfold := List.foldlRecOn
    (motive := fun g₂ : WorkGraph => g₂.Drawn supply ∧ g₁.Merged g₂ ∧ g₂.registry = r.registry)
    r.targets (fun g target => g.addEdge id relationship target) ⟨hstart, .refl g₁, rfl⟩
    fun g₂ h₂ target ht => by
      obtain ⟨hdrawn, hmerged, hregistry⟩ := h₂
      obtain ⟨n', hn', _⟩ := hmerged.node id n hn
      refine ⟨hdrawn.addEdge hn' relationship (h.stock target (hr.targets target ht)) ?_,
        hmerged.trans (g₂.addEdge_merged id relationship target),
        (registry_addEdge _ _ _ _).trans hregistry⟩
      rintro task rfl
      rw [hregistry]
      exact hr.declared task ht
  exact hfold.1

theorem Drawn.resolveNode (state : WorkGraph × σ) (h : state.1.Drawn supply) (id : Nat) :
    (resolveNode cross id state).1.Drawn supply := by
  rw [WorkGraph.resolveNode]
  split
  · exact h
  · rename_i n hn
    split
    · exact h
    · have hstart : (state.1.modify id fun n => { n with resolved := true }).Drawn supply :=
        h.congr (.modify fun _ => rfl) .refl
      have hn₁ : (state.1.modify id fun n => { n with resolved := true }).nodes[id]? =
          some { n with resolved := true } := by
        rw [getElem?_modify, if_pos rfl, hn]
        rfl
      dsimp only
      split
      · rename_i task hw
        have hfold :=
          List.foldlRecOn (motive := fun state₁ : WorkGraph × σ => state₁.1.Drawn supply ∧
            (state.1.modify id fun n => { n with resolved := true }).Merged state₁.1)
          Relationship.all (WorkGraph.resolveRelationship cross id task)
          (b := (state.1.modify id fun n => { n with resolved := true }, state.2))
          ⟨hstart, .refl _⟩ fun state₁ h₁ relationship _ => by
            obtain ⟨hdrawn, hmerged⟩ := h₁
            obtain ⟨n', hn', hf⟩ := hmerged.node id _ hn₁
            exact ⟨hdrawn.resolveRelationship cross hn' (hf.work.trans hw) relationship,
              hmerged.trans (resolveRelationship_merged cross id task state₁ relationship)⟩
        exact hfold.1
      · exact hstart

theorem Drawn.expand (h : state.1.Drawn supply) (ordinal : Nat) (entry : Nat × Bool) :
    (expand cross ordinal entry state).1.1.Drawn supply := by
  have hsame : ∀ {g g' : WorkGraph}, g.SameWiring g' → g'.registry = g.registry →
      g.Drawn supply → g'.Drawn supply :=
    fun hw hr ht => ht.congr hw (by rw [hr]; exact .refl)
  have henter := hsame (state.1.enter_sameWiring ordinal entry) (registry_enter _ _ _) h
  have hresolve := henter.resolveNode cross (state.1.enter ordinal entry, state.2) entry.1
  rw [WorkGraph.expand]
  generalize WorkGraph.resolveNode cross entry.1 (state.1.enter ordinal entry, state.2) = answer
    at hresolve
  obtain ⟨g, others⟩ := answer
  dsimp only at hresolve ⊢
  split
  · exact hsame (lowerDependencies_sameWiring g _) (registry_lowerDependencies _ _) hresolve
  · exact hresolve

/-- What a node of the graph refers to is found tidily. -/
theorem Tidy.resolveRelationship (h : state.1.Tidy) {task : TaskDefinition}
    (hn : state.1.nodes[id]? = some n) (hw : n.work = .task task) (relationship : Relationship) :
    (resolveRelationship cross id task state relationship).1.Tidy :=
  (h.drawn.resolveRelationship cross hn hw relationship).tidy
    (resolveRelationship_merged cross id task state relationship).registry.sameStock

theorem Tidy.expand (h : state.1.Tidy) (ordinal : Nat) (entry : Nat × Bool) :
    (expand cross ordinal entry state).1.1.Tidy :=
  (h.drawn.expand cross ordinal entry).tidy
    (expand_merged cross ordinal entry state).registry.sameStock

end Merging

/-! ## How far the nodes have come -/

def standing (g : WorkGraph) : Nat := total Node.standing g.nodes.toList

/-- A node that has come further than it had, if it was there at all. -/
theorem Forward.standing_lt (h : g.Forward g') {n' : Node} (hn' : g'.nodes[id]? = some n')
    (hpos : 0 < n'.standing) (hlt : ∀ n, g.nodes[id]? = some n → n.standing < n'.standing) :
    g.standing < g'.standing := by
  refine total_lt_of_getElem? (fun i n hn => ?_) (i := id) (by simpa using hn') hpos
    fun n hn => hlt n (by simpa using hn)
  obtain ⟨m, hm, hf⟩ := h.node i n (by simpa using hn)
  exact ⟨m, by simpa using hm, hf.standing_le⟩

theorem standing_le (g : WorkGraph) : g.standing ≤ 2 * g.nodes.size := by
  have h := total_le_total Node.standing_le_two g.nodes.toList
  rw [total_const, Array.length_toList] at h
  exact h

/-- While some node is not required the graph has not come to the end. -/
theorem standing_lt (hn : g.nodes[id]? = some n) (hlt : n.standing < 2) :
    g.standing < 2 * g.nodes.size := by
  have hmem : n ∈ g.nodes.toList := Array.mem_toList_iff.2 (Array.mem_of_getElem? hn)
  have h := total_add_le_total (k := 1) Node.standing_le_two hmem hlt
  rw [total_const, Array.length_toList] at h
  exact h

/-! ## Merging to the end -/

theorem isSettled_forward (h : g.Forward g') {entry : Nat × Bool} (hlt : entry.1 < g.nodes.size)
    (hs : g.isSettled entry = true) : g'.isSettled entry = true := by
  obtain ⟨n', hn', hf⟩ := h.node entry.1 _ (Array.getElem?_eq_getElem hlt)
  rw [isSettled, Array.getElem?_eq_getElem hlt] at hs
  rw [isSettled, hn']
  simp only [Bool.and_eq_true, Bool.or_eq_true] at hs ⊢
  exact ⟨hf.scheduled hs.1, hs.2.imp hf.required id⟩

/-- What the nodes of the run bring in is settled, or it is still asked for. -/
def Brought (g : WorkGraph) (asked : List (Nat × Bool)) : Prop :=
  ∀ (i : Nat) (n : Node), g.nodes[i]? = some n → n.state.isScheduled = true →
    ∀ entry ∈ broughtIn n, g.isSettled entry = true ∨ entry ∈ asked

theorem Wired.lt_of_broughtIn (h : g.Wired) (hn : g.nodes[id]? = some n) {entry : Nat × Bool}
    (he : entry ∈ broughtIn n) : entry.1 < g.nodes.size := by
  rw [broughtIn, List.mem_append, List.mem_map, List.mem_map] at he
  rcases he with ⟨k, hk, rfl⟩ | ⟨k, hk, rfl⟩
  · exact h.successors id n .finalizedBy k hn (Std.TreeSet.mem_toList.1 hk)
  · exact h.successors id n .dependency k hn (Std.TreeSet.mem_toList.1 hk)

/-- What a node brings in are its finalizers, not required, and its dependencies, required if it
is. -/
theorem Wired.refers_of_broughtIn (h : g.Wired) (hn : g.nodes[id]? = some n) {entry : Nat × Bool}
    (he : entry ∈ broughtIn n) : ∃ m, g.nodes[entry.1]? = some m ∧
      (g.Refers n.key .finalizedBy m.key ∧ entry.2 = false ∨
        g.Refers n.key .dependency m.key ∧ entry.2 = n.required) := by
  have hm := Array.getElem?_eq_getElem (h.lt_of_broughtIn hn he)
  refine ⟨_, hm, ?_⟩
  rw [broughtIn, List.mem_append, List.mem_map, List.mem_map] at he
  rcases he with ⟨k, hk, rfl⟩ | ⟨k, hk, rfl⟩
  · exact .inl ⟨⟨id, k, n, _, hn, rfl, hm, rfl, Std.TreeSet.mem_toList.1 hk⟩, rfl⟩
  · exact .inr ⟨⟨id, k, n, _, hn, rfl, hm, rfl, Std.TreeSet.mem_toList.1 hk⟩, rfl⟩

/-- What a node of the run brings in is part of the run, and required where that is asked. -/
theorem Brought.includes (h : g.Brought []) (hw : g.Wired) {x : NodeKey} (hx : g.Includes x)
    {i : Nat} (hn : g.nodes[i]? = some n) (hkey : n.key = x) {entry : Nat × Bool}
    (he : entry ∈ broughtIn n) {m : Node} (hm : g.nodes[entry.1]? = some m) :
    m.state.isScheduled = true ∧ (entry.2 = true → m.required = true) := by
  subst hkey
  have hsettled := (h i n hn (hx.unique hw.distinct hn) _ he).resolve_right List.not_mem_nil
  rw [isSettled, hm] at hsettled
  simp only [Bool.and_eq_true, Bool.or_eq_true, Bool.not_eq_true'] at hsettled
  exact ⟨hsettled.1, fun hr => hsettled.2.resolve_right (by simp [hr])⟩

theorem Brought.includes_finalizer (h : g.Brought []) (hw : g.Wired) {x y : NodeKey}
    (hx : g.Includes x) (hr : g.Refers x .finalizedBy y) : g.Includes y := by
  obtain ⟨i, j, n, m, hn, hkey, hm, rfl, hj⟩ := hr
  have hentry : (j, false) ∈ broughtIn n :=
    List.mem_append_left _ (List.mem_map_of_mem (Std.TreeSet.mem_toList.2 hj))
  exact ⟨j, m, hm, rfl, (h.includes hw hx hn hkey hentry hm).1⟩

theorem Brought.includes_dependency (h : g.Brought []) (hw : g.Wired) {x y : NodeKey}
    (hx : g.Includes x) (hr : g.Refers x .dependency y) : g.Includes y := by
  obtain ⟨i, j, n, m, hn, hkey, hm, rfl, hj⟩ := hr
  have hentry : (j, n.required) ∈ broughtIn n :=
    List.mem_append_right _ (List.mem_map_of_mem (Std.TreeSet.mem_toList.2 hj))
  exact ⟨j, m, hm, rfl, (h.includes hw hx hn hkey hentry hm).1⟩

section Batches

variable {σ : Type} (cross : Option (CrossBuild σ)) {state : WorkGraph × σ} {entry : Nat × Bool}

theorem isSettled_expand (hn : state.1.nodes[entry.1]? = some n) (ordinal : Nat) :
    (expand cross ordinal entry state).1.1.isSettled entry = true := by
  obtain ⟨m, hm, hafter⟩ := expand_node cross hn ordinal
  rw [isSettled, hm]
  dsimp only
  rw [hafter.scheduled, hafter.required]
  cases entry.2 <;> simp

/-- Working on an entry that is asked for takes its node further. -/
theorem standing_expand (hn : state.1.nodes[entry.1]? = some n)
    (hopen : state.1.isSettled entry = false) (ordinal : Nat) :
    state.1.standing < (expand cross ordinal entry state).1.1.standing := by
  have hforward := (expand_merged cross ordinal entry state).toForward
  obtain ⟨n', hn', hf⟩ := hforward.node entry.1 n hn
  have hsettled := isSettled_expand cross hn ordinal
  rw [isSettled, hn'] at hsettled
  rw [isSettled, hn] at hopen
  have hlt := hf.standing_lt hopen hsettled
  refine hforward.standing_lt hn' (Nat.lt_of_le_of_lt (Nat.zero_le _) hlt) fun m hm => ?_
  cases hm.symm.trans hn
  exact hlt

/-- What the node brings in takes the place of its entry. -/
theorem Brought.expand {rest : List (Nat × Bool)} (h : state.1.Wired)
    (hb : state.1.Brought (entry :: rest)) (hn : state.1.nodes[entry.1]? = some n) (ordinal : Nat) :
    (expand cross ordinal entry state).1.1.Brought
    (rest ++ (expand cross ordinal entry state).2) := by
  have hforward := (expand_merged cross ordinal entry state).toForward
  have hspares := expand_spares cross ordinal entry state
  have hsettled := isSettled_expand cross hn ordinal
  intro i m' hm' hs e hmem
  by_cases hi : i = entry.1
  · subst hi
    obtain ⟨m, hm, hafter⟩ := expand_node cross hn ordinal
    cases hm.symm.trans hm'
    rw [hafter.next]
    exact .inr (List.mem_append_right _ hmem)
  · obtain ⟨m, hm, ha, hs⟩ := hspares.scheduled hi hm' hs
    rw [ha.broughtIn_eq] at hmem
    rcases hb i m hm hs e hmem with hset | hasked
    · exact .inl (isSettled_forward hforward (h.lt_of_broughtIn hm hmem) hset)
    · rcases List.mem_cons.1 hasked with rfl | hrest
      · exact .inl hsettled
      · exact .inr (List.mem_append_left _ hrest)

/-- Entries at the front that are settled need not be asked for. -/
theorem Brought.dropWhile {asked : List (Nat × Bool)} (h : g.Brought asked) :
    g.Brought (asked.dropWhile g.isSettled) := by
  intro i n hn hs e he
  rcases h i n hn hs e he with hset | hasked
  · exact .inl hset
  · rw [← List.takeWhile_append_dropWhile (p := g.isSettled) (l := asked)] at hasked
    exact (List.mem_append.1 hasked).imp (List.all_eq_true.1 List.all_takeWhile e) id

/-- The first entry that is not settled has a node that can come further. -/
theorem exists_open {asked rest : List (Nat × Bool)}
    (h : asked.dropWhile g.isSettled = entry :: rest) :
    g.isSettled entry = false ∧ ∃ n, g.nodes[entry.1]? = some n ∧ n.standing < 2 := by
  have hopen : g.isSettled entry = false := by
    have := List.head?_dropWhile_not g.isSettled asked
    rw [h] at this
    simpa using this
  refine ⟨hopen, ?_⟩
  rw [isSettled] at hopen
  cases hn : g.nodes[entry.1]? with
  | none => simp [hn] at hopen
  | some n =>
    simp only [hn] at hopen
    refine ⟨n, rfl, ?_⟩
    rw [Node.standing]
    revert hopen
    cases n.state.isScheduled <;> cases n.required <;> cases entry.2 <;> simp

/-- What working on one entry keeps, merging keeps, if what is asked for has a property that working
on entries keeps and passes on. Induction is on the fuel. -/
theorem merge_keeps_asked {Q : WorkGraph × σ → Prop} {A : WorkGraph × σ → Nat × Bool → Prop}
    {ordinal : Nat}
    (hexpand : ∀ entry state, Q state → A state entry → (∃ n, state.1.nodes[entry.1]? = some n) →
      Q (expand cross ordinal entry state).1 ∧
        (∀ e, A state e → A (expand cross ordinal entry state).1 e) ∧
        ∀ e ∈ (expand cross ordinal entry state).2,
          A (expand cross ordinal entry state).1 e)
    (fuel : Nat) (asked : List (Nat × Bool)) (h : Q state) (ha : ∀ e ∈ asked, A state e) :
    Q (merge cross ordinal fuel asked state) := by
  induction fuel generalizing asked state with
  | zero =>
    rw [merge]
    · exact h
    · simp
  | succ fuel ih =>
    rw [merge.eq_def]
    cases hdrop : asked.dropWhile state.1.isSettled with
    | nil =>
      simp only [hdrop]
      exact h
    | cons entry rest =>
      simp only [hdrop]
      obtain ⟨-, n, hn, -⟩ := exists_open hdrop
      have hleft : ∀ e ∈ entry :: rest, A state e := by
        intro e he
        rw [← hdrop] at he
        exact ha e ((List.dropWhile_sublist _).subset he)
      obtain ⟨hQ, hold, hnew⟩ := hexpand entry state h (hleft entry (List.mem_cons_self ..)) ⟨n, hn⟩
      refine ih _ hQ fun e he => ?_
      rcases List.mem_append.1 he with he | he
      · exact hold e (hleft e (List.mem_cons_of_mem _ he))
      · exact hnew e he

/-- Working on what is asked for, first come first served, comes to its end here: when all that is
left is settled. -/
inductive Drains (ordinal : Nat) : List (Nat × Bool) → WorkGraph × σ → WorkGraph × σ → Prop
  | settled {asked : List (Nat × Bool)} {state : WorkGraph × σ}
      (h : asked.dropWhile state.1.isSettled = []) : Drains ordinal asked state state
  | step {asked rest : List (Nat × Bool)} {entry : Nat × Bool} {state state' : WorkGraph × σ}
      (h : asked.dropWhile state.1.isSettled = entry :: rest)
      (hrest : Drains ordinal (rest ++ (expand cross ordinal entry state).2)
        (expand cross ordinal entry state).1 state') : Drains ordinal asked state state'

/-- A merge with enough fuel comes to its end. Induction is on the fuel: each step takes a node
further, and the supply has keys for no more nodes than that. -/
theorem merge_drains {supply : Work → Prop} {keys : List NodeKey}
    (hkeys : ∀ work, supply work → work.key ∈ keys) (ordinal fuel : Nat) (asked : List (Nat × Bool))
    (state : WorkGraph × σ) (h : state.1.Drawn supply)
    (hfuel : 2 * keys.length ≤ fuel + state.1.standing) :
    Drains cross ordinal asked state (merge cross ordinal fuel asked state) := by
  induction fuel generalizing asked state with
  | zero =>
    rw [merge]
    · cases hdrop : asked.dropWhile state.1.isSettled with
      | nil => exact .settled hdrop
      | cons entry rest =>
        obtain ⟨_, n, hn, hlt⟩ := exists_open hdrop
        have := standing_lt hn hlt
        have := h.size_le hkeys
        omega
    · simp
  | succ fuel ih =>
    rw [merge.eq_def]
    cases hdrop : asked.dropWhile state.1.isSettled with
    | nil =>
      simp only [hdrop]
      exact .settled hdrop
    | cons entry rest =>
      simp only [hdrop]
      obtain ⟨hopen, n, hn, _⟩ := exists_open hdrop
      have hfurther := standing_expand cross hn hopen ordinal
      refine .step hdrop (ih _ _ (h.expand cross ordinal entry) ?_)
      omega

/-- What the nodes of the run bring in is settled at the end. -/
theorem Drains.brought {supply : Work → Prop} {ordinal : Nat} {asked : List (Nat × Bool)}
    {state' : WorkGraph × σ} (hdrains : Drains cross ordinal asked state state')
    (h : state.1.Drawn supply) (hb : state.1.Brought asked) : state'.1.Brought [] := by
  induction hdrains with
  | settled hdrop => exact hdrop ▸ hb.dropWhile
  | @step asked rest entry state state' hdrop _ ih =>
    obtain ⟨_, n, hn, _⟩ := exists_open hdrop
    exact ih (h.expand cross ordinal entry) ((hdrop ▸ hb.dropWhile).expand cross h.wired hn ordinal)

/-- A merge with enough fuel ends with nothing asked for. -/
theorem merge_closed {supply : Work → Prop} {keys : List NodeKey}
    (hkeys : ∀ work, supply work → work.key ∈ keys) (ordinal fuel : Nat) (asked : List (Nat × Bool))
    (state : WorkGraph × σ) (h : state.1.Drawn supply)
    (hfuel : 2 * keys.length ≤ fuel + state.1.standing) (hb : state.1.Brought asked) :
    (merge cross ordinal fuel asked state).1.Brought [] :=
  (merge_drains cross hkeys ordinal fuel asked state h hfuel).brought cross h hb

end Batches

end WorkGraph

end Foreman
