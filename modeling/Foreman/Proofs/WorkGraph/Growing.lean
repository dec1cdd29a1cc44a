import Foreman.Proofs.WorkGraph.Populating
import Mathlib.Data.List.Perm.Subperm

/-!
# Work graphs only grow

Whatever populating does to a work graph, it takes no node out of the graph or out of the run, turns
no node into another, makes no required node dispensable and gives no key a second node
(`WorkGraph.Forward`). A batch leaves nothing in the queue, and all it was asked for is part of the
run and required afterwards (`schedule_asked`).
-/

namespace Foreman

theorem Successors.mem_get_insert {s : Successors} {relationship r : Relationship} {j k : Nat} :
    k ∈ (s.insert relationship j).get r ↔ k ∈ s.get r ∨ r = relationship ∧ k = j := by
  cases relationship <;> cases r <;>
    simp [Successors.insert, Successors.get, or_comm, eq_comm (a := j)]

/-- What may become of a node. -/
structure Node.Forward (n n' : Node) : Prop where
  work : n'.work = n.work
  scheduled : n.state.isScheduled = true → n'.state.isScheduled = true
  required : n.required = true → n'.required = true
  successors : ∀ r j, j ∈ n.successors.get r → j ∈ n'.successors.get r

theorem Node.Forward.same {n n' : Node} (hwork : n'.work = n.work) (hstate : n'.state = n.state)
    (hrequired : n'.required = n.required) (hsuccessors : n'.successors = n.successors) :
    n.Forward n' where
  work := hwork
  scheduled h := by rwa [hstate]
  required h := by rwa [hrequired]
  successors r j h := by rwa [hsuccessors]

theorem Node.Forward.refl (n : Node) : n.Forward n := .same rfl rfl rfl rfl

theorem Node.Forward.trans {n n' n'' : Node} (h : n.Forward n') (h' : n'.Forward n'') :
    n.Forward n'' :=
  ⟨h'.work.trans h.work, fun hs => h'.scheduled (h.scheduled hs),
    fun hr => h'.required (h.required hr), fun r j hj => h'.successors r j (h.successors r j hj)⟩

theorem Node.Forward.key {n n' : Node} (h : n.Forward n') : n'.key = n.key :=
  congrArg Work.key h.work

namespace WorkGraph

variable {g g' g'' : WorkGraph} {id : Nat} {f : Node → Node} {path : TaskPath}

/-- No two nodes have the same key. -/
def Distinct (g : WorkGraph) : Prop :=
  ∀ (i j : Nat) (n m : Node), g.nodes[i]? = some n → g.nodes[j]? = some m → n.key = m.key → i = j

/-- What may become of a graph. -/
structure Forward (g g' : WorkGraph) : Prop where
  phase : g'.phase = g.phase
  node : ∀ (id : Nat) (n : Node), g.nodes[id]? = some n → ∃ n', g'.nodes[id]? = some n' ∧
    n.Forward n'
  distinct : g.Distinct → g'.Distinct

theorem Forward.refl (g : WorkGraph) : g.Forward g := ⟨rfl, fun _ n hn => ⟨n, hn, .refl n⟩, id⟩

theorem Forward.trans (h : g.Forward g') (h' : g'.Forward g'') : g.Forward g'' where
  phase := h'.phase.trans h.phase
  node id n hn := by
    obtain ⟨n', hn', hf⟩ := h.node id n hn
    obtain ⟨n'', hn'', hf'⟩ := h'.node id n' hn'
    exact ⟨n'', hn'', hf.trans hf'⟩
  distinct hd := h'.distinct (h.distinct hd)

theorem Forward.of_nodes (hphase : g'.phase = g.phase) (hnodes : g'.nodes = g.nodes) :
    g.Forward g' where
  phase := hphase
  node id n hn := ⟨n, by rw [hnodes]; exact hn, .refl n⟩
  distinct hd := by
    rw [Distinct, hnodes]
    exact hd

theorem new_distinct (registry : Registry) : (new registry).Distinct := by
  intro i j n m hn
  simp [new] at hn

theorem Forward.size_le (h : g.Forward g') : g.nodes.size ≤ g'.nodes.size := by
  by_contra hlt
  obtain ⟨n', hn', _⟩ := h.node g'.nodes.size _ (Array.getElem?_eq_getElem (Nat.lt_of_not_le hlt))
  simp at hn'

/-- A key is found where it was found before. -/
theorem Forward.find? {key : NodeKey} (h : g.Forward g') (hf : g.find? key = some id) :
    g'.find? key = some id := by
  rw [WorkGraph.find?, Array.findIdx?_eq_some_iff_getElem] at hf ⊢
  obtain ⟨hlt, hkey, hfirst⟩ := hf
  have hkept : ∀ (k : Nat) (hk : k < g.nodes.size) (hk' : k < g'.nodes.size),
      g'.nodes[k].key = g.nodes[k].key := by
    intro k hk hk'
    obtain ⟨n', hn', hfwd⟩ := h.node k _ (Array.getElem?_eq_getElem hk)
    rw [Array.getElem?_eq_getElem hk', Option.some.injEq] at hn'
    rw [hn']
    exact hfwd.key
  have hle := h.size_le
  refine ⟨Nat.lt_of_lt_of_le hlt hle, ?_, fun k hk => ?_⟩
  · rw [hkept id hlt]
    exact hkey
  · rw [hkept k (Nat.lt_trans hk hlt)]
    exact hfirst k hk

theorem isRequired_iff : g.isRequired path = true ↔ ∃ id n, g.find? (.task path) = some id ∧
    g.nodes[id]? = some n ∧ n.state.isScheduled = true ∧ n.required = true := by
  rw [isRequired, taskNode?, Option.any_eq_true]
  simp only [Option.bind_eq_some_iff, Bool.and_eq_true]
  constructor
  · rintro ⟨n, ⟨id, hid, hn⟩, hs, hr⟩
    exact ⟨id, n, hid, hn, hs, hr⟩
  · rintro ⟨id, n, hid, hn, hs, hr⟩
    exact ⟨n, ⟨id, hid, hn⟩, hs, hr⟩

theorem isRequired_congr (h : g'.nodes = g.nodes) : g'.isRequired path = g.isRequired path := by
  rw [isRequired, isRequired, taskNode?, taskNode?, WorkGraph.find?, WorkGraph.find?, h]

theorem Forward.isRequired (h : g.Forward g') (hr : g.isRequired path = true) :
    g'.isRequired path = true := by
  obtain ⟨id, n, hid, hn, hs, hr⟩ := isRequired_iff.1 hr
  obtain ⟨n', hn', hf⟩ := h.node id n hn
  exact isRequired_iff.2 ⟨id, n', h.find? hid, hn', hf.scheduled hs, hf.required hr⟩

/-- What merging a batch may make of a graph; it leaves the queue alone. -/
structure Merged (g g' : WorkGraph) : Prop extends g.Forward g' where
  queued : g'.queued = g.queued
  plan : g'.plan = g.plan
  registry : g.registry.Informed g'.registry

theorem Merged.refl (g : WorkGraph) : g.Merged g := ⟨.refl g, rfl, rfl, .refl⟩

theorem Merged.trans (h : g.Merged g') (h' : g'.Merged g'') : g.Merged g'' :=
  ⟨h.toForward.trans h'.toForward, h'.queued.trans h.queued, h'.plan.trans h.plan,
    h.registry.trans h'.registry⟩

/-- Nothing else of a graph counts. -/
theorem Merged.congr (hphase : g'.phase = g.phase) (hnodes : g'.nodes = g.nodes)
    (hqueued : g'.queued = g.queued) (hplan : g'.plan = g.plan)
    (hregistry : g.registry.Informed g'.registry) : g.Merged g' :=
  ⟨.of_nodes hphase hnodes, hqueued, hplan, hregistry⟩

/-! ## The elementary changes -/

theorem modify_merged (hf : ∀ n, g.nodes[id]? = some n → n.Forward (f n)) :
    g.Merged (g.modify id f) where
  phase := rfl
  queued := rfl
  plan := rfl
  registry := .refl
  node k n hn := by
    rw [getElem?_modify]
    split
    · rename_i hk
      subst hk
      exact ⟨f n, by rw [hn]; rfl, hf n hn⟩
    · exact ⟨n, hn, .refl n⟩
  distinct hd := by
    have hold : ∀ (k : Nat) (n : Node), (g.modify id f).nodes[k]? = some n →
        ∃ m, g.nodes[k]? = some m ∧ n.key = m.key := by
      intro k n hn
      rw [getElem?_modify] at hn
      split at hn
      · rename_i hk
        subst hk
        obtain ⟨m, hm, rfl⟩ := Option.map_eq_some_iff.1 hn
        exact ⟨m, hm, (hf m hm).key⟩
      · exact ⟨n, hn, rfl⟩
    intro i j n m hn hm hkey
    obtain ⟨n', hn', hkn⟩ := hold i n hn
    obtain ⟨m', hm', hkm⟩ := hold j m hm
    exact hd i j n' m' hn' hm' (hkn.symm.trans (hkey.trans hkm))

/-- A key without a number has no node. -/
theorem key_ne_of_find?_eq_none {key : NodeKey} {n : Node} (hf : g.find? key = none)
    (hn : g.nodes[id]? = some n) : n.key ≠ key := by
  rw [find?, Array.findIdx?_eq_none_iff] at hf
  have := hf n (Array.mem_of_getElem? hn)
  simpa using this

@[simp] theorem registry_nodeFor (work : Work) : (g.nodeFor work).1.registry = g.registry := by
  rw [nodeFor]
  split <;> rfl

theorem nodeFor_merged (g : WorkGraph) (work : Work) : g.Merged (g.nodeFor work).1 where
  phase := by
    rw [nodeFor]
    split <;> rfl
  queued := by
    rw [nodeFor]
    split <;> rfl
  plan := by
    rw [nodeFor]
    split <;> rfl
  registry := by
    rw [registry_nodeFor]
    exact .refl
  node id n hn := ⟨n, getElem?_nodeFor hn, .refl n⟩
  distinct hd := by
    rw [nodeFor]
    split
    · exact hd
    · rename_i hnew
      have hplace : ∀ (k : Nat) (n : Node), (g.nodes.push (.new work))[k]? = some n →
          (k = g.nodes.size ∧ n.key = work.key) ∨ g.nodes[k]? = some n := by
        intro k n hn
        rw [Array.getElem?_push] at hn
        split at hn
        · cases hn
          exact .inl ⟨‹_›, rfl⟩
        · exact .inr hn
      intro i j n m hn hm hkey
      rcases hplace i n hn with ⟨rfl, hkn⟩ | hn <;> rcases hplace j m hm with ⟨rfl, hkm⟩ | hm
      · rfl
      · exact absurd (hkey.symm.trans hkn) (key_ne_of_find?_eq_none hnew hm)
      · exact absurd (hkey.trans hkm) (key_ne_of_find?_eq_none hnew hn)
      · exact hd i j n m hn hm hkey

theorem find?_nodeFor (g : WorkGraph) (work : Work) :
    (g.nodeFor work).1.find? work.key = some (g.nodeFor work).2 := by
  rw [nodeFor]
  split
  · assumption
  · rename_i hnew
    rw [find?, Array.findIdx?_eq_some_iff_getElem]
    refine ⟨by simp, by simp [Node.new, Node.key], fun k hk => ?_⟩
    rw [Array.getElem_push_lt hk]
    simpa using key_ne_of_find?_eq_none hnew (Array.getElem?_eq_getElem hk)

theorem addEdge_merged (g : WorkGraph) (id : Nat) (relationship : Relationship) (target : Work) :
    g.Merged (g.addEdge id relationship target) := by
  have hnode := g.nodeFor_merged target
  rw [addEdge]
  generalize g.nodeFor target = answer at hnode
  obtain ⟨g₁, succ⟩ := answer
  have hsucc : g.Merged (g₁.modify id fun n =>
      { n with successors := n.successors.insert relationship succ }) :=
    hnode.trans (modify_merged fun n _ => ⟨rfl, fun h => h, fun h => h, fun _ _ hj =>
      Successors.mem_get_insert.2 (.inl hj)⟩)
  cases relationship with
  | finalizedBy => exact hsucc.trans (modify_merged fun n _ => .same rfl rfl rfl rfl)
  | _ => exact hsucc

/-! ## Merging a batch -/

section Merging

variable {σ : Type} (cross : Option (CrossBuild σ)) {state : WorkGraph × σ}

theorem resolveRelationship_merged (id : Nat) (task : TaskDefinition) (state : WorkGraph × σ)
    (relationship : Relationship) :
    state.1.Merged (resolveRelationship cross id task state relationship).1 := by
  obtain ⟨g, others⟩ := state
  have hinformed := Resolution.resolve_informed cross task relationship g.registry others
  rw [resolveRelationship]
  generalize Resolution.resolve cross task relationship g.registry others = answer at hinformed
  obtain ⟨r, error⟩ := answer
  exact List.foldlRecOn _ _ (.congr rfl rfl rfl rfl hinformed)
    fun g₁ h target _ => h.trans (g₁.addEdge_merged id relationship target)

theorem resolveNode_merged (id : Nat) (state : WorkGraph × σ) :
    state.1.Merged (resolveNode cross id state).1 := by
  have hresolved : state.1.Merged (state.1.modify id fun n => { n with resolved := true }) :=
    modify_merged fun n _ => .same rfl rfl rfl rfl
  rw [resolveNode]
  split
  · exact .refl _
  · split
    · exact .refl _
    · dsimp only
      split
      · exact List.foldlRecOn (motive := fun state₁ : WorkGraph × σ => state.1.Merged state₁.1) _ _
          hresolved fun state₁ h relationship _ =>
            h.trans (resolveRelationship_merged cross id _ state₁ relationship)
      · exact hresolved

theorem enter_merged (g : WorkGraph) (ordinal : Nat) (entry : Nat × Bool) :
    g.Merged (g.enter ordinal entry) := by
  obtain ⟨id, required⟩ := entry
  have hrequired : g.Merged (g.modify id fun n => { n with required := n.required || required }) :=
    modify_merged fun n _ => ⟨rfl, fun h => h, fun h => by simp [h], fun _ _ h => h⟩
  rw [enter]
  dsimp only
  split
  · exact hrequired
  · refine (hrequired.trans (modify_merged
      (f := fun n => { n with state := .scheduled }.lowerOrdinal ordinal) fun n _ => ?_)).trans
      (.congr rfl rfl rfl rfl .refl)
    exact ⟨rfl, fun _ => rfl, fun h => h, fun _ _ h => h⟩

theorem lowerDependencies_merged (g : WorkGraph) (n : Node) : g.Merged (g.lowerDependencies n) := by
  rw [lowerDependencies]
  split
  · exact List.foldlRecOn _ _ (.refl g)
      fun g₁ h d _ => h.trans (modify_merged fun n _ => .same rfl rfl rfl rfl)
  · exact .refl g

theorem expand_merged (ordinal : Nat) (entry : Nat × Bool) (state : WorkGraph × σ) :
    state.1.Merged (expand cross ordinal entry state).1.1 := by
  have h := (state.1.enter_merged ordinal entry).trans (resolveNode_merged cross entry.1
    (state.1.enter ordinal entry, state.2))
  rw [expand]
  generalize resolveNode cross entry.1 (state.1.enter ordinal entry, state.2) = answer at h
  obtain ⟨g, others⟩ := answer
  dsimp only at h ⊢
  split
  · exact h.trans (lowerDependencies_merged g _)
  · exact h

/-- What working on one entry keeps, merging keeps: an entry is worked on only if it has a node and
is not settled. -/
theorem merge_keeps {Q : WorkGraph × σ → Prop} {ordinal : Nat}
    (hexpand : ∀ entry state, Q state → (state.1.nodes[entry.1]?).isSome = true →
      state.1.isSettled entry = false → Q (expand cross ordinal entry state).1)
    (fuel : Nat) (asked : List (Nat × Bool)) (h : Q state) :
    Q (merge cross ordinal fuel asked state) := by
  induction fuel generalizing asked state with
  | zero =>
    rw [merge]
    · exact h
    · simp
  | succ fuel ih =>
    rw [merge.eq_def]
    cases hdrop : asked.dropWhile state.1.isSettled with
    | nil =>
      simp only [hdrop]
      exact h
    | cons entry rest =>
      simp only [hdrop]
      have hopen : state.1.isSettled entry = false := by
        have := List.head?_dropWhile_not state.1.isSettled asked
        rw [hdrop] at this
        simpa using this
      refine ih _ (hexpand entry state h ?_ hopen)
      rw [isSettled] at hopen
      cases hn : state.1.nodes[entry.1]? with
      | none => simp [hn] at hopen
      | some n => rfl

theorem merge_merged (ordinal fuel : Nat) (asked : List (Nat × Bool)) (state : WorkGraph × σ) :
    state.1.Merged (merge cross ordinal fuel asked state).1 :=
  merge_keeps cross (Q := fun state' => state.1.Merged state'.1)
    (fun entry state' h _ _ => h.trans (expand_merged cross ordinal entry state')) fuel asked
    (.refl _)

/-- The node is part of the run, and required. -/
def IsRequiredAt (g : WorkGraph) (id : Nat) : Prop :=
  ∃ n, g.nodes[id]? = some n ∧ n.state.isScheduled = true ∧ n.required = true

theorem Forward.isRequiredAt (h : g.Forward g') (hr : g.IsRequiredAt id) : g'.IsRequiredAt id := by
  obtain ⟨n, hn, hs, hr⟩ := hr
  obtain ⟨n', hn', hf⟩ := h.node id n hn
  exact ⟨n', hn', hf.scheduled hs, hf.required hr⟩

theorem isRequiredAt_of_isSettled {n : Node} (hn : g.nodes[id]? = some n)
    (h : g.isSettled (id, true) = true) : g.IsRequiredAt id := by
  rw [isSettled] at h
  simp only [hn, Bool.not_true, Bool.or_false, Bool.and_eq_true] at h
  exact ⟨n, hn, h.1, h.2⟩

theorem enter_isRequiredAt {n : Node} (ordinal : Nat) (hn : g.nodes[id]? = some n) :
    (g.enter ordinal (id, true)).IsRequiredAt id := by
  rw [enter]
  simp only [hn, Option.any_some]
  split
  · rename_i hs
    refine ⟨{ n with required := n.required || true }, ?_, hs, Bool.or_true _⟩
    rw [getElem?_modify, if_pos rfl, hn]
    rfl
  · refine ⟨{ n with required := n.required || true, state := .scheduled }.lowerOrdinal ordinal, ?_,
      rfl, Bool.or_true _⟩
    rw [getElem?_modify, if_pos rfl, getElem?_modify, if_pos rfl, hn]
    rfl

theorem expand_isRequiredAt {n : Node} (ordinal : Nat) (hn : state.1.nodes[id]? = some n) :
    (expand cross ordinal (id, true) state).1.1.IsRequiredAt id := by
  have h := (resolveNode_merged cross id
    (state.1.enter ordinal (id, true), state.2)).isRequiredAt (enter_isRequiredAt ordinal hn)
  rw [expand]
  generalize resolveNode cross id (state.1.enter ordinal (id, true), state.2) = answer at h
  obtain ⟨g, others⟩ := answer
  dsimp only at h ⊢
  split
  · exact (lowerDependencies_merged g _).isRequiredAt h
  · exact h

/-- What comes first is worked on first, and each entry takes one step at most; induction is on the
fuel. -/
theorem merge_isRequiredAt (ordinal fuel : Nat) (batch : List Nat) (rest : List (Nat × Bool))
    (state : WorkGraph × σ) (hfuel : batch.length ≤ fuel)
    (hnodes : ∀ id ∈ batch, (state.1.nodes[id]?).isSome = true) :
    ∀ id ∈ batch,
      (merge cross ordinal fuel (batch.map (·, true) ++ rest) state).1.IsRequiredAt id := by
  induction batch generalizing fuel rest state with
  | nil => simp
  | cons first batch ih =>
    obtain ⟨n, hn⟩ := Option.isSome_iff_exists.1 (hnodes first (List.mem_cons_self ..))
    have hrest : ∀ id ∈ batch, (state.1.nodes[id]?).isSome = true :=
      fun id hid => hnodes id (List.mem_cons_of_mem _ hid)
    by_cases hs : state.1.isSettled (first, true) = true
    · -- the first entry is passed over, as if it had not been asked for
      have hskip : merge cross ordinal fuel ((first :: batch).map (·, true) ++ rest) state =
          merge cross ordinal fuel (batch.map (·, true) ++ rest) state := by
        rw [merge.eq_def, merge.eq_def cross ordinal fuel (batch.map (·, true) ++ rest)]
        simp only [List.map_cons, List.cons_append, List.dropWhile_cons, hs, if_true]
      rw [hskip]
      rintro id (_ | ⟨_, hid⟩)
      · exact (merge_merged cross ordinal fuel _ state).isRequiredAt
          (isRequiredAt_of_isSettled hn hs)
      · exact ih fuel rest state (Nat.le_of_succ_le hfuel) hrest id hid
    · obtain _ | fuel := fuel
      · simp at hfuel
      have hstep : merge cross ordinal (fuel + 1) ((first :: batch).map (·, true) ++ rest) state =
          merge cross ordinal fuel
            (batch.map (·, true) ++ (rest ++ (expand cross ordinal (first, true) state).2))
            (expand cross ordinal (first, true) state).1 := by
        rw [merge.eq_def]
        simp only [List.map_cons, List.cons_append, List.dropWhile_cons, hs, if_false,
          List.append_assoc, Bool.false_eq_true]
      rw [hstep]
      have hmerged := expand_merged cross ordinal (first, true) state
      rintro id (_ | ⟨_, hid⟩)
      · exact (merge_merged cross ordinal fuel _ _).isRequiredAt
          (expand_isRequiredAt cross ordinal hn)
      · refine ih fuel _ _ (Nat.le_of_succ_le_succ hfuel) (fun id hid => ?_) id hid
        obtain ⟨m, hm⟩ := Option.isSome_iff_exists.1 (hrest id hid)
        obtain ⟨m', hm', _⟩ := hmerged.node id m hm
        rw [hm']
        rfl

/-- A set lists each of its members once. -/
theorem nodup_toList (ids : NodeSet) : ids.toList.Nodup :=
  (Std.TreeSet.distinct_toList (t := ids)).imp fun h he =>
    h (Std.LawfulEqCmp.compare_eq_iff_eq.2 he)

/-- Merging has fuel for every queued node. -/
theorem length_queued_le (hnum : ∀ id ∈ g.queued, id < g.nodes.size) :
    g.queued.toList.length ≤ g.nodes.size := by
  have hnodup := nodup_toList g.queued
  have hsub : g.queued.toList ⊆ List.range g.nodes.size :=
    fun id hid => List.mem_range.2 (hnum id (Std.TreeSet.mem_toList.1 hid))
  simpa using (List.subperm_of_subset hnodup hsub).length_le

end Merging

/-! ## Requests and batches -/

/-- What is queued has a node. -/
def Numbered (g : WorkGraph) : Prop := ∀ id ∈ g.queued, id < g.nodes.size

/-- The task is part of the run and required, or it is queued to become so. -/
def Asked (g : WorkGraph) (path : TaskPath) : Prop :=
  ∃ id, g.find? (.task path) = some id ∧ (id ∈ g.queued ∨ g.IsRequiredAt id)

theorem Asked.congr (h : g.Asked path) (hnodes : g'.nodes = g.nodes)
    (hqueued : g'.queued = g.queued) :
    g'.Asked path := by
  rw [Asked, find?, hqueued]
  simp only [IsRequiredAt, hnodes]
  exact h

theorem asked_of_isRequired (h : g.isRequired path = true) : g.Asked path := by
  obtain ⟨id, n, hid, hn, hs, hr⟩ := isRequired_iff.1 h
  exact ⟨id, hid, .inr ⟨n, hn, hs, hr⟩⟩

theorem Asked.isRequired (h : g.Asked path) (hqueued : g.queued.isEmpty = true) :
    g.isRequired path = true := by
  obtain ⟨id, hid, hq | ⟨n, hn, hs, hr⟩⟩ := h
  · exact absurd hq (Std.TreeSet.isEmpty_iff_forall_not_mem.1 hqueued id)
  · exact isRequired_iff.2 ⟨id, n, hid, hn, hs, hr⟩

/-- What requests may make of a graph. -/
structure Requested (g g' : WorkGraph) : Prop extends g.Forward g' where
  registry : g'.registry = g.registry
  plan : g'.plan = g.plan
  queued : ∀ id ∈ g.queued, id ∈ g'.queued
  numbered : g.Numbered → g'.Numbered

theorem Requested.refl (g : WorkGraph) : g.Requested g :=
  ⟨.refl g, rfl, rfl, fun _ h => h, id⟩

theorem Requested.trans (h : g.Requested g') (h' : g'.Requested g'') : g.Requested g'' where
  toForward := h.toForward.trans h'.toForward
  registry := h'.registry.trans h.registry
  plan := h'.plan.trans h.plan
  queued id hid := h'.queued id (h.queued id hid)
  numbered hn := h'.numbered (h.numbered hn)

theorem Requested.asked (h : g.Requested g') (ha : g.Asked path) : g'.Asked path := by
  obtain ⟨id, hid, hq | hr⟩ := ha
  · exact ⟨id, h.find? hid, .inl (h.queued id hq)⟩
  · exact ⟨id, h.find? hid, .inr (h.isRequiredAt hr)⟩

theorem isRequiredAt_of_settled
    (h : ((g.nodes[id]?).any fun n => n.state.isScheduled && n.required) = true) :
    g.IsRequiredAt id := by
  obtain ⟨n, hn, hs⟩ := (Option.any_eq_true _ _).1 h
  rw [Bool.and_eq_true] at hs
  exact ⟨n, hn, hs.1, hs.2⟩

theorem forward_enqueued (n : Node) : n.Forward n.enqueued where
  work := by rw [n.enqueued_eq]
  scheduled hs := n.isScheduled_enqueued.trans hs
  required hr := by rwa [n.enqueued_eq]
  successors r j hj := by rwa [n.enqueued_eq]

theorem enqueued_merged (g : WorkGraph) (id : Nat) : g.Merged (g.modify id Node.enqueued) :=
  modify_merged fun n _ => forward_enqueued n

/-- A request for a declared task is taken while the graph is populated. -/
theorem queue_ok (hphase : g.phase = .populating) (hkeyed : g.registry.Keyed)
    (hdeclared : g.registry.contains path = true) :
    ∃ g', g.queue path = .ok g' ∧ g.Requested g' ∧ g'.Asked path := by
  obtain ⟨g', hok⟩ : ∃ g', g.queue path = .ok g' := by
    rw [Registry.contains, ← Std.TreeMap.isSome_getElem?_eq_contains] at hdeclared
    obtain ⟨task, ht⟩ := Option.isSome_iff_exists.1 hdeclared
    rw [queue, require, if_pos hphase, Registry.get?, ht]
    exact ⟨_, rfl⟩
  refine ⟨g', hok, ?_⟩
  obtain ⟨task, g₁, id, ht, hg₁, hg'⟩ := queue_cases hok
  have hnode := g.nodeFor_merged (.task task)
  have hfound := g.find?_nodeFor (.task task)
  have hkey : Work.key (.task task) = .task path := congrArg NodeKey.task (hkeyed path task ht)
  have hregistry := registry_nodeFor (g := g) (.task task)
  rw [hg₁] at hnode hregistry
  rw [hg₁, hkey] at hfound
  have hmerged := enqueued_merged g₁ id
  have hsame : (g₁.modify id Node.enqueued).registry = g.registry := hregistry
  have hwaiting : (g₁.modify id Node.enqueued).queued = g₁.queued := rfl
  generalize g₁.modify id Node.enqueued = g₂ at hg' hmerged hsame hwaiting
  have hboth := hnode.trans hmerged
  have hfind := hmerged.find? hfound
  have hnumbered : g.Numbered → g₂.Numbered := by
    intro hnum k hk
    rw [hboth.queued] at hk
    exact Nat.lt_of_lt_of_le (hnum k hk) hboth.size_le
  have hrequested : g.Requested g₂ :=
    ⟨hboth.toForward, hsame, hboth.plan, fun k hk => by rw [hboth.queued]; exact hk, hnumbered⟩
  obtain ⟨hsettled, rfl⟩ | ⟨-, rfl⟩ := hg'
  · exact ⟨hrequested, id, hfind, .inr (isRequiredAt_of_settled hsettled)⟩
  · have hlt : id < g₂.nodes.size := by
      obtain ⟨n, hn, _⟩ := find?_spec hfind
      exact (Array.getElem?_eq_some_iff.1 hn).1
    refine ⟨hrequested.trans ⟨⟨rfl, fun k n hn => ⟨n, hn, .refl n⟩, fun hd => hd⟩, rfl, rfl,
      fun k hk => ?_, fun hnum k hk => ?_⟩, id, hfind, .inl Std.TreeSet.mem_insert_self⟩
    · exact Std.TreeSet.mem_insert.2 (.inr (hwaiting ▸ hk))
    · rcases Std.TreeSet.mem_insert.1 hk with hk | hk
      · rw [← Std.LawfulEqCmp.compare_eq_iff_eq.1 hk]
        exact hlt
      · exact hnum k (hwaiting.symm ▸ hk)

theorem queue_forward (hok : g.queue path = .ok g') : g.Forward g' := by
  obtain ⟨task, g₁, id, -, hg₁, hg'⟩ := queue_cases hok
  have hnode := g.nodeFor_merged (.task task)
  rw [hg₁] at hnode
  have hboth := (hnode.trans (enqueued_merged g₁ id)).toForward
  obtain ⟨-, rfl⟩ | ⟨-, rfl⟩ := hg'
  · exact hboth
  · exact hboth.trans ⟨rfl, fun k n hn => ⟨n, hn, .refl n⟩, fun hd => hd⟩

theorem queue_error (h : ¬ (g.phase = .populating ∧ g.registry.contains path = true)) :
    ∃ e, g.queue path = .error e := by
  rw [queue, require]
  split
  · rename_i hphase
    have hmissing : g.registry.get? path = none :=
      Std.TreeMap.getElem?_eq_none fun hc => h ⟨hphase, hc⟩
    exact ⟨_, by rw [hmissing]; rfl⟩
  · exact ⟨_, rfl⟩

/-- What queueing a list of tasks does: it stops before the first that is not declared. -/
structure QueuedUp (g : WorkGraph) (paths : List TaskPath)
    (answer : WorkGraph × Option GraphError) :
    Prop where
  requested : g.Requested answer.1
  asked : ∀ path ∈ paths.takeWhile g.registry.contains, answer.1.Asked path
  declared : answer.2 = none ↔ ∀ path ∈ paths, g.registry.contains path = true

theorem queueAll_spec (hphase : g.phase = .populating) (hkeyed : g.registry.Keyed)
    (paths : List TaskPath) : g.QueuedUp paths (g.queueAll paths) := by
  induction paths generalizing g with
  | nil => exact ⟨.refl g, by simp, by simp [queueAll, eachUntilError]⟩
  | cons path paths ih =>
    by_cases hdeclared : g.registry.contains path = true
    · obtain ⟨g₁, hq, hreq, hasked⟩ := queue_ok hphase hkeyed hdeclared
      have hrest := ih (g := g₁) (hreq.phase.trans hphase) (by rw [hreq.registry]; exact hkeyed)
      have hstep : g.queueAll (path :: paths) = g₁.queueAll paths := by
        simp only [queueAll, eachUntilError, hq]
      rw [hstep]
      refine ⟨hreq.trans hrest.requested, ?_, ?_⟩
      · rw [List.takeWhile_cons, if_pos hdeclared]
        rintro p (_ | ⟨_, hp⟩)
        · exact hrest.requested.asked hasked
        · exact hrest.asked p (by rw [hreq.registry]; exact hp)
      · rw [hrest.declared, hreq.registry]
        simp [hdeclared]
    · obtain ⟨e, he⟩ := queue_error (g := g) fun h => hdeclared h.2
      have hstep : g.queueAll (path :: paths) = (g, some e) := by
        simp only [queueAll, eachUntilError, he]
      rw [hstep]
      refine ⟨.refl g, by simp [hdeclared], by simp [hdeclared]⟩

section Batches

variable {σ : Type} (cross : Option (CrossBuild σ)) {others others' : σ} {grown : Bool}

theorem scheduleQueued_ok (hphase : g.phase = .populating) (others : σ) :
    ∃ answer, scheduleQueued cross (g, others) = .ok answer := by
  simp only [scheduleQueued, require, if_pos hphase, bind, Except.bind]
  split <;> exact ⟨_, rfl⟩

/-- A batch empties the queue, and what was queued is part of the run and required. -/
theorem scheduleQueued_spec (hnum : g.Numbered)
    (hok : scheduleQueued cross (g, others) = .ok (grown, g', others')) :
    g.Forward g' ∧ g.registry.Informed g'.registry ∧ g'.plan = g.plan ∧
      g'.queued.isEmpty = true ∧ ∀ id ∈ g.queued, g'.IsRequiredAt id := by
  obtain ⟨-, ⟨hempty, hsame⟩ | hbatch⟩ := scheduleQueued_cases hok
  · cases hsame
    exact ⟨.refl g, .refl, rfl, hempty, fun id hid =>
      absurd hid (Std.TreeSet.isEmpty_iff_forall_not_mem.1 hempty id)⟩
  · have hstart : g.Forward { g with queued := ∅, nextOrdinal := g.nextOrdinal + 1 } :=
      ⟨rfl, fun id n hn => ⟨n, hn, .refl n⟩, fun hd => hd⟩
    have hmerged := merge_merged cross g.nextOrdinal (2 * g.nodeBound)
      (g.queued.toList.map (·, true))
      ({ g with queued := ∅, nextOrdinal := g.nextOrdinal + 1 }, others)
    have hrequired := merge_isRequiredAt cross g.nextOrdinal (2 * g.nodeBound)
      g.queued.toList [] ({ g with queued := ∅, nextOrdinal := g.nextOrdinal + 1 }, others)
      (by
        have := length_queued_le hnum
        simp only [nodeBound]
        omega)
      (fun id hid => by
        rw [Array.getElem?_eq_getElem (hnum id (Std.TreeSet.mem_toList.1 hid))]
        rfl)
    rw [List.append_nil, ← hbatch] at hrequired
    rw [← hbatch] at hmerged
    exact ⟨hstart.trans hmerged.toForward, hmerged.registry, hmerged.plan,
      by rw [hmerged.queued]; rfl, fun id hid => hrequired id (Std.TreeSet.mem_toList.2 hid)⟩

/-- What scheduling a list of tasks does, also where it fails. -/
structure Scheduled (g : WorkGraph) (paths : List TaskPath) (result : Except GraphError Bool)
    (g' : WorkGraph) : Prop extends g.Forward g' where
  registry : g.registry.Informed g'.registry
  plan : g'.plan = g.plan
  numbered : g'.Numbered
  kept : ∀ path, g.Asked path → g'.Asked path
  asked : ∀ path ∈ paths.takeWhile g.registry.contains, g'.Asked path
  ok : (∃ grown, result = .ok grown) ↔ ∀ path ∈ paths, g.registry.contains path = true
  empty : (∃ grown, result = .ok grown) → g'.queued.isEmpty = true

theorem schedule_spec (hphase : g.phase = .populating) (hkeyed : g.registry.Keyed)
    (hnum : g.Numbered) (paths : List TaskPath) (others : σ) :
    g.Scheduled paths (schedule cross paths (g, others)).1
      (schedule cross paths (g, others)).2.1 := by
  have hq := queueAll_spec hphase hkeyed paths
  rw [schedule]
  dsimp only
  generalize g.queueAll paths = answer at hq
  obtain ⟨g₁, error⟩ := answer
  obtain ⟨hreq, hqueued, hdeclared⟩ := hq
  dsimp only at hreq hqueued hdeclared
  cases error with
  | some e =>
    refine ⟨hreq.toForward, by rw [hreq.registry]; exact .refl, hreq.plan, hreq.numbered hnum,
      fun path hp => hreq.asked hp, hqueued, ?_, ?_⟩
    · rw [← hdeclared]
      simp
    · rintro ⟨grown, h⟩
      cases h
  | none =>
    obtain ⟨⟨grown, g', others'⟩, hok⟩ :=
      scheduleQueued_ok cross (hreq.phase.trans hphase) others
    obtain ⟨hforward, hinformed, hplan, hempty, hrequired⟩ :=
      scheduleQueued_spec cross (hreq.numbered hnum) hok
    have hasked : ∀ path, g₁.Asked path → g'.Asked path := by
      rintro path ⟨id, hid, hq | hr⟩
      · exact ⟨id, hforward.find? hid, .inr (hrequired id hq)⟩
      · exact ⟨id, hforward.find? hid, .inr (hforward.isRequiredAt hr)⟩
    simp only [hok]
    refine ⟨hreq.toForward.trans hforward, by rw [← hreq.registry]; exact hinformed,
      hplan.trans hreq.plan, ?_, fun path hp => hasked path (hreq.asked hp),
      fun path hp => hasked path (hqueued path hp), ?_, fun _ => hempty⟩
    · exact fun id hid => absurd hid (Std.TreeSet.isEmpty_iff_forall_not_mem.1 hempty id)
    · rw [← hdeclared]
      simp

end Batches

end WorkGraph

end Foreman
