import Foreman.WorkGraph.Freeze
import Foreman.Proofs.WorkGraph.Reaching

/-!
# Ordinals

Merging a batch gives its number to nodes that have no ordinal yet and changes no ordinal that is
there (`Stamped.restamped_expand`). For when the batch begins only nodes of the run have ordinals,
and whatever they depend on came with them, so that also a finalizer that becomes required finds all
that it needs no later than itself (`Stamped.expand`). What joins the run is reached from what was
queued (`Rested.scheduleQueued`). So between batches just the nodes of the run have ordinals, and
none has a later one than what depends on it (`Built.rested`).
-/

namespace Foreman

namespace WorkGraph

variable {g g' g'' : WorkGraph} {id i j k o : Nat} {n : Node} {f : Node → Node} {key : NodeKey}
  {roots : List TaskPath}

/-! ## The ordinal of a node -/

def InRun (g : WorkGraph) (id : Nat) : Prop := g.HasAt (fun n => n.state.isScheduled = true) id

theorem ordinalOf_of_getElem? (hn : g.nodes[id]? = some n) : g.ordinalOf id = n.ordinal := by
  rw [ordinalOf, hn, Option.bind_some]

theorem inRun_iff (hn : g.nodes[id]? = some n) : g.InRun id ↔ n.state.isScheduled = true := by
  rw [InRun, HasAt, hn]
  simp

theorem ordinalOf_congr (h : g'.nodes = g.nodes) (j : Nat) : g'.ordinalOf j = g.ordinalOf j := by
  rw [ordinalOf, ordinalOf, h]

theorem ordinalOf_modify_eq (id j : Nat) : (g.modify id f).ordinalOf j =
    if id = j then (g.nodes[j]?).bind fun n => (f n).ordinal else g.ordinalOf j := by
  rw [ordinalOf, getElem?_modify]
  split
  · cases g.nodes[j]? <;> rfl
  · rfl

theorem ordinalOf_modify (hf : ∀ n, (f n).ordinal = n.ordinal) (id j : Nat) :
    (g.modify id f).ordinalOf j = g.ordinalOf j := by
  simp only [ordinalOf_modify_eq, hf]
  exact ite_self _

theorem ordinalOf_nodeFor (work : Work) (j : Nat) :
    (g.nodeFor work).1.ordinalOf j = g.ordinalOf j := by
  rcases g.getElem?_nodeFor_eq work j with he | ⟨_, hnone, he⟩
  · rw [ordinalOf, he, ordinalOf]
  · rw [ordinalOf, he, ordinalOf, hnone]
    rfl

theorem ordinalOf_addEdge (relationship : Relationship) (target : Work) (j : Nat) :
    (g.addEdge id relationship target).ordinalOf j = g.ordinalOf j := by
  have hnode := g.ordinalOf_nodeFor target j
  rw [addEdge]
  generalize g.nodeFor target = answer at hnode
  obtain ⟨g₁, succ⟩ := answer
  have hsucc : (g₁.modify id fun n =>
      { n with successors := n.successors.insert relationship succ }).ordinalOf j =
        g.ordinalOf j := by
    rw [ordinalOf_modify, hnode]
    exact fun _ => rfl
  cases relationship with
  | finalizedBy =>
    dsimp only
    rw [ordinalOf_modify, hsucc]
    exact fun _ => rfl
  | _ => exact hsucc

/-- A node that had an ordinal keeps it if that is early enough, one that had none gets it. -/
theorem ordinalOf_lowerOrdinal (hlt : id < g.nodes.size)
    (hle : ∀ o', g.ordinalOf id = some o' → o' ≤ o)
    (j : Nat) : (g.modify id (·.lowerOrdinal o)).ordinalOf j =
      if j = id then some ((g.ordinalOf j).getD o) else g.ordinalOf j := by
  rw [ordinalOf, getElem?_modify]
  by_cases hj : j = id
  · subst hj
    rw [if_pos rfl, if_pos rfl]
    have hn := Array.getElem?_eq_getElem hlt
    rw [ordinalOf_of_getElem? hn] at hle ⊢
    rw [hn]
    cases ho : g.nodes[j].ordinal with
    | none => simp [Node.lowerOrdinal, ho]
    | some o' => simp [Node.lowerOrdinal, ho, hle o' ho]
  · rw [if_neg (Ne.symm hj), if_neg hj, ordinalOf]

theorem size_modify : (g.modify id f).nodes.size = g.nodes.size := by simp [modify]

theorem ordinalOf_foldl_lowerOrdinal (ids : List Nat) (hlt : ∀ d ∈ ids, d < g.nodes.size)
    (hle : ∀ d ∈ ids, ∀ o', g.ordinalOf d = some o' → o' ≤ o) (j : Nat) :
    (ids.foldl (fun g d => g.modify d (·.lowerOrdinal o)) g).ordinalOf j =
      if j ∈ ids then some ((g.ordinalOf j).getD o) else g.ordinalOf j := by
  induction ids generalizing g with
  | nil => simp
  | cons d ids ih =>
    have hfirst := ordinalOf_lowerOrdinal (hlt d (List.mem_cons_self ..))
      (hle d (List.mem_cons_self ..))
    rw [List.foldl_cons, ih]
    · simp only [hfirst, List.mem_cons]
      by_cases hd : j = d <;> by_cases hj : j ∈ ids <;> simp [hd, hj]
    · intro c hc
      rw [size_modify]
      exact hlt c (List.mem_cons_of_mem d hc)
    · intro c hc o' ho'
      rw [hfirst] at ho'
      split at ho'
      · rename_i hcd
        cases hold : g.ordinalOf c with
        | none => simp_all
        | some o'' =>
          have := hle c (List.mem_cons_of_mem d hc) o'' hold
          simp_all
      · exact hle c (List.mem_cons_of_mem d hc) o' ho'

theorem ordinalOf_lowerDependencies (ho : n.ordinal = some o)
    (hlt : ∀ d ∈ n.successors.dependencies, d < g.nodes.size)
    (hle : ∀ d ∈ n.successors.dependencies, ∀ o', g.ordinalOf d = some o' → o' ≤ o) (j : Nat) :
    (g.lowerDependencies n).ordinalOf j =
      if j ∈ n.successors.dependencies then some ((g.ordinalOf j).getD o) else g.ordinalOf j := by
  simp only [lowerDependencies, ho]
  rw [ordinalOf_foldl_lowerOrdinal]
  · simp only [Std.TreeSet.mem_toList]
  · exact fun d hd => hlt d (Std.TreeSet.mem_toList.1 hd)
  · exact fun d hd => hle d (Std.TreeSet.mem_toList.1 hd)

section Resolving

variable {σ : Type} (cross : Option (CrossBuild σ))

theorem ordinalOf_resolveRelationship (task : TaskDefinition) (state : WorkGraph × σ)
    (relationship : Relationship) (j : Nat) :
    (resolveRelationship cross id task state relationship).1.ordinalOf j = state.1.ordinalOf j := by
  obtain ⟨g, others⟩ := state
  rw [resolveRelationship]
  generalize Resolution.resolve cross task relationship g.registry others = answer
  obtain ⟨r, error⟩ := answer
  exact List.foldlRecOn (motive := fun g' : WorkGraph => g'.ordinalOf j = g.ordinalOf j) _ _ rfl
    fun g' h target _ => (ordinalOf_addEdge relationship target j).trans h

theorem ordinalOf_resolveNode (state : WorkGraph × σ) (j : Nat) :
    (resolveNode cross id state).1.ordinalOf j = state.1.ordinalOf j := by
  have hresolved : (state.1.modify id fun n => { n with resolved := true }).ordinalOf j =
      state.1.ordinalOf j := by
    rw [ordinalOf_modify]
    exact fun _ => rfl
  rw [resolveNode]
  split
  · rfl
  · split
    · rfl
    · dsimp only
      split
      · exact List.foldlRecOn
          (motive := fun state' : WorkGraph × σ => state'.1.ordinalOf j = state.1.ordinalOf j) _ _
          hresolved fun state' h relationship _ =>
            (ordinalOf_resolveRelationship cross _ state' relationship j).trans h
      · exact hresolved

end Resolving

/-- Whoever joins the run gets the ordinal of the batch, unless it has an earlier one. -/
theorem ordinalOf_enter (hn : g.nodes[id]? = some n) (hle : ∀ o', n.ordinal = some o' → o' ≤ k)
    (required : Bool) (j : Nat) : (g.enter k (id, required)).ordinalOf j =
      if j = id ∧ n.state.isScheduled = false then some ((g.ordinalOf j).getD k)
        else g.ordinalOf j := by
  have hlt := (Array.getElem?_eq_some_iff.1 hn).1
  have hrequired :
      ∀ j, (g.modify id fun n => { n with required := n.required || required }).ordinalOf j =
      g.ordinalOf j := by
    intro j
    rw [ordinalOf_modify]
    exact fun _ => rfl
  rw [enter]
  simp only [hn, Option.any_some]
  by_cases hs : n.state.isScheduled = true
  · simp only [hs, if_true, hrequired, Bool.true_eq_false, and_false, if_false]
  · have hstate : ∀ g₁ : WorkGraph,
        (g₁.modify id fun n => { n with state := .scheduled }.lowerOrdinal k).ordinalOf j =
          (g₁.modify id (·.lowerOrdinal k)).ordinalOf j := by
      intro g₁
      rw [ordinalOf_modify_eq, ordinalOf_modify_eq]
      rfl
    have hlower : ((g.modify id fun n => { n with required := n.required || required }).modify id
        (·.lowerOrdinal k)).ordinalOf j =
          if j = id then some ((g.ordinalOf j).getD k) else g.ordinalOf j := by
      rw [ordinalOf_lowerOrdinal, hrequired]
      · rwa [size_modify]
      · rw [hrequired, ordinalOf_of_getElem? hn]
        exact hle
    simp only [hs, and_true]
    exact (hstate _).trans hlower

/-! ## What a batch makes of the ordinals -/

/-- While batch `k` is merged the nodes of the run have ordinals, none later than what depends on
them. No other node has one, but for those that the batch still has to bring in. -/
structure Stamped (g : WorkGraph) (k : Nat) : Prop where
  bound : ∀ j o, g.ordinalOf j = some o → o ≤ k
  run : ∀ j, g.InRun j → ∃ o, g.ordinalOf j = some o
  waiting : ∀ j o, g.ordinalOf j = some o → ¬ g.InRun j → o = k ∧ ∃ (i : Nat) (n : Node),
    g.nodes[i]? = some n ∧ n.state.isScheduled = true ∧ j ∈ n.successors.dependencies
  edges : ∀ (i : Nat) (n : Node) j, g.nodes[i]? = some n → n.state.isScheduled = true →
    j ∈ n.successors.dependencies → ∃ o o', g.ordinalOf i = some o ∧
      g.ordinalOf j = some o' ∧ o' ≤ o

def RunResolved (g : WorkGraph) : Prop :=
  ∀ (i : Nat) (n : Node), g.nodes[i]? = some n → n.state.isScheduled = true → n.resolved = true

section Expanding

variable {σ : Type} (cross : Option (CrossBuild σ)) {state : WorkGraph × σ} {entry : Nat × Bool}
  {supply : Work → Prop}

theorem resolveNode_of_resolved (state : WorkGraph × σ) (hn : state.1.nodes[id]? = some n)
    (hr : n.resolved = true) : resolveNode cross id state = state := by
  simp only [resolveNode, hn, hr, if_true]

theorem getElem?_enter_of_scheduled (hn : g.nodes[id]? = some n) (hs : n.state.isScheduled = true)
    (ordinal : Nat) (required : Bool) : (g.enter ordinal (id, required)).nodes[id]? =
      some { n with required := n.required || required } := by
  rw [enter]
  simp only [hn, Option.any_some, hs, if_true]
  rw [getElem?_modify, if_pos rfl, hn]
  rfl

/-- Working on a node gives the ordinal of the batch to it and to what it depends on, as far as they
have none. -/
theorem ordinalOf_expand (hdrawn : state.1.Drawn supply) (h : state.1.Stamped k)
    (hres : state.1.RunResolved) (hn : state.1.nodes[entry.1]? = some n) :
    ∃ m, (expand cross k entry state).1.1.nodes[entry.1]? = some m ∧
      (n.state.isScheduled = true → m.successors = n.successors) ∧
      ∀ j, (expand cross k entry state).1.1.ordinalOf j =
        if j = entry.1 ∨ j ∈ m.successors.dependencies then some ((state.1.ordinalOf j).getD k)
        else state.1.ordinalOf j := by
  obtain ⟨id, required⟩ := entry
  dsimp only at hn
  obtain ⟨n', hn', he⟩ := expand_eq cross k (id, required) hn
  dsimp only at hn' he
  have hentered : (state.1.enter k (id, required)).Drawn supply :=
    hdrawn.congr (state.1.enter_sameWiring k (id, required)) (by rw [registry_enter]; exact .refl)
  have hwired := (hentered.resolveNode cross (state.1.enter k (id, required), state.2) id).wired
  have hdate : ∀ j, (resolveNode cross id (state.1.enter k (id, required), state.2)).1.ordinalOf j =
      if j = id ∧ n.state.isScheduled = false then some ((state.1.ordinalOf j).getD k)
      else state.1.ordinalOf j := fun j => by
    rw [ordinalOf_resolveNode,
      ordinalOf_enter hn fun o' ho' => h.bound id o' (by rwa [ordinalOf_of_getElem? hn])]
  have hold : n.state.isScheduled = true → n'.successors = n.successors := by
    intro hs
    have hentry := getElem?_enter_of_scheduled hn hs k required
    rw [resolveNode_of_resolved cross (state.1.enter k (id, required), state.2) hentry
      (hres id n hn hs), hentry] at hn'
    cases hn'
    rfl
  have hordinal : n'.ordinal =
      if n.state.isScheduled = false then some ((state.1.ordinalOf id).getD k)
      else state.1.ordinalOf id := by
    rw [← ordinalOf_of_getElem? hn', hdate]
    simp
  rw [he]
  generalize (resolveNode cross id (state.1.enter k (id, required), state.2)).1 = g₂
    at hn' hwired hdate
  have hlt : ∀ d ∈ n'.successors.dependencies, d < g₂.nodes.size :=
    fun d hd => hwired.successors id n' .dependency d hn' hd
  obtain ⟨m, hm, -, hsucc, -⟩ := (lowerDependencies_sameWiring g₂ n').exists hn'
  refine ⟨m, hm, fun hs => hsucc.trans (hold hs), fun j => ?_⟩
  rw [hsucc]
  cases hs : n.state.isScheduled with
  | true =>
    -- a node that only becomes required changes no ordinal: its dependencies came with it
    simp only [hs, Bool.true_eq_false, and_false, if_false] at hdate hordinal
    obtain ⟨o, ho⟩ := h.run id ((inRun_iff hn).2 hs)
    have hdeps : ∀ d ∈ n'.successors.dependencies, ∃ o', state.1.ordinalOf d = some o' ∧
        o' ≤ o := by
      intro d hd
      rw [hold hs] at hd
      obtain ⟨o₁, o', ho₁, ho', hle⟩ := h.edges id n d hn hs hd
      cases ho₁.symm.trans ho
      exact ⟨o', ho', hle⟩
    rw [ordinalOf_lowerDependencies (hordinal.trans ho) hlt, hdate]
    · by_cases hj : j ∈ n'.successors.dependencies
      · obtain ⟨o', ho', -⟩ := hdeps j hj
        simp [hj, ho']
      · by_cases hid : j = id
        · simp [hid, ho]
        · simp [hj, hid]
    · intro d hd o' ho'
      obtain ⟨o'', ho'', hle⟩ := hdeps d hd
      rw [hdate, ho''] at ho'
      cases ho'
      exact hle
  | false =>
    simp only [hs, and_true, if_true] at hdate hordinal
    have hk : (state.1.ordinalOf id).getD k = k := by
      cases ho : state.1.ordinalOf id with
      | none => rfl
      | some o =>
        exact (h.waiting id o ho fun hrun => by simp [(inRun_iff hn).1 hrun] at hs).1
    rw [hk] at hordinal
    rw [ordinalOf_lowerDependencies hordinal hlt, hdate]
    · by_cases hid : j = id
      · simp [hid]
      · simp [hid]
    · intro d _ o' ho'
      rw [hdate] at ho'
      split at ho'
      · rename_i hid
        rw [hid, hk] at ho'
        cases ho'
        exact Nat.le_refl k
      · exact h.bound d o' ho'

/-- The run after work on an entry. -/
theorem inRun_expand_iff (hn : state.1.nodes[entry.1]? = some n) (ordinal : Nat) :
    (expand cross ordinal entry state).1.1.InRun j ↔ state.1.InRun j ∨ j = entry.1 := by
  obtain ⟨m, hm, hafter⟩ := expand_node cross hn ordinal
  constructor
  · rintro ⟨n', hn', hs⟩
    by_cases hj : j = entry.1
    · exact .inr hj
    · obtain ⟨u, hu, -, hs⟩ := (expand_spares cross ordinal entry state).scheduled hj hn' hs
      exact .inl ⟨u, hu, hs⟩
  · rintro (⟨n', hn', hs⟩ | rfl)
    · obtain ⟨n'', hn'', hf⟩ := (expand_merged cross ordinal entry state).node j n' hn'
      exact ⟨n'', hn'', hf.scheduled hs⟩
    · exact ⟨m, hm, hafter.scheduled⟩

theorem Stamped.ordinalOf_getD (h : g.Stamped k) (hj : ¬ g.InRun j) :
    (g.ordinalOf j).getD k = k := by
  cases ho : g.ordinalOf j with
  | none => rfl
  | some o => exact (h.waiting j o ho hj).1

/-- Who has an ordinal keeps it, and who gets one gets that of the batch. -/
structure Restamped (k : Nat) (g g' : WorkGraph) : Prop where
  kept : ∀ j o, g.ordinalOf j = some o → g'.ordinalOf j = some o
  fresh : ∀ j o, g'.ordinalOf j = some o → g.ordinalOf j = some o ∨ o = k

theorem Stamped.restamped_expand (h : state.1.Stamped k) (hdrawn : state.1.Drawn supply)
    (hres : state.1.RunResolved) (hn : state.1.nodes[entry.1]? = some n) :
    Restamped k state.1 (WorkGraph.expand cross k entry state).1.1 := by
  obtain ⟨m, -, -, hdate⟩ := ordinalOf_expand cross hdrawn h hres hn
  constructor
  · intro j o ho
    rw [hdate, ho]
    exact ite_self _
  · intro j o ho
    rw [hdate] at ho
    split at ho
    · cases hold : state.1.ordinalOf j with
      | none =>
        rw [hold] at ho
        cases ho
        exact .inr rfl
      | some o' =>
        rw [hold] at ho
        exact .inl ho
    · exact .inl ho

theorem Stamped.expand (h : state.1.Stamped k) (hdrawn : state.1.Drawn supply)
    (hres : state.1.RunResolved) (hn : state.1.nodes[entry.1]? = some n) :
    (WorkGraph.expand cross k entry state).1.1.Stamped k := by
  obtain ⟨hkept, hfresh⟩ := h.restamped_expand cross hdrawn hres hn
  have hforward := (expand_merged cross k entry state).toForward
  have hspares := expand_spares cross k entry state
  have hrun := fun j => inRun_expand_iff cross (j := j) hn k
  obtain ⟨m, hm, hsame, hdate⟩ := ordinalOf_expand cross hdrawn h hres hn
  generalize (WorkGraph.expand cross k entry state).1.1 = g'
    at hkept hfresh hforward hspares hrun hm hdate
  have hms := (inRun_iff hm).1 ((hrun entry.1).2 (.inr rfl))
  have hbound : ∀ j o, g'.ordinalOf j = some o → o ≤ k := by
    intro j o ho
    rcases hfresh j o ho with ho | rfl
    · exact h.bound j o ho
    · exact Nat.le_refl o
  have hentry : ∃ o, g'.ordinalOf entry.1 = some o := by
    rw [hdate, if_pos (.inl rfl)]
    exact ⟨_, rfl⟩
  refine ⟨hbound, fun j hj => ?_, fun j o ho hj => ?_, fun i n' j hn' hs hj => ?_⟩
  · rcases (hrun j).1 hj with hj | rfl
    · obtain ⟨o, ho⟩ := h.run j hj
      exact ⟨o, hkept j o ho⟩
    · exact hentry
  · have hout : ¬ state.1.InRun j ∧ j ≠ entry.1 := by
      rwa [hrun, not_or] at hj
    cases hold : state.1.ordinalOf j with
    | some o' =>
      cases (hkept j o' hold).symm.trans ho
      obtain ⟨rfl, i, u, hu, hs, hmem⟩ := h.waiting j o hold hout.1
      obtain ⟨u', hu', hf⟩ := hforward.node i u hu
      exact ⟨rfl, i, u', hu', hf.scheduled hs, hf.successors .dependency j hmem⟩
    | none =>
      rw [hdate, hold] at ho
      split at ho
      · rename_i hmem
        cases ho
        exact ⟨rfl, entry.1, m, hm, hms, hmem.resolve_left hout.2⟩
      · cases ho
  · by_cases hi : i = entry.1
    · subst hi
      cases hm.symm.trans hn'
      cases hold : n.state.isScheduled with
      | true =>
        rw [hsame hold] at hj
        obtain ⟨o, o', ho, ho', hle⟩ := h.edges _ n j hn hold hj
        exact ⟨o, o', hkept _ o ho, hkept _ o' ho', hle⟩
      | false =>
        have hout : ¬ state.1.InRun entry.1 := fun hr => by simp [(inRun_iff hn).1 hr] at hold
        have hk : g'.ordinalOf entry.1 = some k := by
          rw [hdate, if_pos (.inl rfl), h.ordinalOf_getD hout]
        have hdep : ∃ o', g'.ordinalOf j = some o' := by
          rw [hdate, if_pos (.inr hj)]
          exact ⟨_, rfl⟩
        obtain ⟨o', ho'⟩ := hdep
        exact ⟨k, o', hk, ho', hbound j o' ho'⟩
    · obtain ⟨u, hu, ha, hs⟩ := hspares.scheduled hi hn' hs
      rw [ha.successors] at hj
      obtain ⟨o, o', ho, ho', hle⟩ := h.edges i u j hu hs hj
      exact ⟨o, o', hkept i o ho, hkept j o' ho', hle⟩

/-- The node of a number is reached. -/
def ReachedAt (g : WorkGraph) (roots : List TaskPath) (id : Nat) : Prop :=
  g.HasAt (fun n => Reached g.Pulls roots n.key) id

theorem ReachedAt.forward (h : g.ReachedAt roots id) (hf : g.Forward g') :
    g'.ReachedAt roots id := by
  obtain ⟨n, hn, hr⟩ := h
  obtain ⟨n', hn', hnode⟩ := hf.node id n hn
  refine ⟨n', hn', ?_⟩
  dsimp only
  rw [hnode.key]
  exact hf.pulled hr

theorem ReachedAt.broughtIn (h : g.ReachedAt roots id) (hw : g.Wired) (hn : g.nodes[id]? = some n)
    {e : Nat × Bool} (he : e ∈ WorkGraph.broughtIn n) : g.ReachedAt roots e.1 := by
  obtain ⟨u, hu, hr⟩ := h
  cases hu.symm.trans hn
  obtain ⟨m, hm, hrefers⟩ := hw.refers_of_broughtIn hn he
  exact ⟨m, hm, hr.tail (hrefers.symm.imp And.left And.left)⟩

/-- What holds while batch `k` with these tasks is merged, from the graph `s` on. -/
structure Joining (supply : Work → Prop) (k : Nat) (roots : List TaskPath) (s g : WorkGraph) :
    Prop where
  drawn : g.Drawn supply
  resolved : g.RunResolved
  stamped : g.Stamped k
  kept : ∀ j o, s.ordinalOf j = some o → g.ordinalOf j = some o
  joined : ∀ j, g.InRun j → s.InRun j ∨ g.ordinalOf j = some k ∧ g.ReachedAt roots j

theorem Joining.expand {s : WorkGraph} (h : Joining supply k roots s state.1)
    (hasked : state.1.ReachedAt roots entry.1) (hn : state.1.nodes[entry.1]? = some n) :
    Joining supply k roots s (WorkGraph.expand cross k entry state).1.1 := by
  have hforward := (expand_merged cross k entry state).toForward
  obtain ⟨hkept, hfresh⟩ := h.stamped.restamped_expand cross h.drawn h.resolved hn
  refine ⟨h.drawn.expand cross k entry, resolved_expand cross k entry hn h.resolved,
    h.stamped.expand cross h.drawn h.resolved hn, fun j o ho => hkept j o (h.kept j o ho),
    fun j hj => ?_⟩
  have hold : state.1.InRun j → s.InRun j ∨
      (WorkGraph.expand cross k entry state).1.1.ordinalOf j = some k ∧
        (WorkGraph.expand cross k entry state).1.1.ReachedAt roots j := fun hj =>
    (h.joined j hj).imp_right fun ⟨ho, hr⟩ => ⟨hkept j k ho, hr.forward hforward⟩
  by_cases hin : state.1.InRun j
  · exact hold hin
  · obtain rfl := ((inRun_expand_iff cross hn k).1 hj).resolve_left hin
    obtain ⟨m, -, -, hdate⟩ := ordinalOf_expand cross h.drawn h.stamped h.resolved hn
    rw [hdate, if_pos (.inl rfl), h.stamped.ordinalOf_getD hin]
    exact .inr ⟨rfl, hasked.forward hforward⟩

end Expanding

/-! ## Batches -/

def queuedTasks (g : WorkGraph) : List TaskPath :=
  (g.keysOf g.queued.toList).filterMap fun
    | .task path => some path
    | .foreign .. => none

theorem mem_queuedTasks_iff {path : TaskPath} : path ∈ g.queuedTasks ↔
    ∃ id ∈ g.queued, ∃ n, g.nodes[id]? = some n ∧ n.key = .task path := by
  rw [queuedTasks, List.mem_filterMap]
  constructor
  · rintro ⟨key, hkey, hpath⟩
    cases key with
    | foreign build path => cases hpath
    | task path =>
      cases hpath
      obtain ⟨id, hid, n, hn, hn'⟩ := mem_keysOf.1 hkey
      exact ⟨id, Std.TreeSet.mem_toList.1 hid, n, hn, hn'⟩
  · rintro ⟨id, hid, n, hn, hkey⟩
    exact ⟨.task path, mem_keysOf.2 ⟨id, Std.TreeSet.mem_toList.2 hid, n, hn, hkey⟩, rfl⟩

/-- The graph goes on, and no ordinal changes. -/
structure Onward (g g' : WorkGraph) : Prop extends g.Forward g' where
  ordinal : ∀ j o, g.ordinalOf j = some o → g'.ordinalOf j = some o

theorem Onward.refl (g : WorkGraph) : g.Onward g := ⟨.refl g, fun _ _ h => h⟩

theorem Onward.trans (h : g.Onward g') (h' : g'.Onward g'') : g.Onward g'' :=
  ⟨h.toForward.trans h'.toForward, fun j o ho => h'.ordinal j o (h.ordinal j o ho)⟩

/-- Nothing else of a graph changes but its nodes, its run, its declarations and the references at
fault. -/
def Remade (g g' : WorkGraph) : Prop :=
  ∃ registry nodes scheduled rejected, g' = { g with registry, nodes, scheduled, rejected }

theorem Remade.refl (g : WorkGraph) : g.Remade g := ⟨_, _, _, _, rfl⟩

theorem Remade.trans (h : g.Remade g') (h' : g'.Remade g'') : g.Remade g'' := by
  obtain ⟨_, _, _, _, rfl⟩ := h
  obtain ⟨_, _, _, _, rfl⟩ := h'
  exact ⟨_, _, _, _, rfl⟩

theorem Remade.nextOrdinal (h : g.Remade g') : g'.nextOrdinal = g.nextOrdinal := by
  obtain ⟨_, _, _, _, rfl⟩ := h
  rfl

theorem modify_remade (id : Nat) (f : Node → Node) : g.Remade (g.modify id f) := ⟨_, _, _, _, rfl⟩

theorem nodeFor_remade (work : Work) : g.Remade (g.nodeFor work).1 := by
  rw [nodeFor]
  split
  · exact .refl g
  · exact ⟨_, _, _, _, rfl⟩

theorem addEdge_remade (id : Nat) (relationship : Relationship) (target : Work) :
    g.Remade (g.addEdge id relationship target) := by
  have hnode := g.nodeFor_remade target
  rw [addEdge]
  generalize g.nodeFor target = answer at hnode
  obtain ⟨g₁, succ⟩ := answer
  cases relationship with
  | finalizedBy => exact (hnode.trans (modify_remade _ _)).trans (modify_remade _ _)
  | _ => exact hnode.trans (modify_remade _ _)

theorem enter_remade (ordinal : Nat) (entry : Nat × Bool) : g.Remade (g.enter ordinal entry) := by
  obtain ⟨id, required⟩ := entry
  rw [enter]
  dsimp only
  split
  · exact modify_remade _ _
  · exact ((modify_remade _ _).trans (modify_remade _ _)).trans ⟨_, _, _, _, rfl⟩

theorem lowerDependencies_remade (n : Node) : g.Remade (g.lowerDependencies n) := by
  rw [lowerDependencies]
  split
  · exact List.foldlRecOn _ _ (.refl g) fun g₁ h d _ => h.trans (modify_remade d _)
  · exact .refl g

section Batches

variable {σ : Type} (cross : Option (CrossBuild σ)) {state : WorkGraph × σ} {others others' : σ}
  {grown : Bool} {batches : List Batch}

theorem resolveRelationship_remade (id : Nat) (task : TaskDefinition) (state : WorkGraph × σ)
    (relationship : Relationship) :
    state.1.Remade (resolveRelationship cross id task state relationship).1 := by
  obtain ⟨g, others⟩ := state
  rw [resolveRelationship]
  generalize Resolution.resolve cross task relationship g.registry others = answer
  obtain ⟨r, error⟩ := answer
  exact List.foldlRecOn _ _ ⟨_, _, _, _, rfl⟩
    fun g₁ h target _ => h.trans (addEdge_remade id relationship target)

theorem resolveNode_remade (id : Nat) (state : WorkGraph × σ) :
    state.1.Remade (resolveNode cross id state).1 := by
  rw [resolveNode]
  split
  · exact .refl _
  · split
    · exact .refl _
    · dsimp only
      split
      · exact List.foldlRecOn (motive := fun state' : WorkGraph × σ => state.1.Remade state'.1) _ _
          (modify_remade _ _) fun state' h relationship _ =>
            h.trans (resolveRelationship_remade cross id _ state' relationship)
      · exact modify_remade _ _

theorem expand_remade (ordinal : Nat) (entry : Nat × Bool) (state : WorkGraph × σ) :
    state.1.Remade (WorkGraph.expand cross ordinal entry state).1.1 := by
  have h := (enter_remade ordinal entry).trans (resolveNode_remade cross entry.1
    (state.1.enter ordinal entry, state.2))
  rw [WorkGraph.expand]
  generalize resolveNode cross entry.1 (state.1.enter ordinal entry, state.2) = answer at h
  obtain ⟨g, others⟩ := answer
  dsimp only at h ⊢
  split
  · exact h.trans (lowerDependencies_remade _)
  · exact h

theorem merge_remade (ordinal fuel : Nat) (asked : List (Nat × Bool)) (state : WorkGraph × σ) :
    state.1.Remade (merge cross ordinal fuel asked state).1 :=
  merge_keeps cross (Q := fun state' => state.1.Remade state'.1)
    (fun entry state' h _ _ => h.trans (expand_remade cross ordinal entry state')) fuel asked
    (.refl _)

theorem Joining.merge {supply : Work → Prop} {s : WorkGraph} (fuel : Nat)
    (asked : List (Nat × Bool)) (state : WorkGraph × σ) (h : Joining supply k roots s state.1)
    (ha : ∀ e ∈ asked, state.1.ReachedAt roots e.1) :
    Joining supply k roots s (WorkGraph.merge cross k fuel asked state).1 := by
  refine merge_keeps_asked cross (Q := fun state => Joining supply k roots s state.1)
    (A := fun state e => state.1.ReachedAt roots e.1) ?_ fuel asked h ha
  rintro entry state hjoin hasked ⟨n, hn⟩
  have hnext := hjoin.expand cross hasked hn
  have hforward := (expand_merged cross k entry state).toForward
  refine ⟨hnext, fun e he => he.forward hforward, fun e he => ?_⟩
  obtain ⟨m, hm, hafter⟩ := expand_node cross hn k
  rw [hafter.next] at he
  exact (hasked.forward hforward).broughtIn hnext.drawn.wired hm he

end Batches

/-! ## Between batches -/

/-- Just the nodes of the run have ordinals, all of them of batches so far, and none later than what
depends on it. -/
structure Rested (g : WorkGraph) : Prop where
  run : ∀ j, g.InRun j ↔ ∃ o, g.ordinalOf j = some o
  bound : ∀ j o, g.ordinalOf j = some o → o < g.nextOrdinal
  edges : ∀ (i : Nat) (n : Node) j, g.nodes[i]? = some n → n.state.isScheduled = true →
    j ∈ n.successors.dependencies → ∃ o o', g.ordinalOf i = some o ∧
      g.ordinalOf j = some o' ∧ o' ≤ o

theorem new_rested (registry : Registry) : (new registry).Rested where
  run j := by simp [InRun, HasAt, ordinalOf, new]
  bound j o ho := by simp [ordinalOf, new] at ho
  edges i n j hn := by simp [new] at hn

/-- The graph has the same ordinals as before, and nothing joined its run. -/
structure SameOrdinals (g g' : WorkGraph) : Prop extends g.Forward g' where
  spares : g.Spares (fun _ => True) g'
  ordinal : ∀ j, g'.ordinalOf j = g.ordinalOf j
  nextOrdinal : g'.nextOrdinal = g.nextOrdinal

theorem SameOrdinals.onward (h : g.SameOrdinals g') : g.Onward g' :=
  ⟨h.toForward, fun j _ ho => (h.ordinal j).trans ho⟩

theorem SameOrdinals.of_nodes (hphase : g'.phase = g.phase) (hnodes : g'.nodes = g.nodes)
    (hnext : g'.nextOrdinal = g.nextOrdinal) : g.SameOrdinals g' :=
  ⟨.of_nodes hphase hnodes, .of_nodes hnodes, ordinalOf_congr hnodes, hnext⟩

theorem SameOrdinals.trans (h : g.SameOrdinals g') (h' : g'.SameOrdinals g'') :
    g.SameOrdinals g'' where
  toForward := h.toForward.trans h'.toForward
  spares := h.spares.trans h'.spares
  ordinal j := (h'.ordinal j).trans (h.ordinal j)
  nextOrdinal := h'.nextOrdinal.trans h.nextOrdinal

theorem SameOrdinals.scheduled (h : g.SameOrdinals g') {n' : Node} (hn' : g'.nodes[i]? = some n')
    (hs : n'.state.isScheduled = true) :
    ∃ n, g.nodes[i]? = some n ∧ n.state.isScheduled = true ∧ n'.successors = n.successors := by
  obtain ⟨n, hn, ha, hs⟩ := h.spares.scheduled trivial hn' hs
  exact ⟨n, hn, hs, ha.successors⟩

theorem Rested.of_sameOrdinals (h : g.Rested) (hg : g.SameOrdinals g') : g'.Rested where
  run j := by
    rw [hg.ordinal, ← h.run]
    constructor
    · rintro ⟨n', hn', hs⟩
      obtain ⟨n, hn, hs, -⟩ := hg.scheduled hn' hs
      exact ⟨n, hn, hs⟩
    · rintro ⟨n, hn, hs⟩
      obtain ⟨n', hn', hf⟩ := hg.node j n hn
      exact ⟨n', hn', hf.scheduled hs⟩
  bound j o ho := by
    rw [hg.nextOrdinal]
    exact h.bound j o ((hg.ordinal j).symm.trans ho)
  edges i n' j hn' hs hj := by
    obtain ⟨n, hn, hs, hsucc⟩ := hg.scheduled hn' hs
    rw [hg.ordinal, hg.ordinal]
    exact h.edges i n j hn hs (hsucc ▸ hj)

theorem queue_sameOrdinals {path : TaskPath} (hok : g.queue path = .ok g') : g.SameOrdinals g' := by
  have hsame : (∀ j, g'.ordinalOf j = g.ordinalOf j) ∧ g'.nextOrdinal = g.nextOrdinal := by
    obtain ⟨task, g₁, id, -, hg₁, hg'⟩ := queue_cases hok
    have hnode := fun j => g.ordinalOf_nodeFor (.task task) j
    have hnext := (g.nodeFor_remade (.task task)).nextOrdinal
    rw [hg₁] at hnode hnext
    have hqueued : ∀ j, (g₁.modify id Node.enqueued).ordinalOf j = g.ordinalOf j := fun j =>
      (ordinalOf_modify (fun n => by rw [n.enqueued_eq]) id j).trans (hnode j)
    obtain ⟨-, rfl⟩ | ⟨-, rfl⟩ := hg'
    · exact ⟨hqueued, hnext⟩
    · exact ⟨hqueued, hnext⟩
  exact ⟨queue_forward hok, queue_spares hok, hsame.1, hsame.2⟩

/-- All is settled, and what is queued are tasks. -/
structure Ready (g : WorkGraph) : Prop where
  settled : g.Settled
  queued : ∀ id ∈ g.queued, ∃ path n, g.nodes[id]? = some n ∧ n.key = .task path

theorem Built.ready (h : Built g) : g.Ready where
  settled := h.settled
  queued id hid := by
    obtain ⟨roots, hrooted⟩ := h.rooted
    obtain ⟨path, -, hn⟩ := hrooted.queued id hid
    exact ⟨path, hn⟩

theorem Ready.numbered (h : g.Ready) : g.Numbered := by
  intro id hid
  obtain ⟨path, n, hn, -⟩ := h.queued id hid
  exact (Array.getElem?_eq_some_iff.1 hn).1

theorem Ready.queuedTasks_ne_nil (h : g.Ready) (hopen : g.queued.isEmpty = false) :
    g.queuedTasks ≠ [] := by
  obtain ⟨id, hid⟩ := Std.TreeSet.isEmpty_eq_false_iff_exists_mem.1 hopen
  obtain ⟨path, n, hn, hkey⟩ := h.queued id hid
  exact List.ne_nil_of_mem (mem_queuedTasks_iff.2 ⟨id, hid, n, hn, hkey⟩)

theorem Rested.stamped (h : g.Rested) : g.batchStart.Stamped g.nextOrdinal where
  bound j o ho := Nat.le_of_lt (h.bound j o ho)
  run j hj := (h.run j).1 hj
  waiting j o ho hj := absurd ((h.run j).2 ⟨o, ho⟩) hj
  edges := h.edges

/-- What a batch of the queued tasks makes of a graph: whatever it reaches is part of the run, and
what joins the run gets the number of the batch. -/
structure Batched (g g' : WorkGraph) : Prop extends g.Onward g' where
  rested : g'.Rested
  counted : g'.nextOrdinal = g.nextOrdinal + 1
  joined : ∀ j, g'.InRun j → g.InRun j ∨
    g'.ordinalOf j = some g.nextOrdinal ∧ g'.ReachedAt g.queuedTasks j
  includes : ∀ key, Reached g'.Pulls g.queuedTasks key → g'.Includes key

section Batches

variable {σ : Type} (cross : Option (CrossBuild σ)) {others others' : σ} {grown : Bool}

/-- A batch of queued tasks is one batch more. -/
theorem nextOrdinal_scheduleQueued (hopen : g.queued.isEmpty = false)
    (hok : WorkGraph.scheduleQueued cross (g, others) = .ok (grown, g', others')) :
    g'.nextOrdinal = g.nextOrdinal + 1 := by
  rw [scheduleQueued_eq cross (phase_of_scheduleQueued cross hok), hopen] at hok
  simp only [Bool.false_eq_true, if_false, Except.ok.injEq, Prod.mk.injEq] at hok
  have hremade := merge_remade cross g.nextOrdinal (2 * g.nodeBound)
    (g.queued.toList.map (·, true)) (g.batchStart, others)
  rw [hok.2] at hremade
  exact hremade.nextOrdinal

theorem Rested.joining (h : g.Rested) (hready : g.Ready) (hopen : g.queued.isEmpty = false)
    (hok : WorkGraph.scheduleQueued cross (g, others) = .ok (grown, g', others')) :
    Joining g.supply g.nextOrdinal g.queuedTasks g.batchStart g' := by
  rw [scheduleQueued_eq cross (phase_of_scheduleQueued cross hok), Except.ok.injEq] at hok
  simp only [hopen, Bool.false_eq_true, if_false, Prod.mk.injEq] at hok
  have hstart : Joining g.supply g.nextOrdinal g.queuedTasks g.batchStart g.batchStart :=
    ⟨hready.settled.drawn_batchStart, hready.settled.resolved, h.stamped, fun _ _ ho => ho,
      fun _ hj => .inl hj⟩
  have hasked : ∀ e ∈ g.queued.toList.map (·, true), g.batchStart.ReachedAt g.queuedTasks e.1 := by
    intro e he
    obtain ⟨id, hid, rfl⟩ := List.mem_map.1 he
    obtain ⟨path, n, hn, hkey⟩ := hready.queued id (Std.TreeSet.mem_toList.1 hid)
    refine ⟨n, hn, ?_⟩
    dsimp only
    rw [hkey]
    exact .root (mem_queuedTasks_iff.2 ⟨id, Std.TreeSet.mem_toList.1 hid, n, hn, hkey⟩)
  have hmerge := Joining.merge cross (2 * g.nodeBound) _ (g.batchStart, others) hstart hasked
  rw [hok.2] at hmerge
  exact hmerge

/-- At the end of a batch nothing is left that it still had to bring in. -/
theorem Stamped.rested (h : g.Stamped k) (hset : g.Settled) (hnext : g.nextOrdinal = k + 1) :
    g.Rested where
  run j := by
    refine ⟨h.run j, ?_⟩
    rintro ⟨o, ho⟩
    by_contra hout
    obtain ⟨-, i, n, hn, hs, hj⟩ := h.waiting j o ho hout
    have hentry : (j, n.required) ∈ broughtIn n :=
      List.mem_append_right _ (List.mem_map_of_mem (Std.TreeSet.mem_toList.2 hj))
    obtain ⟨m, hm, -⟩ := hset.wired.refers_of_broughtIn hn hentry
    exact hout ⟨m, hm, (hset.brought.includes hset.wired ⟨i, n, hn, rfl, hs⟩ hn rfl hentry hm).1⟩
  bound j o ho := by
    rw [hnext]
    exact Nat.lt_succ_of_le (h.bound j o ho)
  edges := h.edges

theorem Rested.scheduleQueued (h : g.Rested) (hready : g.Ready) (hopen : g.queued.isEmpty = false)
    (hok : WorkGraph.scheduleQueued cross (g, others) = .ok (grown, g', others')) :
    g.Batched g' := by
  obtain ⟨hforward, -, -, -, hrequired⟩ := scheduleQueued_spec cross hready.numbered hok
  have hjoin := h.joining cross hready hopen hok
  have hnext := nextOrdinal_scheduleQueued cross hopen hok
  have hset := hready.settled.scheduleQueued cross hok
  refine ⟨⟨hforward, hjoin.kept⟩, hjoin.stamped.rested hset hnext, hnext, hjoin.joined,
    fun key hkey => hkey.induct (fun path hpath => ?_) fun _ _ => hset.includes⟩
  obtain ⟨id, hid, n, hn, hn'⟩ := mem_queuedTasks_iff.1 hpath
  obtain ⟨n', hnode, hs, -⟩ := hrequired id hid
  obtain ⟨u, hu, hf⟩ := hforward.node id n hn
  cases hu.symm.trans hnode
  exact ⟨id, _, hnode, hf.key.trans hn', hs⟩

theorem eq_of_scheduleQueued_of_isEmpty (hempty : g.queued.isEmpty = true)
    (hok : WorkGraph.scheduleQueued cross (g, others) = .ok (grown, g', others')) :
    grown = false ∧ g' = g ∧ others' = others := by
  rw [scheduleQueued_eq cross (phase_of_scheduleQueued cross hok), Except.ok.injEq] at hok
  simp only [hempty, if_true, Prod.mk.injEq] at hok
  exact ⟨hok.1.symm, hok.2.1.symm, hok.2.2.symm⟩

end Batches

/-- However a graph was populated, just the nodes of its run have ordinals, and none later than what
depends on it. -/
theorem Built.rested (h : Built g) : g.Rested := by
  induction h with
  | new registry => exact new_rested registry
  | declare _ hok ih =>
    obtain ⟨_, _, rfl⟩ := declare_eq hok
    exact ih.of_sameOrdinals (.of_nodes rfl rfl rfl)
  | handOut _ hok ih =>
    obtain ⟨-, rfl⟩ | ⟨-, -, rfl⟩ := handOut_cases hok
    · exact ih
    · exact ih.of_sameOrdinals (.of_nodes rfl rfl rfl)
  | queue _ hok ih => exact ih.of_sameOrdinals (queue_sameOrdinals hok)
  | @scheduleQueued g g' σ cross others others' grown hbuilt hok ih =>
    cases hopen : g.queued.isEmpty with
    | true =>
      obtain ⟨-, rfl, -⟩ := eq_of_scheduleQueued_of_isEmpty cross hopen hok
      exact ih
    | false => exact (ih.scheduleQueued cross hbuilt.ready hopen hok).rested

end WorkGraph

end Foreman
