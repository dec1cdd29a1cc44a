import Foreman.Proofs.Digraph
import Foreman.Proofs.Run.Demand
import Foreman.Proofs.WorkGraph.Populating
import Foreman.WorkGraph.Freeze
import Mathlib.Data.List.Forall2

/-!
# What freezing makes of a work graph

A frozen order contains the mandatory one, and neither has a loop (`freeze_spec`). The plan numbers
the nodes of the run, its edges are edges of the frozen order, and so no node of a plan waits for
itself through others (`planOf_sound`).
-/

namespace Foreman

/-! ## Orders -/

namespace Precedence

variable {p : Precedence} {a b later earlier : Nat}

/-- One node comes before the other. -/
def Before (p : Precedence) (later earlier : Nat) : Prop := earlier ∈ p.of later

theorem edge_iff : p.digraph.Edge a b ↔ p.Before a b := by
  rw [Digraph.Edge, Digraph.next, digraph, Before, of, Array.getElem?_map]
  cases p.before[a]? with
  | none => simp
  | some ids => simp [Std.TreeSet.mem_toList]

theorem before_add : (p.add later earlier).Before a b → p.Before a b ∨ a = later ∧ b = earlier := by
  rw [Before, Before, of, of, add, Array.getElem?_modify]
  by_cases ha : later = a
  · subst ha
    cases p.before[later]? with
    | none => simp
    | some ids =>
      simp only [if_true, Option.map_some, Option.getD_some, Std.TreeSet.mem_insert,
        Std.LawfulEqCmp.compare_eq_iff_eq]
      rintro (rfl | h)
      · exact .inr ⟨trivial, rfl⟩
      · exact .inl h
  · rw [if_neg ha]
    exact .inl

theorem before_add_of_before (h : p.Before a b) : (p.add later earlier).Before a b := by
  rw [Before, of] at h ⊢
  rw [add, Array.getElem?_modify]
  by_cases ha : later = a
  · subst ha
    cases hids : p.before[later]? with
    | none => simp [hids] at h
    | some ids =>
      rw [hids] at h
      simp only [Option.getD_some] at h
      simp [h]
  · rw [if_neg ha]
    exact h

/-- More nodes come before others, and still no node before itself. -/
structure Extends (p q : Precedence) : Prop where
  before : ∀ a b, p.Before a b → q.Before a b
  acyclic : Acyclic p.Before → Acyclic q.Before

theorem Extends.refl (p : Precedence) : p.Extends p := ⟨fun _ _ h => h, fun h => h⟩

theorem Extends.trans {q s : Precedence} (h : p.Extends q) (h' : q.Extends s) : p.Extends s :=
  ⟨fun a b hab => h'.before a b (h.before a b hab), fun ha => h'.acyclic (h.acyclic ha)⟩

theorem addIfAcyclic_extends (p : Precedence) (later earlier : Nat) :
    p.Extends (p.addIfAcyclic later earlier) := by
  rw [addIfAcyclic]
  split
  · exact .refl p
  · rename_i hreach
    refine ⟨fun a b => before_add_of_before, fun hacyc => ?_⟩
    have hpath : ¬ Relation.ReflTransGen p.Before earlier later := by
      intro hpath
      refine hreach (Digraph.reaches_iff.2 ?_)
      exact hpath.lift id fun a b hab => edge_iff.2 hab
    exact (hacyc.add hpath).mono fun a b hab => before_add hab

theorem foldl_extends {α : Type} (f : Precedence → α → Precedence)
    (hf : ∀ (p : Precedence) a, p.Extends (f p a)) (l : List α) (p : Precedence) :
    p.Extends (l.foldl f p) := by
  induction l generalizing p with
  | nil => exact .refl p
  | cons a l ih => exact (hf p a).trans (ih _)

end Precedence

namespace WorkGraph

variable {g g' : WorkGraph} {footprints : List Footprint} {p : Precedence}

theorem orderConflicts_extends (g : WorkGraph) (footprint : Nat → Footprint) (p : Precedence) :
    p.Extends (g.orderConflicts footprint p) := by
  refine Precedence.foldl_extends _ (fun p pair => ?_) _ p
  dsimp only
  split
  · split
    · exact p.addIfAcyclic_extends _ _
    · exact .refl p
  · exact .refl p

theorem acceptHints_extends (g : WorkGraph) (p : Precedence) : p.Extends (g.acceptHints p) := by
  refine Precedence.foldl_extends _ (fun p hint => ?_) _ p
  dsimp only
  split
  · exact p.addIfAcyclic_extends _ _
  · exact .refl p

theorem mem_inRun {ids : NodeSet} {id : Nat} : id ∈ g.inRun ids ↔ id ∈ ids ∧ id ∈ g.scheduled := by
  rw [inRun, List.mem_filter, Std.TreeSet.mem_toList]
  rfl

/-- The mandatory order, node by node. -/
theorem mandatory_before_iff {a b : Nat} : g.mandatory.Before a b ↔
    a ∈ g.scheduled ∧ b ∈ g.scheduled ∧ ∃ n, g.nodes[a]? = some n ∧
      (b ∈ n.successors.dependencies ∨ b ∈ n.successors.mustRunAfter ∨ b ∈ n.finalizes) := by
  rw [Precedence.Before, Precedence.of, mandatory, Array.getElem?_ofFn]
  by_cases ha : a < g.nodes.size
  · have hn : g.nodes[a]? = some g.nodes[a] := Array.getElem?_eq_getElem ha
    rw [dif_pos ha, Option.getD_some]
    by_cases hs : a ∈ g.scheduled
    · rw [if_pos (Std.TreeSet.mem_iff_contains.1 hs), Std.TreeSet.mem_ofList, List.contains_iff_mem]
      simp only [List.mem_append, mem_inRun]
      constructor
      · rintro ((⟨h, hb⟩ | ⟨h, hb⟩) | ⟨h, hb⟩)
        · exact ⟨hs, hb, _, hn, .inl h⟩
        · exact ⟨hs, hb, _, hn, .inr (.inl h)⟩
        · exact ⟨hs, hb, _, hn, .inr (.inr h)⟩
      · rintro ⟨_, hb, n, hn', h⟩
        rw [hn, Option.some.injEq] at hn'
        subst hn'
        rcases h with h | h | h
        · exact .inl (.inl ⟨h, hb⟩)
        · exact .inl (.inr ⟨h, hb⟩)
        · exact .inr ⟨h, hb⟩
    · rw [if_neg fun hc => hs (Std.TreeSet.mem_iff_contains.2 hc)]
      simp [hs]
  · rw [dif_neg ha, Array.getElem?_eq_none (Nat.le_of_not_lt ha)]
    simp

/-- What a frozen graph was checked for, and what it was frozen to. -/
structure FrozenTo (g : WorkGraph) (footprints : List Footprint) (p : Precedence)
    (g' : WorkGraph) : Prop where
  phase : g.phase = .populating
  footprints_eq : g.footprints = .ok footprints
  mandatory : Acyclic g.mandatory.Before
  extended : g.mandatory.Extends p
  eq : g' = { g with
    plan := some (g.planOf footprints p)
    progress := .start (g.planOf footprints p)
    phase := .finalized }.publishUnscheduled

/-- The order that a graph is frozen to: conflicts between batches and hints within them, as far as
the mandatory order allows. -/
def frozenOrder (g : WorkGraph) (footprints : List Footprint) : Precedence :=
  g.acceptHints (g.orderConflicts
    (fun id => ((g.scheduled.toList.zip footprints).lookup id).getD .none) g.mandatory)

theorem frozenTo_of_freeze (h : g.freeze = .ok g') :
    ∃ footprints, g.FrozenTo footprints (g.frozenOrder footprints) g' := by
  simp only [freeze, bind, Except.bind, pure, Except.pure] at h
  cases hphase : g.require .populating .finalizeWorkGraph with
  | error e => simp [hphase] at h
  | ok =>
    have hpop : g.phase = .populating := by
      rw [require] at hphase
      split at hphase
      · assumption
      · cases hphase
    simp only [hphase] at h
    split at h
    · split at h
      · cases h
      · split at h
        · cases h
        · split at h
          · cases h
          · rename_i footprints hfoot
            split at h
            · cases h
            · rename_i hmand
              cases h
              have hacyc := Digraph.acyclic_of_checkCycles hmand fun a b hab => by
                rw [Precedence.edge_iff] at hab
                exact Std.TreeSet.mem_toList.2 (mandatory_before_iff.1 hab).1
              exact ⟨footprints, hpop, hfoot,
                hacyc.mono fun a b hab => Precedence.edge_iff.2 hab,
                (g.orderConflicts_extends _ _).trans (g.acceptHints_extends _), rfl⟩
    · cases h

theorem freeze_spec (h : g.freeze = .ok g') : ∃ footprints p, g.FrozenTo footprints p g' := by
  obtain ⟨footprints, hto⟩ := frozenTo_of_freeze h
  exact ⟨footprints, _, hto⟩

theorem FrozenTo.plan_eq (h : g.FrozenTo footprints p g') :
    g'.plan = some (g.planOf footprints p) := by
  rw [h.eq]
  rfl

theorem FrozenTo.eq_planOf {plan : Plan} (h : g.FrozenTo footprints p g')
    (hp : g'.plan = some plan) : plan = g.planOf footprints p :=
  Option.some.inj (hp.symm.trans h.plan_eq)

theorem FrozenTo.acyclic (h : g.FrozenTo footprints p g') : Acyclic p.Before :=
  h.extended.acyclic h.mandatory

/-! ## The plan -/

theorem forall₂_of_mapM_ok {α β ε : Type} {f : α → Except ε β} {l : List α} {l' : List β}
    (h : l.mapM f = .ok l') : List.Forall₂ (fun a b => f a = .ok b) l l' := by
  induction l generalizing l' with
  | nil =>
    cases h
    exact .nil
  | cons a l ih =>
    rw [List.mapM_cons] at h
    cases ha : f a with
    | error e => simp [ha, bind, Except.bind] at h
    | ok b =>
      cases hl : l.mapM f with
      | error e => simp [ha, hl, bind, Except.bind] at h
      | ok bs =>
        simp only [ha, hl, bind, Except.bind, pure, Except.pure, Except.ok.injEq] at h
        subst h
        exact .cons ha (ih hl)

/-- Where nothing is left out, places do not shift. -/
theorem getElem?_filterMap_of_isSome {α β : Type} {f : α → Option β} {l : List α}
    (h : ∀ a ∈ l, (f a).isSome = true) (i : Nat) : (l.filterMap f)[i]? = (l[i]?).bind f := by
  induction l generalizing i with
  | nil => simp
  | cons a l ih =>
    obtain ⟨b, hb⟩ := Option.isSome_iff_exists.1 (h a (List.mem_cons_self ..))
    have ih := ih fun c hc => h c (List.mem_cons_of_mem a hc)
    rw [List.filterMap_cons, hb]
    cases i with
    | zero => simp [hb]
    | succ i => simpa using ih i

theorem mem_positions {order ids : List Nat} {j : Nat} (h : j ∈ positions order ids) :
    ∃ id ∈ ids, order[j]? = some id := by
  rw [positions, List.mem_filterMap] at h
  obtain ⟨id, hid, hj⟩ := h
  rw [List.idxOf?_eq_some_iff] at hj
  obtain ⟨hlt, heq, _⟩ := hj
  exact ⟨id, hid, by rw [List.getElem?_eq_getElem hlt, heq]⟩

/-- The plan node with dependents noted. -/
structure PlannedAs (g : WorkGraph) (p : Precedence) (plan : Plan) (i id : Nat) (n : Node)
    (m : PlannedNode) : Prop where
  position : g.scheduled.toList[i]? = some id
  node : g.nodes[id]? = some n
  eq : ∃ footprint dependents,
    m = { g.planNode g.scheduled.toList p footprint id n with dependents }
  footprint : n.work.footprint = .ok m.footprint
  dependents : ∀ d, d ∈ m.dependents ↔ ∃ md, plan.nodes[d]? = some md ∧ i ∈ md.dependencies

theorem PlannedAs.key_eq {p : Precedence} {plan : Plan} {i id : Nat} {n : Node} {m : PlannedNode}
    (h : g.PlannedAs p plan i id n m) : m.key = n.key := by
  obtain ⟨footprint, dependents, rfl⟩ := h.eq
  rfl

theorem getElem?_linkDependents (nodes : Array PlannedNode) (i : Nat) :
    (linkDependents nodes)[i]? = nodes[i]?.map fun n =>
      { n with dependents := (List.range nodes.size).filter fun d =>
          (nodes[d]?).any (i ∈ ·.dependencies) } := by
  simp only [linkDependents, Array.getElem?_mapIdx]

/-- Each place of the run has its node in the plan, and there are no others. -/
theorem planOf_nodes {H : BuildId → TaskPath → Prop} (hs : g.Sound H)
    (hf : g.footprints = .ok footprints) (p : Precedence) :
    (∀ i m, (g.planOf footprints p).nodes[i]? = some m →
      ∃ id n, g.PlannedAs p (g.planOf footprints p) i id n m) ∧
    ∀ (i id : Nat), g.scheduled.toList[i]? = some id →
      ∃ m, (g.planOf footprints p).nodes[i]? = some m := by
  have hfoot := forall₂_of_mapM_ok hf
  have hlen := hfoot.length_eq
  have hplace : ∀ i : Nat, (((g.scheduled.toList.zip footprints).filterMap fun x =>
      (g.nodes[x.1]?).map (g.planNode g.scheduled.toList p x.2 x.1)).toArray)[i]? =
      ((g.scheduled.toList.zip footprints)[i]?).bind fun x =>
        (g.nodes[x.1]?).map (g.planNode g.scheduled.toList p x.2 x.1) := by
    intro i
    rw [List.getElem?_toArray]
    refine getElem?_filterMap_of_isSome (fun a ha => ?_) i
    obtain ⟨n, hn, _⟩ := (hs.scheduled a.1).1 (Std.TreeSet.mem_toList.1 (List.of_mem_zip ha).1)
    simp [hn]
  constructor
  · intro i m hm
    have hdeps : ∀ d, d ∈ m.dependents ↔
        ∃ md, (g.planOf footprints p).nodes[d]? = some md ∧ i ∈ md.dependencies := by
      rw [planOf, getElem?_linkDependents, Option.map_eq_some_iff] at hm
      obtain ⟨m₀, _, rfl⟩ := hm
      intro d
      rw [List.mem_filter, List.mem_range, planOf, getElem?_linkDependents]
      constructor
      · rintro ⟨hlt, hany⟩
        rw [Array.getElem?_eq_getElem hlt] at hany ⊢
        exact ⟨_, rfl, by simpa using hany⟩
      · rintro ⟨md, hmd, hi⟩
        rw [Option.map_eq_some_iff] at hmd
        obtain ⟨m₁, hm₁, rfl⟩ := hmd
        refine ⟨?_, by rw [hm₁]; simpa using hi⟩
        by_contra hlt
        rw [Array.getElem?_eq_none (Nat.le_of_not_lt hlt)] at hm₁
        cases hm₁
    rw [planOf, getElem?_linkDependents, Option.map_eq_some_iff] at hm
    obtain ⟨m₀, hm₀, rfl⟩ := hm
    obtain ⟨⟨id, footprint⟩, hzip, hnode⟩ := Option.bind_eq_some_iff.1 ((hplace i).symm.trans hm₀)
    rw [Option.map_eq_some_iff] at hnode
    obtain ⟨n, hn, rfl⟩ := hnode
    have hid := (List.forall₂_iff_zip.1 hfoot).2 (List.mem_of_getElem? hzip)
    rw [hn, Option.map_some, Option.getD_some] at hid
    rw [List.getElem?_zip_eq_some] at hzip
    exact ⟨id, n, hzip.1, hn, ⟨footprint, _, rfl⟩, hid, hdeps⟩
  · intro i id hi
    have hmem : id ∈ g.scheduled := Std.TreeSet.mem_toList.1 (List.mem_of_getElem? hi)
    obtain ⟨n, hn, _⟩ := (hs.scheduled id).1 hmem
    have hlt : i < footprints.length := by
      have := (List.getElem?_eq_some_iff.1 hi).1
      omega
    have hzip : (g.scheduled.toList.zip footprints)[i]? = some (id, footprints[i]) :=
      List.getElem?_zip_eq_some.2 ⟨hi, List.getElem?_eq_getElem hlt⟩
    have hnode := hplace i
    rw [hzip, Option.bind_some, hn, Option.map_some] at hnode
    rw [planOf, getElem?_linkDependents]
    exact ⟨_, congrArg (Option.map _) hnode⟩

end WorkGraph

/-! ## Sound plans -/

namespace Plan

/-- Node `i` waits for node `j`. -/
def Waits (p : Plan) (i j : Nat) : Prop :=
  ∃ n, p.nodes[i]? = some n ∧ (j ∈ n.dependencies ∨ j ∈ n.finalizes ∨ j ∈ n.runAfter)

/-- What freezing guarantees of a plan. -/
structure Sound (p : Plan) : Prop where
  acyclic : Acyclic p.Waits
  bounded : ∀ i j, p.Waits i j → j < p.size
  dependents : ∀ (i : Nat) (n : PlannedNode), p.nodes[i]? = some n →
    ∀ d : Nat, d ∈ n.dependents ↔ ∃ m, p.nodes[d]? = some m ∧ i ∈ m.dependencies

theorem Sound.layered {p : Plan} (h : p.Sound) : p.Layered := by
  have hswap : Acyclic fun i d => p.Waits d i := by
    intro a ha
    exact h.acyclic a (Relation.transGen_swap.2 ha)
  have hdep : Acyclic fun (i d : Nat) => ∃ n : PlannedNode, p.nodes[i]? = some n ∧
      d ∈ n.dependents :=
    hswap.mono fun i d ⟨n, hn, hd⟩ => by
      obtain ⟨m, hm, hi⟩ := (h.dependents i n hn d).1 hd
      exact ⟨m, hm, .inl hi⟩
  obtain ⟨rank, hle, hlt⟩ := hdep.exists_rank (n := p.size) fun i d ⟨n, hn, hd⟩ => by
    obtain ⟨m, hm, _⟩ := (h.dependents i n hn d).1 hd
    exact (Array.getElem?_eq_some_iff.1 hm).1
  exact ⟨rank, hle, fun i n hn d hd => hlt i d ⟨n, hn, hd⟩⟩

end Plan

namespace WorkGraph

variable {g g' : WorkGraph} {footprints : List Footprint} {p : Precedence}
  {H : BuildId → TaskPath → Prop}

/-- What a node depends on and what it finalizes comes first in the mandatory order. -/
theorem mandatory_of_mem (hs : g.Sound H) (hf : g.FrozenTo footprints p g') {i j : Nat}
    {m : PlannedNode} (hm : (g.planOf footprints p).nodes[i]? = some m)
    (hj : j ∈ m.dependencies ∨ j ∈ m.finalizes) : ∃ a b, g.scheduled.toList[i]? = some a ∧
      g.scheduled.toList[j]? = some b ∧ g.mandatory.Before a b := by
  obtain ⟨id, n, hp⟩ := (planOf_nodes hs hf.footprints_eq p).1 i m hm
  obtain ⟨footprint, dependents, rfl⟩ := hp.eq
  have hid : id ∈ g.scheduled := Std.TreeSet.mem_toList.1 (List.mem_of_getElem? hp.position)
  rcases hj with hj | hj
  · obtain ⟨b, hb, hjb⟩ := mem_positions hj
    have hbs : b ∈ g.scheduled := Std.TreeSet.mem_toList.1 (List.mem_of_getElem? hjb)
    exact ⟨id, b, hp.position, hjb, mandatory_before_iff.2
      ⟨hid, hbs, n, hp.node, .inl (Std.TreeSet.mem_toList.1 hb)⟩⟩
  · obtain ⟨b, hb, hjb⟩ := mem_positions hj
    have hbs : b ∈ g.scheduled := Std.TreeSet.mem_toList.1 (List.mem_of_getElem? hjb)
    exact ⟨id, b, hp.position, hjb, mandatory_before_iff.2
      ⟨hid, hbs, n, hp.node, .inr (.inr (Std.TreeSet.mem_toList.1 hb))⟩⟩

/-- Edges of the plan are edges of the frozen order. -/
theorem before_of_waits (hs : g.Sound H) (hf : g.FrozenTo footprints p g') {i j : Nat}
    (h : (g.planOf footprints p).Waits i j) : ∃ a b, g.scheduled.toList[i]? = some a ∧
      g.scheduled.toList[j]? = some b ∧ p.Before a b := by
  obtain ⟨m, hm, hj⟩ := h
  rw [← or_assoc] at hj
  rcases hj with hj | hj
  · obtain ⟨a, b, ha, hb, hab⟩ := mandatory_of_mem hs hf hm hj
    exact ⟨a, b, ha, hb, hf.extended.before _ _ hab⟩
  · obtain ⟨id, n, hp⟩ := (planOf_nodes hs hf.footprints_eq p).1 i m hm
    obtain ⟨footprint, dependents, rfl⟩ := hp.eq
    obtain ⟨b, hb, hjb⟩ := mem_positions hj
    rw [List.mem_filter, Std.TreeSet.mem_toList] at hb
    exact ⟨id, b, hp.position, hjb, hb.1⟩

theorem planOf_sound (hs : g.Sound H) (hf : g.FrozenTo footprints p g') :
    (g.planOf footprints p).Sound where
  acyclic := by
    refine hf.acyclic.of_map (fun i => (g.scheduled.toList[i]?).getD 0) fun i j hij => ?_
    obtain ⟨a, b, ha, hb, hab⟩ := before_of_waits hs hf hij
    rw [ha, hb]
    exact hab
  bounded i j hij := by
    obtain ⟨a, b, _, hb, _⟩ := before_of_waits hs hf hij
    obtain ⟨m, hm⟩ := (planOf_nodes hs hf.footprints_eq p).2 j b hb
    exact (Array.getElem?_eq_some_iff.1 hm).1
  dependents i m hm := by
    obtain ⟨id, n, hp⟩ := (planOf_nodes hs hf.footprints_eq p).1 i m hm
    exact hp.dependents

end WorkGraph

end Foreman
