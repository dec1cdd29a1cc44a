import Foreman.Proofs.WorkGraph.Losses
import Foreman.Proofs.WorkGraph.Ordinals

/-!
# The frozen order is as complete as it can be

Freezing tries pairs of nodes one after another and takes each in unless the one to come first comes
later already. Whatever was tried is decided from then on: it was taken in, or there is a path back
(`Precedence.foldl_decided`). The plan has just the edges of the frozen order (`waits_iff_before`),
so a plan holds the mandatory order and is decided about every conflict between batches and every
hint within one (`freeze_orders`).
-/

namespace Foreman

open Relation

/-! ## Trying pairs -/

namespace Precedence

variable {p q : Precedence} {a b later earlier : Nat} {f : Precedence → Nat × Nat → Precedence}
  {l : List (Nat × Nat)} {pair : Nat × Nat}

/-- The one node comes before the other, or it comes after it, directly or not, and so cannot. -/
def Decided (p : Precedence) (later earlier : Nat) : Prop :=
  p.Before later earlier ∨ ReflTransGen p.Before earlier later

theorem Decided.extends (h : p.Decided later earlier) (hq : p.Extends q) :
    q.Decided later earlier :=
  h.imp (hq.before _ _) fun hpath => ReflTransGen.mono hq.before _ _ hpath

theorem size_addIfAcyclic (p : Precedence) (later earlier : Nat) :
    (p.addIfAcyclic later earlier).before.size = p.before.size := by
  rw [addIfAcyclic]
  split
  · rfl
  · simp [add]

theorem before_addIfAcyclic (h : (p.addIfAcyclic later earlier).Before a b) :
    p.Before a b ∨ a = later ∧ b = earlier := by
  rw [addIfAcyclic] at h
  split at h
  · exact .inl h
  · exact before_add h

theorem before_add_self (h : later < p.before.size) :
    (p.add later earlier).Before later earlier := by
  rw [Before, of, add, Array.getElem?_modify, if_pos rfl, Array.getElem?_eq_getElem h]
  simp

theorem addIfAcyclic_decided (h : later < p.before.size) :
    (p.addIfAcyclic later earlier).Decided later earlier := by
  rw [addIfAcyclic]
  split
  · rename_i hreach
    exact .inr ((Digraph.reaches_iff.1 hreach).lift id fun _ _ => edge_iff.1)
  · exact .inl (before_add_self h)

/-- Each step tries its pair or does nothing. -/
def Tries (f : Precedence → Nat × Nat → Precedence) : Prop :=
  ∀ p pair, f p pair = p ∨ f p pair = p.addIfAcyclic pair.1 pair.2

theorem Tries.extends (hf : Tries f) (p : Precedence) (pair : Nat × Nat) :
    p.Extends (f p pair) := by
  rcases hf p pair with he | he <;> rw [he]
  · exact .refl p
  · exact p.addIfAcyclic_extends _ _

theorem Tries.size_eq (hf : Tries f) (p : Precedence) (pair : Nat × Nat) :
    (f p pair).before.size = p.before.size := by
  rcases hf p pair with he | he <;> rw [he]
  exact p.size_addIfAcyclic _ _

theorem size_foldl (hf : Tries f) (l : List (Nat × Nat)) (p : Precedence) :
    (l.foldl f p).before.size = p.before.size :=
  List.foldlRecOn (motive := fun q : Precedence => q.before.size = p.before.size) _ _ rfl
    fun q hq pair _ => (hf.size_eq q pair).trans hq

/-- Nothing comes in but what is tried. -/
theorem before_foldl (hf : Tries f) (h : (l.foldl f p).Before a b) :
    p.Before a b ∨ (a, b) ∈ l ∧ ∃ q, f q (a, b) ≠ q := by
  induction l generalizing p with
  | nil => exact .inl h
  | cons pair l ih =>
    rcases ih h with hstep | ⟨hl, htried⟩
    · by_cases hsame : f p pair = p
      · rw [hsame] at hstep
        exact .inl hstep
      · rw [(hf p pair).resolve_left hsame] at hstep
        rcases before_addIfAcyclic hstep with hp | ⟨rfl, rfl⟩
        · exact .inl hp
        · exact .inr ⟨List.mem_cons_self .., p, hsame⟩
    · exact .inr ⟨List.mem_cons_of_mem _ hl, htried⟩

/-- A pair that is tried is decided, and what is tried later leaves it so. -/
theorem foldl_decided (hf : Tries f) (hl : pair ∈ l)
    (hpair : ∀ q, f q pair = q.addIfAcyclic pair.1 pair.2) (hsize : pair.1 < p.before.size) :
    (l.foldl f p).Decided pair.1 pair.2 := by
  obtain ⟨l₁, l₂, rfl⟩ := List.append_of_mem hl
  rw [List.foldl_append, List.foldl_cons, hpair]
  have hstep : ((l₁.foldl f p).addIfAcyclic pair.1 pair.2).Decided pair.1 pair.2 :=
    addIfAcyclic_decided (by rw [size_foldl hf]; exact hsize)
  exact hstep.extends (foldl_extends f hf.extends l₂ _)

end Precedence

namespace WorkGraph

variable {g g' : WorkGraph} {footprint : Nat → Footprint} {footprints : List Footprint}
  {p : Precedence} {a b i j id : Nat} {n : Node} {H : BuildId → TaskPath → Prop}

/-! ## The frozen order -/

/-- Try to order two nodes by their batches, if their footprints are in conflict. -/
def tryConflict (g : WorkGraph) (footprint : Nat → Footprint) (p : Precedence) (pair : Nat × Nat) :
    Precedence :=
  match g.ordinalOf pair.1, g.ordinalOf pair.2 with
  | some l, some e =>
    if e < l && (footprint pair.1).conflicts (footprint pair.2) then p.addIfAcyclic pair.1 pair.2
    else p
  | _, _ => p

def tryHint (g : WorkGraph) (p : Precedence) (pair : Nat × Nat) : Precedence :=
  if g.ordinalOf pair.1 = g.ordinalOf pair.2 then p.addIfAcyclic pair.1 pair.2 else p

theorem orderConflicts_eq (g : WorkGraph) (footprint : Nat → Footprint) (p : Precedence) :
    g.orderConflicts footprint p =
      (pairs g.scheduled.toList).foldl (g.tryConflict footprint) p := rfl

theorem acceptHints_eq (g : WorkGraph) (p : Precedence) :
    g.acceptHints p = g.hints.foldl g.tryHint p := rfl

theorem tryConflict_tries (g : WorkGraph) (footprint : Nat → Footprint) :
    Precedence.Tries (g.tryConflict footprint) := by
  intro p pair
  rw [tryConflict]
  split
  · split
    · exact .inr rfl
    · exact .inl rfl
  · exact .inl rfl

theorem tryHint_tries (g : WorkGraph) : Precedence.Tries g.tryHint := by
  intro p pair
  rw [tryHint]
  split
  · exact .inr rfl
  · exact .inl rfl

theorem mem_pairs {ids : List Nat} : (a, b) ∈ pairs ids ↔ a ∈ ids ∧ b ∈ ids := by
  simp [pairs]

theorem mem_hints : (a, b) ∈ g.hints ↔ a ∈ g.scheduled ∧ b ∈ g.scheduled ∧
    ∃ n, g.nodes[a]? = some n ∧ b ∈ n.successors.shouldRunAfter := by
  rw [hints, List.mem_flatMap]
  constructor
  · rintro ⟨id, hid, hpair⟩
    cases hn : g.nodes[id]? with
    | none => simp [hn] at hpair
    | some n =>
      rw [hn, Option.map_some, Option.getD_some, List.mem_map] at hpair
      obtain ⟨s, hs, heq⟩ := hpair
      cases heq
      obtain ⟨hsucc, hb⟩ := mem_inRun.1 hs
      exact ⟨Std.TreeSet.mem_toList.1 hid, hb, n, hn, hsucc⟩
  · rintro ⟨ha, hb, n, hn, hsucc⟩
    refine ⟨a, Std.TreeSet.mem_toList.2 ha, ?_⟩
    rw [hn, Option.map_some, Option.getD_some, List.mem_map]
    exact ⟨b, mem_inRun.2 ⟨hsucc, hb⟩, rfl⟩

theorem size_orderConflicts (g : WorkGraph) (footprint : Nat → Footprint) (p : Precedence) :
    (g.orderConflicts footprint p).before.size = p.before.size := by
  rw [orderConflicts_eq, Precedence.size_foldl (g.tryConflict_tries footprint)]

theorem orderConflicts_decided (ha : a ∈ g.scheduled) (hb : b ∈ g.scheduled)
    (hsize : a < p.before.size) {l e : Nat} (hl : g.ordinalOf a = some l)
    (he : g.ordinalOf b = some e) (hlt : e < l)
    (hconflict : (footprint a).conflicts (footprint b) = true) :
    (g.orderConflicts footprint p).Decided a b := by
  have hpair : (a, b) ∈ pairs g.scheduled.toList :=
    mem_pairs.2 ⟨Std.TreeSet.mem_toList.2 ha, Std.TreeSet.mem_toList.2 hb⟩
  rw [orderConflicts_eq]
  refine Precedence.foldl_decided (g.tryConflict_tries footprint) hpair (fun q => ?_) hsize
  simp [tryConflict, hl, he, hlt, hconflict]

theorem acceptHints_decided (hint : (a, b) ∈ g.hints) (hsize : a < p.before.size)
    (ho : g.ordinalOf a = g.ordinalOf b) : (g.acceptHints p).Decided a b := by
  rw [acceptHints_eq]
  exact Precedence.foldl_decided g.tryHint_tries hint (fun q => by simp [tryHint, ho]) hsize

/-- The frozen order is among the nodes of the run. -/
theorem scheduled_of_frozenOrder (h : (g.frozenOrder footprints).Before a b) :
    a ∈ g.scheduled ∧ b ∈ g.scheduled := by
  rw [frozenOrder, acceptHints_eq, orderConflicts_eq] at h
  rcases Precedence.before_foldl g.tryHint_tries h with h | ⟨h, -⟩
  · rcases Precedence.before_foldl (g.tryConflict_tries _) h with h | ⟨h, -⟩
    · obtain ⟨ha, hb, _⟩ := mandatory_before_iff.1 h
      exact ⟨ha, hb⟩
    · obtain ⟨ha, hb⟩ := mem_pairs.1 h
      exact ⟨Std.TreeSet.mem_toList.1 ha, Std.TreeSet.mem_toList.1 hb⟩
  · obtain ⟨ha, hb, _⟩ := mem_hints.1 h
    exact ⟨ha, hb⟩

/-! ## Ordinals -/

/-- Each node of the run is in a batch. -/
def Dated (g : WorkGraph) : Prop :=
  ∀ (i : Nat) n, g.nodes[i]? = some n → n.state.isScheduled = true → n.ordinal.isSome = true

theorem Built.dated (h : Built g) : g.Dated := by
  intro i n hn hs
  obtain ⟨o, ho⟩ := (h.rested.run i).1 ⟨n, hn, hs⟩
  rw [← ordinalOf_of_getElem? hn, ho]
  rfl

/-! ## The plan -/

theorem lookup_zip_isSome {α β : Type} [BEq α] [LawfulBEq α] {l : List α} {l' : List β} {x : α}
    (hlen : l.length = l'.length) (hx : x ∈ l) : ∃ y, (l.zip l').lookup x = some y := by
  induction l generalizing l' with
  | nil => cases hx
  | cons a l ih =>
    obtain _ | ⟨b, l'⟩ := l'
    · simp at hlen
    · rw [List.zip_cons_cons, List.lookup_cons]
      by_cases hxa : x = a
      · exact ⟨b, by simp [hxa]⟩
      · obtain ⟨y, hy⟩ := ih (Nat.succ.inj hlen) ((List.mem_cons.1 hx).resolve_left hxa)
        exact ⟨y, by rw [beq_false_of_ne hxa]; exact hy⟩

theorem mem_of_lookup {α β : Type} [BEq α] [LawfulBEq α] {l : List (α × β)} {x : α} {y : β}
    (h : l.lookup x = some y) : (x, y) ∈ l := by
  induction l with
  | nil => cases h
  | cons pair l ih =>
    obtain ⟨a, b⟩ := pair
    rw [List.lookup_cons] at h
    split at h
    · rename_i hxa
      cases h
      rw [eq_of_beq hxa]
      exact List.mem_cons_self ..
    · exact List.mem_cons_of_mem _ (ih h)

/-- The footprint that freezing looks at is the one that the plan keeps. -/
theorem PlannedAs.lookup_footprint {plan : Plan} {m : PlannedNode}
    (hu : g.PlannedAs p plan i id n m) (hf : g.footprints = .ok footprints) :
    ((g.scheduled.toList.zip footprints).lookup id).getD .none = m.footprint := by
  have hfoot := forall₂_of_mapM_ok hf
  obtain ⟨f, hlook⟩ := lookup_zip_isSome hfoot.length_eq (List.mem_of_getElem? hu.position)
  have hid := (List.forall₂_iff_zip.1 hfoot).2 (mem_of_lookup hlook)
  rw [hu.node, Option.map_some, Option.getD_some, hu.footprint] at hid
  rw [hlook, Option.getD_some]
  exact (Except.ok.inj hid).symm

/-- A node of the plan has the batch of its node in the graph. -/
theorem PlannedAs.ordinalOf_eq {plan : Plan} {m : PlannedNode} (hu : g.PlannedAs p plan i id n m)
    (hs : g.Sound H) (hd : g.Dated) : g.ordinalOf id = some m.ordinal := by
  obtain ⟨_, _, rfl⟩ := hu.eq
  obtain ⟨n', hn', hsched⟩ := (hs.scheduled id).1
    (Std.TreeSet.mem_toList.1 (List.mem_of_getElem? hu.position))
  cases hn'.symm.trans hu.node
  obtain ⟨o, ho⟩ := Option.isSome_iff_exists.1 (hd id n hu.node hsched)
  simp [ordinalOf, hu.node, ho, planNode]

theorem mem_positions_of {order ids : List Nat} (hd : order.Nodup) (hj : order[j]? = some b)
    (hb : b ∈ ids) : j ∈ positions order ids := by
  obtain ⟨hlt, heq⟩ := List.getElem?_eq_some_iff.1 hj
  rw [positions, List.mem_filterMap]
  refine ⟨b, hb, List.idxOf?_eq_some_iff.2 ⟨hlt, heq, fun k hk hkb => ?_⟩⟩
  have hkj := hd.getElem_inj_iff.1 (hkb.trans heq.symm)
  omega

/-- The edges of the plan are all those of the frozen order, whichever list they went to. -/
theorem waits_iff_before (hs : g.Sound H) (hf : g.FrozenTo footprints p g')
    (ha : g.scheduled.toList[i]? = some a) (hb : g.scheduled.toList[j]? = some b) :
    (g.planOf footprints p).Waits i j ↔ p.Before a b := by
  constructor
  · intro h
    obtain ⟨a', b', ha', hb', hab⟩ := before_of_waits hs hf h
    cases ha.symm.trans ha'
    cases hb.symm.trans hb'
    exact hab
  · intro hab
    obtain ⟨hall, hplaces⟩ := planOf_nodes hs hf.footprints_eq p
    obtain ⟨m, hm⟩ := hplaces i a ha
    obtain ⟨a', n, hu⟩ := hall i m hm
    cases ha.symm.trans hu.position
    obtain ⟨_, _, rfl⟩ := hu.eq
    refine ⟨_, hm, ?_⟩
    have hmem : ∀ ids : List Nat, b ∈ ids → j ∈ positions g.scheduled.toList ids :=
      fun ids => mem_positions_of (nodup_toList g.scheduled) hb
    by_cases hdep : b ∈ n.successors.dependencies
    · exact .inl (hmem _ (Std.TreeSet.mem_toList.2 hdep))
    · by_cases hfin : b ∈ n.finalizes
      · exact .inr (.inl (hmem _ (Std.TreeSet.mem_toList.2 hfin)))
      · refine .inr (.inr (hmem _ (List.mem_filter.2 ⟨Std.TreeSet.mem_toList.2 hab, ?_⟩)))
        rw [Std.TreeSet.mem_iff_contains, Bool.not_eq_true] at hdep hfin
        simp [hdep, hfin]

/-- A path of the frozen order among nodes of the run is one of the plan. -/
theorem waits_of_path (hs : g.Sound H) (hf : g.FrozenTo footprints p g')
    (hrun : ∀ a b, p.Before a b → a ∈ g.scheduled ∧ b ∈ g.scheduled)
    (ha : g.scheduled.toList[i]? = some a) (hb : g.scheduled.toList[j]? = some b)
    (h : ReflTransGen p.Before a b) : ReflTransGen (g.planOf footprints p).Waits i j := by
  have hplace : ∀ c ∈ g.scheduled, g.scheduled.toList[g.scheduled.toList.idxOf c]? = some c := by
    intro c hc
    have hlt := List.idxOf_lt_length_of_mem (Std.TreeSet.mem_toList.2 hc)
    rw [List.getElem?_eq_getElem hlt, List.getElem_idxOf]
  have hindex : ∀ {k c : Nat}, g.scheduled.toList[k]? = some c →
      g.scheduled.toList.idxOf c = k := by
    intro k c hk
    have hc := hplace c (Std.TreeSet.mem_toList.1 (List.mem_of_getElem? hk))
    exact (List.getElem?_inj (List.getElem?_eq_some_iff.1 hc).1 (nodup_toList g.scheduled)).1
      (hc.trans hk.symm)
  rw [← hindex ha, ← hindex hb]
  exact h.lift g.scheduled.toList.idxOf fun c d hcd =>
    (waits_iff_before hs hf (hplace c (hrun c d hcd).1) (hplace d (hrun c d hcd).2)).2 hcd

/-- An edge of the mandatory order is one of the plan. -/
theorem waits_of_mandatory (hs : g.Sound H) (hf : g.FrozenTo footprints p g')
    (ha : g.scheduled.toList[i]? = some a) (hb : g.scheduled.toList[j]? = some b)
    (hn : g.nodes[a]? = some n)
    (hedge : b ∈ n.successors.dependencies ∨ b ∈ n.successors.mustRunAfter ∨ b ∈ n.finalizes) :
    (g.planOf footprints p).Waits i j := by
  have ha' : a ∈ g.scheduled := Std.TreeSet.mem_toList.1 (List.mem_of_getElem? ha)
  have hb' : b ∈ g.scheduled := Std.TreeSet.mem_toList.1 (List.mem_of_getElem? hb)
  exact (waits_iff_before hs hf ha hb).2
    (hf.extended.before a b (mandatory_before_iff.2 ⟨ha', hb', n, hn, hedge⟩))

theorem waits_of_decided (hs : g.Sound H) (hf : g.FrozenTo footprints p g')
    (hrun : ∀ a b, p.Before a b → a ∈ g.scheduled ∧ b ∈ g.scheduled)
    (ha : g.scheduled.toList[i]? = some a) (hb : g.scheduled.toList[j]? = some b) (hij : i ≠ j)
    (h : p.Decided a b) : (g.planOf footprints p).Waits i j ∨
      TransGen (g.planOf footprints p).Waits j i := by
  rcases h with hab | hpath
  · exact .inl ((waits_iff_before hs hf ha hb).2 hab)
  · have hback := waits_of_path hs hf hrun hb ha hpath
    exact .inr ((reflTransGen_iff_eq_or_transGen.1 hback).resolve_left hij)

/-- Keys tell the edges of nodes. -/
theorem Distinct.mem_of_refers (hd : g.Distinct) {r : Relationship} {u : Node}
    (hn : g.nodes[a]? = some n) (hu : g.nodes[b]? = some u) (h : g.Refers n.key r u.key) :
    b ∈ n.successors.get r := by
  obtain ⟨a', b', n', u', hn', hkn, hu', hku, hb⟩ := h
  cases hd a' a n' n hn' hn hkn
  cases hd b' b u' u hu' hu hku
  cases hn'.symm.trans hn
  exact hb

theorem size_mandatory (g : WorkGraph) : g.mandatory.before.size = g.nodes.size := by
  simp [mandatory]

/-- The frozen order is decided about two nodes in conflict. -/
theorem frozenOrder_conflict (hf : g.footprints = .ok footprints) (hs : g.Sound H) (hd : g.Dated)
    {plan : Plan} {m u : PlannedNode} {v : Node} (hm : g.PlannedAs p plan i a n m)
    (hu : g.PlannedAs p plan j b v u) (hconflict : m.footprint.conflicts u.footprint = true)
    (hlt : u.ordinal < m.ordinal) : (g.frozenOrder footprints).Decided a b := by
  have ha : a ∈ g.scheduled := Std.TreeSet.mem_toList.1 (List.mem_of_getElem? hm.position)
  have hb : b ∈ g.scheduled := Std.TreeSet.mem_toList.1 (List.mem_of_getElem? hu.position)
  have hsize : a < g.mandatory.before.size := by
    rw [size_mandatory]
    exact (Array.getElem?_eq_some_iff.1 hm.node).1
  rw [← hm.lookup_footprint hf, ← hu.lookup_footprint hf] at hconflict
  exact (orderConflicts_decided ha hb hsize (hm.ordinalOf_eq hs hd) (hu.ordinalOf_eq hs hd) hlt
    hconflict).extends (g.acceptHints_extends _)

/-- The frozen order is decided about a hint between two nodes of a batch. -/
theorem frozenOrder_hint (footprints : List Footprint) (hs : g.Sound H) (hd : g.Dated) {plan : Plan}
    {m u : PlannedNode} {v : Node} (hm : g.PlannedAs p plan i a n m)
    (hu : g.PlannedAs p plan j b v u)
    (hint : b ∈ n.successors.shouldRunAfter) (ho : m.ordinal = u.ordinal) :
    (g.frozenOrder footprints).Decided a b := by
  have ha : a ∈ g.scheduled := Std.TreeSet.mem_toList.1 (List.mem_of_getElem? hm.position)
  have hb : b ∈ g.scheduled := Std.TreeSet.mem_toList.1 (List.mem_of_getElem? hu.position)
  have hmem : (a, b) ∈ g.hints := mem_hints.2 ⟨ha, hb, n, hm.node, hint⟩
  refine acceptHints_decided hmem ?_ ?_
  · rw [size_orderConflicts, size_mandatory]
    exact (Array.getElem?_eq_some_iff.1 hm.node).1
  · rw [hm.ordinalOf_eq hs hd, hu.ordinalOf_eq hs hd, ho]

end WorkGraph

/-! ## The order of a plan -/

/-- What the order of a plan is, against the graph that it was frozen from. -/
structure Plan.Orders (p : Plan) (g : WorkGraph) : Prop where
  acyclic : Acyclic p.Waits
  /-- A node of the plan is one of the run, with its batch and its footprint. -/
  node : ∀ (i : Nat) m, p.nodes[i]? = some m → ∃ id n, id ∈ g.scheduled ∧ g.nodes[id]? = some n ∧
    n.work = m.work ∧ n.ordinal = some m.ordinal ∧ n.work.footprint = .ok m.footprint
  /-- Each node of the run has its place. -/
  place : ∀ (id : Nat) n, id ∈ g.scheduled → g.nodes[id]? = some n →
    ∃ (i : Nat) (m : PlannedNode), p.nodes[i]? = some m ∧ m.key = n.key
  /-- All that a node depends on is in the plan and comes first. -/
  dependency : ∀ (i : Nat) m key, p.nodes[i]? = some m → g.Refers m.key .dependency key →
    ∃ (j : Nat) (u : PlannedNode), p.nodes[j]? = some u ∧ u.key = key ∧ p.Waits i j
  mustRunAfter : ∀ (i j : Nat) m u, p.nodes[i]? = some m → p.nodes[j]? = some u →
    g.Refers m.key .mustRunAfter u.key → p.Waits i j
  finalizer : ∀ (i j : Nat) m u, p.nodes[i]? = some m → p.nodes[j]? = some u →
    g.Refers u.key .finalizedBy m.key → p.Waits i j
  /-- Of two nodes in conflict the one of the later batch waits for the other, unless that one waits
  for it. -/
  conflict : ∀ (i j : Nat) m u, p.nodes[i]? = some m → p.nodes[j]? = some u →
    m.footprint.conflicts u.footprint = true → u.ordinal < m.ordinal →
      (TransGen p.Waits i j ↔ ¬ TransGen p.Waits j i)
  /-- A hint between two nodes of a batch is an edge, unless the node to come first waits for the
  other. -/
  hint : ∀ (i j : Nat) m u, i ≠ j → p.nodes[i]? = some m → p.nodes[j]? = some u →
    g.Refers m.key .shouldRunAfter u.key → m.ordinal = u.ordinal →
      (p.Waits i j ↔ ¬ TransGen p.Waits j i)

namespace WorkGraph

variable {g g' : WorkGraph}

/-- The plan of a frozen graph has no loop, has all edges of the mandatory order, and has of
conflicts and hints as many as can be. -/
theorem freeze_orders (hb : Built g) (hf : g.freeze = .ok g') :
    ∃ plan, g'.plan = some plan ∧ plan.Orders g := by
  obtain ⟨footprints, hto⟩ := frozenTo_of_freeze hf
  have hs := hb.sound
  have hd := hb.settled.wired.distinct
  have hrun : ∀ a b, (g.frozenOrder footprints).Before a b → a ∈ g.scheduled ∧ b ∈ g.scheduled :=
    fun _ _ => scheduled_of_frozenOrder
  obtain ⟨hall, hplaces⟩ := planOf_nodes hs hto.footprints_eq (g.frozenOrder footprints)
  have hmem : ∀ {i id : Nat}, g.scheduled.toList[i]? = some id → id ∈ g.scheduled :=
    fun hi => Std.TreeSet.mem_toList.1 (List.mem_of_getElem? hi)
  have hacyc := (planOf_sound hs hto).acyclic
  refine ⟨g.planOf footprints (g.frozenOrder footprints), by rw [hto.eq]; rfl, ?_⟩
  constructor
  case acyclic => exact hacyc
  case node =>
    intro i m hm
    obtain ⟨id, n, hu⟩ := hall i m hm
    have ho := hu.ordinalOf_eq hs hb.dated
    rw [ordinalOf, hu.node, Option.bind_some] at ho
    obtain ⟨_, _, heq⟩ := hu.eq
    exact ⟨id, n, hmem hu.position, hu.node, by rw [heq]; rfl, ho, hu.footprint⟩
  case place =>
    intro id n hid hn
    obtain ⟨i, hi⟩ := List.mem_iff_getElem?.1 (Std.TreeSet.mem_toList.2 hid)
    obtain ⟨m, hm⟩ := hplaces i id hi
    obtain ⟨id', n', hu⟩ := hall i m hm
    cases hi.symm.trans hu.position
    cases hn.symm.trans hu.node
    exact ⟨i, m, hm, hu.key_eq⟩
  case dependency =>
    intro i m key hm hdep
    obtain ⟨a, n, hu⟩ := hall i m hm
    obtain ⟨n', hn', hsched⟩ := (hs.scheduled a).1 (hmem hu.position)
    cases hn'.symm.trans hu.node
    rw [hu.key_eq] at hdep
    obtain ⟨b, v, hv, rfl, hin⟩ := hb.settled.includes ⟨a, n, hu.node, rfl, hsched⟩ (.inl hdep)
    obtain ⟨j, hj⟩ := List.mem_iff_getElem?.1
      (Std.TreeSet.mem_toList.2 ((hs.scheduled b).2 ⟨v, hv, hin⟩))
    obtain ⟨u, hum⟩ := hplaces j b hj
    obtain ⟨b', v', hu'⟩ := hall j u hum
    cases hj.symm.trans hu'.position
    cases hv.symm.trans hu'.node
    exact ⟨j, u, hum, hu'.key_eq,
      waits_of_mandatory hs hto hu.position hj hu.node (.inl (hd.mem_of_refers hu.node hv hdep))⟩
  case mustRunAfter =>
    intro i j m u hm hu hafter
    obtain ⟨a, n, hm⟩ := hall i m hm
    obtain ⟨b, v, hu⟩ := hall j u hu
    rw [hm.key_eq, hu.key_eq] at hafter
    exact waits_of_mandatory hs hto hm.position hu.position hm.node
      (.inr (.inl (hd.mem_of_refers hm.node hu.node hafter)))
  case finalizer =>
    intro i j m u hm hu hfin
    obtain ⟨a, n, hm⟩ := hall i m hm
    obtain ⟨b, v, hu⟩ := hall j u hu
    rw [hm.key_eq, hu.key_eq] at hfin
    have hback := (hb.settled.wired.finalizes b a n hm.node).2
      ⟨v, hu.node, hd.mem_of_refers hu.node hm.node hfin⟩
    exact waits_of_mandatory hs hto hm.position hu.position hm.node (.inr (.inr hback))
  case conflict =>
    intro i j m u hm hu hconflict hlt
    have hij : i ≠ j := by
      rintro rfl
      cases hm.symm.trans hu
      exact Nat.lt_irrefl _ hlt
    obtain ⟨a, n, hm⟩ := hall i m hm
    obtain ⟨b, v, hu⟩ := hall j u hu
    have hdecided := frozenOrder_conflict hto.footprints_eq hs hb.dated hm hu hconflict hlt
    refine ⟨fun hchain hback => hacyc i (hchain.trans hback), fun hno => ?_⟩
    exact .single
      ((waits_of_decided hs hto hrun hm.position hu.position hij hdecided).resolve_right hno)
  case hint =>
    intro i j m u hij hm hu hafter ho
    obtain ⟨a, n, hm⟩ := hall i m hm
    obtain ⟨b, v, hu⟩ := hall j u hu
    rw [hm.key_eq, hu.key_eq] at hafter
    have hdecided := frozenOrder_hint footprints hs hb.dated hm hu
      (hd.mem_of_refers hm.node hu.node hafter) ho
    refine ⟨fun hwait hback => hacyc i (.head hwait hback), fun hno => ?_⟩
    exact (waits_of_decided hs hto hrun hm.position hu.position hij hdecided).resolve_right hno

/-- A build, and later a batch that removes what was built. -/
def cleanedGraph : WorkGraph :=
  (schedule (none : Option (CrossBuild Unit)) [⟨":", "clean"⟩]
    (requested [
      { smallTask "build" [] [] [] with mutations := ⟨[⟨"out/app"⟩], [], [], []⟩ },
      { smallTask "clean" [] [] [] with mutations := ⟨[], [], [], [⟨"out"⟩]⟩ }] ["build"],
      ())).2.1

/-- The later batch waits for the build, which does not wait for it. -/
theorem cleanedGraph_orders : ∃ plan, cleanedGraph.frozen.plan = some plan ∧
    plan.Orders cleanedGraph ∧ plan.Waits 1 0 ∧ ¬ TransGen plan.Waits 0 1 := by
  have hbuilt : Built cleanedGraph := (requested_built _ _).schedule _ _ _
  obtain ⟨plan, hplan, horders⟩ :=
    freeze_orders hbuilt (freeze_eq_frozen (g := cleanedGraph) (by decide +kernel))
  cases (plan_frozen (g := cleanedGraph) (by decide +kernel)).symm.trans hplan
  have hnodes : (cleanedGraph.firstStage.run.plan.nodes[0]?).any (fun u =>
      (cleanedGraph.firstStage.run.plan.nodes[1]?).any fun m =>
        m.footprint.conflicts u.footprint && u.ordinal < m.ordinal && 0 ∈ m.runAfter) = true := by
    decide +kernel
  simp only [Option.any_eq_true, Bool.and_eq_true, decide_eq_true_eq] at hnodes
  obtain ⟨u, hu, m, hm, ⟨hconflict, hlt⟩, hafter⟩ := hnodes
  have hwaits : cleanedGraph.firstStage.run.plan.Waits 1 0 := ⟨m, hm, .inr (.inr hafter)⟩
  exact ⟨_, hplan, horders, hwaits,
    (horders.conflict 1 0 _ _ hm hu hconflict hlt).1 (.single hwaits)⟩

end WorkGraph

end Foreman
