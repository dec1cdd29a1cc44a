import Std.Data.TreeSet

/-!
# Finite directed graphs

The nodes are numbers; the successors of a node are a list, in an order that counts and possibly
with repetitions. `Digraph.reaches` tells whether one node can be reached from another. A search
ends because every step either visits a node for the first time or uses up a successor of a visited
one (`Digraph.pending`), or because a node waits for its turn only when it is seen for the first
time (`Digraph.unseen`). Such measures are totals over lists (`total`).
-/

namespace Foreman

/-! ## Totals -/

def total {α : Type} (f : α → Nat) : List α → Nat
  | [] => 0
  | a :: as => f a + total f as

@[simp] theorem total_nil {α : Type} (f : α → Nat) : total f [] = 0 := rfl

@[simp] theorem total_cons {α : Type} (f : α → Nat) (a : α) (as : List α) :
    total f (a :: as) = f a + total f as := rfl

/-- A total is at most that of a function that is nowhere less. -/
theorem total_le_total {α : Type} {f g : α → Nat} (h : ∀ a, f a ≤ g a) (l : List α) :
    total f l ≤ total g l := by
  induction l with
  | nil => exact Nat.le_refl _
  | cons a l ih => exact Nat.add_le_add (h a) ih

/-- Where the function drops at a member, the total drops at least as much. -/
theorem total_add_le_total {α : Type} {f g : α → Nat} (h : ∀ a, f a ≤ g a) {l : List α} {a : α}
    {k : Nat} (ha : a ∈ l) (hk : f a + k ≤ g a) : total f l + k ≤ total g l := by
  induction l with
  | nil => simp at ha
  | cons b l ih =>
    simp only [total_cons]
    rcases List.mem_cons.1 ha with rfl | ha
    · have := total_le_total h l
      omega
    · have := ih ha
      have := h b
      omega

/-! ## Graphs -/

abbrev NodeSet := Std.TreeSet Nat

/-- A graph by the successors of each of its nodes. -/
structure Digraph where
  successors : Array (List Nat)
  deriving DecidableEq, Repr

namespace Digraph

def ofFn (n : Nat) (next : Nat → List Nat) : Digraph := ⟨Array.ofFn fun i : Fin n => next i⟩

/-- The number of nodes. A larger number may occur as a successor and has none itself. -/
def size (g : Digraph) : Nat := g.successors.size

/-- The successors of a node, in order. -/
def next (g : Digraph) (n : Nat) : List Nat := g.successors[n]?.getD []

/-! ## The measure of a search -/

/-- What visiting a node costs: the visit, and its successors. -/
def cost (g : Digraph) (seen : NodeSet) (n : Nat) : Nat :=
  if n ∈ seen then 0 else (g.next n).length + 2

/-- What a search may still cost beyond the nodes it has seen. -/
def pending (g : Digraph) (seen : NodeSet) : Nat := total (g.cost seen) (List.range g.size)

theorem cost_insert_le (g : Digraph) (seen : NodeSet) (c n : Nat) :
    g.cost (seen.insert c) n ≤ g.cost seen n := by
  by_cases hc : c = n <;> by_cases hn : n ∈ seen <;> simp [cost, hc, hn]

/-- The first visit of a node pays for itself and for its successors. -/
theorem pending_insert_le (g : Digraph) {seen : NodeSet} {c : Nat} (hc : c < g.size)
    (hs : c ∉ seen) : g.pending (seen.insert c) + (g.next c).length + 2 ≤ g.pending seen := by
  have hk : g.cost (seen.insert c) c + ((g.next c).length + 2) ≤ g.cost seen c := by
    simp [cost, hs]
  exact total_add_le_total (g.cost_insert_le seen c) (List.mem_range.2 hc) hk

/-- How many of the given nodes were not seen; a node that is given twice counts twice. -/
def unseen (members : List Nat) (seen : NodeSet) : Nat := (members.filter (· ∉ seen)).length

theorem unseen_insert_le (members : List Nat) (seen : NodeSet) (c : Nat) :
    unseen members (seen.insert c) ≤ unseen members seen := by
  unfold unseen
  induction members with
  | nil => simp
  | cons a members ih => grind

theorem unseen_insert_lt {members : List Nat} {seen : NodeSet} {c : Nat} (hc : c ∈ members)
    (hs : c ∉ seen) : unseen members (seen.insert c) < unseen members seen := by
  induction members with
  | nil => simp at hc
  | cons a members ih =>
    have := unseen_insert_le members seen c
    unfold unseen at *
    grind

/-! ## Reachability -/

def targets (g : Digraph) : List Nat := g.successors.toList.flatten

theorem mem_targets {g : Digraph} {n c : Nat} (h : c ∈ g.next n) : c ∈ g.targets := by
  unfold next at h
  cases hn : g.successors[n]? with
  | none =>
    rw [hn] at h
    cases h
  | some cs =>
    rw [hn] at h
    exact List.mem_flatten.2 ⟨cs, Array.mem_toList_iff.2 (Array.mem_of_getElem? hn), h⟩

/-- A search under way: the nodes seen so far, and those of them whose turn is still to come, latest
first. -/
structure Frontier where
  waiting : List Nat
  seen : NodeSet

namespace Frontier

def start (n : Nat) : Frontier := ⟨[n], (∅ : NodeSet).insert n⟩

def meet (f : Frontier) (c : Nat) : Frontier :=
  if c ∈ f.seen then f else ⟨c :: f.waiting, f.seen.insert c⟩

def meetAll (f : Frontier) (cs : List Nat) : Frontier := cs.foldl meet f

theorem weight_meet_le {members : List Nat} {c : Nat} (f : Frontier) (hc : c ∈ members) :
    unseen members (f.meet c).seen + (f.meet c).waiting.length
      ≤ unseen members f.seen + f.waiting.length := by
  by_cases hs : c ∈ f.seen
  · exact Nat.le_of_eq (by rw [meet, if_pos hs])
  · have hlt := unseen_insert_lt hc hs
    simp only [meet, if_neg hs, List.length_cons]
    omega

/-- Each node that comes to wait is one less to be seen. -/
theorem weight_meetAll_le {members cs : List Nat} (f : Frontier) (h : ∀ c ∈ cs, c ∈ members) :
    unseen members (f.meetAll cs).seen + (f.meetAll cs).waiting.length
      ≤ unseen members f.seen + f.waiting.length := by
  induction cs generalizing f with
  | nil => exact Nat.le_refl _
  | cons c cs ih =>
    have hrest := ih (f.meet c) fun d hd => h d (List.mem_cons_of_mem _ hd)
    exact Nat.le_trans hrest (f.weight_meet_le (h c (List.mem_cons_self ..)))

end Frontier

/-- Give the waiting nodes their turns, latest first, until the target's turn comes or none waits;
the successors of each are met. -/
def seek (g : Digraph) (target : Nat) : Frontier → Bool
  | ⟨[], _⟩ => false
  | ⟨n :: waiting, seen⟩ =>
    if n = target then true else g.seek target (Frontier.meetAll ⟨waiting, seen⟩ (g.next n))
termination_by f => unseen g.targets f.seen + f.waiting.length
decreasing_by
  have := Frontier.weight_meetAll_le ⟨waiting, seen⟩ fun c (hc : c ∈ g.next n) => mem_targets hc
  simp only [List.length_cons] at *
  omega

/-- Whether a path of zero or more edges leads from one node to the other. -/
def reaches (g : Digraph) (source target : Nat) : Bool := g.seek target (.start source)

end Digraph

end Foreman
