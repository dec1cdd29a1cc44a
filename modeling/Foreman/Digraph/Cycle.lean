import Foreman.Digraph
import Foreman.Error

/-!
# Cycles

`Digraph.checkCycles` walks a graph depth first from given roots. When an edge leads back to a node
of the walk, the nodes from there on hold a cycle, and a breadth-first search among them alone, from
the one with the least name, gives the cycle that is reported.
-/

namespace Foreman

namespace Digraph

/-! ## Depth first -/

/-- A node of the current walk and those of its successors that are still to be tried. -/
structure Frame where
  node : Nat
  rest : List Nat
  deriving DecidableEq, Repr

/-- How many steps the frames still take without visiting a new node. -/
def Frame.weight (walk : List Frame) : Nat := total (·.rest.length + 1) walk

def frame (g : Digraph) (n : Nat) : Frame := ⟨n, g.next n⟩

/-- The part of the walk from node `c` on, in the order of the walk; the walk is given latest
first. -/
def walkFrom (c : Nat) (walk : List Frame) : List Nat :=
  ((walk.map (·.node)).takeWhile (· ≠ c) ++ [c]).reverse

/-- Go on with a walk, latest frame first; the seen nodes are those of the walk and those it is
done with. The result is the nodes of a walk that closes on itself (an error), or all nodes seen
when there is none. -/
def search (g : Digraph) : List Frame → NodeSet → Except (List Nat) NodeSet
  | [], seen => .ok seen
  | ⟨_, []⟩ :: walk, seen => g.search walk seen
  | ⟨n, c :: rest⟩ :: walk, seen =>
    if _ : c < g.size ∧ c ∉ seen then
      g.search (g.frame c :: ⟨n, rest⟩ :: walk) (seen.insert c)
    else if c = n ∨ c ∈ walk.map (·.node) then .error (walkFrom c (⟨n, rest⟩ :: walk))
    else g.search (⟨n, rest⟩ :: walk) seen
termination_by walk seen => g.pending seen + Frame.weight walk
decreasing_by
  · simp only [Frame.weight, total_cons]
    omega
  · rename_i h
    have := g.pending_insert_le h.1 h.2
    simp only [Frame.weight, frame, total_cons, List.length_cons]
    omega
  · simp only [Frame.weight, total_cons, List.length_cons]
    omega

def searchRoots (g : Digraph) : List Nat → NodeSet → Except (List Nat) NodeSet
  | [], seen => .ok seen
  | root :: roots, seen =>
    if root < g.size ∧ root ∉ seen then
      match g.search [g.frame root] (seen.insert root) with
      | .ok seen => g.searchRoots roots seen
      | .error walk => .error walk
    else g.searchRoots roots seen

/-- The nodes of a walk that closes on itself, if one can be reached from the roots. -/
def closedWalk? (g : Digraph) (roots : List Nat) : Option (List Nat) :=
  match g.searchRoots roots ∅ with
  | .ok _ => none
  | .error walk => some walk

/-! ## Breadth first -/

/-- Queue a path to each successor that is a member and was not seen. A path is given latest node
first. -/
def enqueue (members path : List Nat) : List Nat → List (List Nat) × NodeSet →
    List (List Nat) × NodeSet
  | [], state => state
  | c :: cs, (queue, seen) =>
    if c ∈ members ∧ c ∉ seen then enqueue members path cs (queue ++ [c :: path], seen.insert c)
    else enqueue members path cs (queue, seen)

theorem weight_enqueue_le (members path cs : List Nat) (state : List (List Nat) × NodeSet) :
    2 * unseen members (enqueue members path cs state).2 +
        (enqueue members path cs state).1.length
      ≤ 2 * unseen members state.2 + state.1.length := by
  induction cs generalizing state with
  | nil => exact Nat.le_refl _
  | cons c cs ih =>
    obtain ⟨queue, seen⟩ := state
    by_cases h : c ∈ members ∧ c ∉ seen
    · simp only [enqueue, if_pos h]
      have := ih (queue ++ [c :: path], seen.insert c)
      have := unseen_insert_lt h.1 h.2
      simp only [List.length_append, List.length_cons, List.length_nil] at *
      omega
    · simp only [enqueue, if_neg h]
      exact ih (queue, seen)

/-- The first cycle through `start` among the members, found from the queued paths. -/
def cycleThrough (g : Digraph) (members : List Nat) (start : Nat) :
    List (List Nat) → NodeSet → Option (List Nat)
  | [], _ => none
  | [] :: queue, seen => g.cycleThrough members start queue seen
  | (n :: path) :: queue, seen =>
    if start ∈ g.next n then some (n :: path).reverse
    else
      let state := enqueue members (n :: path) (g.next n) (queue, seen)
      g.cycleThrough members start state.1 state.2
termination_by queue seen => 2 * unseen members seen + queue.length
decreasing_by
  · simp only [List.length_cons]
    omega
  · have := weight_enqueue_le members (n :: path) (g.next n) (queue, seen)
    simp only [List.length_cons] at *
    omega

/-! ## The check -/

def leastNamed (name : Nat → String) : Nat → List Nat → Nat
  | best, [] => best
  | best, n :: ns => leastNamed name (if name n < name best then n else best) ns

def cycleAmong (g : Digraph) (name : Nat → String) : List Nat → List Nat
  | [] => []
  | n :: ns =>
    let start := leastNamed name n ns
    (g.cycleThrough (n :: ns) start [[start]] (Std.TreeSet.empty.insert start)).getD (n :: ns)

/-- Refuse a graph in which a cycle can be reached from the roots. -/
def checkCycles (g : Digraph) (roots : List Nat) (name : Nat → String) : Except GraphError Unit :=
  match g.closedWalk? roots with
  | none => .ok ()
  | some walk => .error (.cycle ((g.cycleAmong name walk).map name))

end Digraph

end Foreman
