import Foreman.Plan

/-!
# Demand

A node that is not required runs only if something that ran needs it: a finalizer is wanted once a
node that it finalizes has executed, and any other node while something wanted depends on it.
`Plan.demand` states this as a recursion along the dependents; `Plan.demandMemo` computes it and
notes each answer.
-/

namespace Foreman

/-- Whether a node is going to be needed. -/
inductive Demand
  | wanted
  /-- Not yet known. -/
  | pending
  | unwanted
  deriving DecidableEq, Repr

/-- The demand from two sides: wanted by either, else pending for either. -/
def Demand.join : Demand → Demand → Demand
  | wanted, _ => wanted
  | _, wanted => wanted
  | pending, _ => pending
  | _, pending => pending
  | unwanted, unwanted => unwanted

def Demand.ofFinalized (state : Option NodeState) : Demand :=
  match state with
  | some state =>
    if state.executed then wanted else if state.isTerminal then unwanted else pending
  | none => unwanted

namespace Plan

def demandOfFinalized (states : Array NodeState) (n : PlannedNode) : Demand :=
  n.finalizes.foldl (fun d f => d.join (.ofFinalized states[f]?)) .unwanted

/-- Whether a node can no longer want its dependencies. -/
def isSettled (states : Array NodeState) (i : Nat) : Bool := (states[i]?).all (·.isTerminal)

/-- The demand for node `i`, looking along at most `fuel` nodes that depend on each other; a plan
has no longer chain than it has nodes. -/
def demand (p : Plan) (states : Array NodeState) : Nat → Nat → Demand
  | 0, _ => .pending
  | fuel + 1, i =>
    match p.nodes[i]? with
    | none => .unwanted
    | some n =>
      if n.required then .wanted
      else
        (n.dependents.filter fun d => !isSettled states d).foldl
          (fun d j => d.join (p.demand states fuel j)) (demandOfFinalized states n)

abbrev Memo := Array (Option Demand)

/-- The demand from further dependents on top of `found`; it stops at the first that is wanted. -/
def demandOfDependents (states : Array NodeState) (ask : Nat → Memo → Demand × Memo) :
    List Nat → Demand → Memo → Demand × Memo
  | [], found, memo => (found, memo)
  | _, .wanted, memo => (.wanted, memo)
  | d :: ds, found, memo =>
    if isSettled states d then demandOfDependents states ask ds found memo
    else
      let (more, memo) := ask d memo
      demandOfDependents states ask ds (found.join more) memo

def demandMemo (p : Plan) (states : Array NodeState) : Nat → Nat → Memo → Demand × Memo
  | 0, _, memo => (.pending, memo)
  | fuel + 1, i, memo =>
    match memo[i]?.join with
    | some d => (d, memo)
    | none =>
      let (d, memo) : Demand × Memo :=
        match p.nodes[i]? with
        | none => (.unwanted, memo)
        | some n =>
          if n.required then (.wanted, memo)
          else
            demandOfDependents states (p.demandMemo states fuel) n.dependents
              (demandOfFinalized states n) memo
      (d, memo.setIfInBounds i (some d))

def emptyMemo (p : Plan) : Memo := Array.replicate p.size none

end Plan

end Foreman
