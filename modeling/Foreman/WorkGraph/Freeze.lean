import Foreman.Digraph.Cycle
import Foreman.WorkGraph

/-!
# Freezing a work graph

A populated graph is checked once and frozen to a plan. The mandatory order (dependencies,
must-run-after, finalizer after finalized) must have no cycle. To it are added, one by one and only
where they close no cycle, the order between batches of nodes with conflicting footprints, and
should-run-after hints within a batch.
-/

namespace Foreman

/-! ## Precedence -/

/-- For each node the nodes that come before it. -/
structure Precedence where
  before : Array NodeSet

namespace Precedence

def digraph (p : Precedence) : Digraph := ⟨p.before.map (·.toList)⟩

def of (p : Precedence) (later : Nat) : NodeSet := p.before[later]?.getD ∅

def add (p : Precedence) (later earlier : Nat) : Precedence :=
  ⟨p.before.modify later (·.insert earlier)⟩

def addIfAcyclic (p : Precedence) (later earlier : Nat) : Precedence :=
  if p.digraph.reaches earlier later then p else p.add later earlier

end Precedence

namespace WorkGraph

def inRun (g : WorkGraph) (ids : NodeSet) : List Nat := ids.toList.filter g.scheduled.contains

def dependencyGraph (g : WorkGraph) : Digraph :=
  .ofFn g.nodes.size fun id =>
    ((g.nodes[id]?).map fun n => g.inRun n.successors.dependencies).getD []

def mandatory (g : WorkGraph) : Precedence :=
  ⟨Array.ofFn fun id : Fin g.nodes.size =>
    let n := g.nodes[id]
    if g.scheduled.contains id then
      .ofList (g.inRun n.successors.dependencies ++ g.inRun n.successors.mustRunAfter ++
        g.inRun n.finalizes) compare
    else ∅⟩

def ordinalOf (g : WorkGraph) (id : Nat) : Option Nat := (g.nodes[id]?).bind (·.ordinal)

def pairs (ids : List Nat) : List (Nat × Nat) := ids.flatMap fun a => ids.map fun b => (a, b)

/-- A later batch must not reorder an earlier one: of two nodes with conflicting footprints the one
of the later batch comes later. -/
def orderConflicts (g : WorkGraph) (footprint : Nat → Footprint) (p : Precedence) : Precedence :=
  (pairs g.scheduled.toList).foldl (fun p (later, earlier) =>
    match g.ordinalOf later, g.ordinalOf earlier with
    | some l, some e =>
      if e < l && (footprint later).conflicts (footprint earlier) then p.addIfAcyclic later earlier
      else p
    | _, _ => p) p

/-- The should-run-after hints within the run, each as the hinting node and the node to come
first. -/
def hints (g : WorkGraph) : List (Nat × Nat) :=
  g.scheduled.toList.flatMap fun id =>
    ((g.nodes[id]?).map fun n =>
      (g.inRun n.successors.shouldRunAfter).map fun s => (id, s)).getD []

/-- Accept hints within one batch, each unless it would close a cycle. -/
def acceptHints (g : WorkGraph) (p : Precedence) : Precedence :=
  g.hints.foldl (fun p (later, earlier) =>
    if g.ordinalOf later = g.ordinalOf earlier then p.addIfAcyclic later earlier else p) p

/-! ## The plan -/

/-- The footprints of the nodes of the run by their rank, or the first declaration at fault. -/
def footprints (g : WorkGraph) : Except GraphError (List Footprint) :=
  g.scheduled.toList.mapM fun id =>
    ((g.nodes[id]?).map (·.work.footprint)).getD (.ok .none)

def positions (order ids : List Nat) : List Nat := ids.filterMap (order.idxOf? ·)

/-- The plan node of node `id`, with no dependents yet; `order` lists the nodes of the run. -/
def planNode (g : WorkGraph) (order : List Nat) (p : Precedence) (footprint : Footprint)
    (id : Nat) (n : Node) : PlannedNode where
  work := n.work
  ordinal := n.ordinal.getD 0
  required := n.required
  footprint := footprint
  dependencies := positions order n.successors.dependencies.toList
  dependents := []
  runAfter := positions order <| (p.of id).toList.filter fun b =>
    !n.successors.dependencies.contains b && !n.finalizes.contains b
  finalizes := positions order n.finalizes.toList
  afterExports := (g.keysOf n.successors.mustRunAfter.toList).filterMap fun
    | .foreign build path => some (build, path)
    | .task _ => none
  exported :=
    match n.work with
    | .task definition => g.exports.contains definition.path
    | .foreign .. => false

def linkDependents (nodes : Array PlannedNode) : Array PlannedNode :=
  nodes.mapIdx fun i n =>
    { n with dependents := (List.range nodes.size).filter fun d =>
        (nodes[d]?).any (i ∈ ·.dependencies) }

def planOf (g : WorkGraph) (footprints : List Footprint) (p : Precedence) : Plan where
  build := g.build
  nodes :=
    let order := g.scheduled.toList
    linkDependents <| ((order.zip footprints).filterMap fun (id, footprint) =>
      (g.nodes[id]?).map (g.planNode order p footprint id)).toArray

def publishUnscheduled (g : WorkGraph) : WorkGraph :=
  { g with exports := g.exports.keys.foldl (fun exports path =>
      if g.isScheduled path then exports else exports.publish path .notExecuted) g.exports }

/-- Check the graph and freeze it. Nothing may be queued and no declaration of the run may be at
fault; the dependencies and the mandatory order must have no cycle. -/
def freeze (g : WorkGraph) : Except GraphError WorkGraph := do
  g.require .populating .finalizeWorkGraph
  unless g.queued.isEmpty do
    .error (.illegalState .finalizeWorkGraph (.queued g.queued.size))
  match g.rejected with
  | e :: _ => .error e
  | [] =>
    let order := g.scheduled.toList
    g.dependencyGraph.checkCycles order g.nameOf
    let footprints ← g.footprints
    g.mandatory.digraph.checkCycles order g.nameOf
    let footprint id := ((order.zip footprints).lookup id).getD .none
    let p := g.acceptHints (g.orderConflicts footprint g.mandatory)
    let plan := g.planOf footprints p
    return { g with
      plan := some plan, progress := .start plan, phase := .finalized }.publishUnscheduled

/-! ## Running the plan -/

def beginExecution (g : WorkGraph) : Except GraphError (Plan × WorkGraph) := do
  g.require .finalized .executeWorkGraph
  match g.plan with
  | some plan => .ok (plan, { g with phase := .running })
  | none => .error (.illegalState .executeWorkGraph .notFrozen)

def complete (g : WorkGraph) : Except GraphError WorkGraph := do
  g.require .running .completeWorkGraph
  return { g with phase := .completed }

end WorkGraph

end Foreman
