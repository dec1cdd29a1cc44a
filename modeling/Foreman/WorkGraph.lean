import Foreman.Digraph
import Foreman.Plan
import Foreman.Resolution

/-!
# Work graphs

The work graph of a build takes in the requested tasks and what they need. Its nodes are numbered
in the order in which something first refers to them. This module holds the graph itself, its
nodes and edges, and the questions asked of it.
-/

namespace Foreman

/-- The nodes that a node refers to, by relationship. -/
structure Successors where
  dependencies : NodeSet
  finalizers : NodeSet
  mustRunAfter : NodeSet
  shouldRunAfter : NodeSet

namespace Successors

def none : Successors := ⟨∅, ∅, ∅, ∅⟩

def get (s : Successors) : Relationship → NodeSet
  | .dependency => s.dependencies
  | .finalizedBy => s.finalizers
  | .mustRunAfter => s.mustRunAfter
  | .shouldRunAfter => s.shouldRunAfter

def insert (s : Successors) (relationship : Relationship) (id : Nat) : Successors :=
  match relationship with
  | .dependency => { s with dependencies := s.dependencies.insert id }
  | .finalizedBy => { s with finalizers := s.finalizers.insert id }
  | .mustRunAfter => { s with mustRunAfter := s.mustRunAfter.insert id }
  | .shouldRunAfter => { s with shouldRunAfter := s.shouldRunAfter.insert id }

end Successors

structure Node where
  work : Work
  state : NodeState
  /-- The earliest batch that scheduled the node or something that depends on it. -/
  ordinal : Option Nat
  /-- Requested, or needed by something requested. A node that only finalizes is not. -/
  required : Bool
  successors : Successors
  /-- The nodes that this one finalizes. -/
  finalizes : NodeSet
  /-- The references of the task were resolved. -/
  resolved : Bool

namespace Node

/-- A node that something refers to. There is nothing to resolve for another build's task. -/
def new (work : Work) : Node := ⟨work, .notScheduled, none, false, .none, ∅, work.isForeign⟩

def key (n : Node) : NodeKey := n.work.key

/-- Bring the node into an earlier batch, never into a later one. -/
def lowerOrdinal (n : Node) (ordinal : Nat) : Node :=
  { n with ordinal := some ((n.ordinal.map (min · ordinal)).getD ordinal) }

end Node

/-- The scheduled work of one build. -/
structure WorkGraph where
  registry : Registry
  phase : GraphPhase
  nodes : Array Node
  /-- Queued for execution, not yet scheduled. -/
  queued : NodeSet
  /-- The nodes of the run. -/
  scheduled : NodeSet
  nextOrdinal : Nat
  /-- The references at fault, reported when the graph is finalized. -/
  rejected : List GraphError
  exports : Exports
  plan : Option Plan
  progress : Progress

namespace WorkGraph

def new (registry : Registry) : WorkGraph where
  registry := registry
  phase := .populating
  nodes := #[]
  queued := ∅
  scheduled := ∅
  nextOrdinal := 0
  rejected := []
  exports := ∅
  plan := none
  progress := .start ⟨registry.build, #[]⟩

def build (g : WorkGraph) : BuildId := g.registry.build

def require (g : WorkGraph) (phase : GraphPhase) (operation : Operation) : Except GraphError Unit :=
  if g.phase = phase then .ok ()
  else .error (.illegalState operation (.graphIs g.build g.phase))

def declare (g : WorkGraph) (providers : List (ProviderId × Provider)) (task : TaskDefinition) :
    Except GraphError WorkGraph := do
  let registry ← (g.registry.provideAll providers).register task
  return { g with registry }

/-! ## Nodes -/

/-- The number of the node with the given key. Nodes are only added, keep their keys, and no two
have the same key, so a map from keys to numbers would hold just what this search finds; none is
kept. -/
def find? (g : WorkGraph) (key : NodeKey) : Option Nat := g.nodes.findIdx? (·.key = key)

def taskNode? (g : WorkGraph) (path : TaskPath) : Option Node :=
  (g.find? (.task path)).bind (g.nodes[·]?)

def modify (g : WorkGraph) (id : Nat) (f : Node → Node) : WorkGraph :=
  { g with nodes := g.nodes.modify id f }

def nodeFor (g : WorkGraph) (work : Work) : WorkGraph × Nat :=
  match g.find? work.key with
  | some id => (g, id)
  | none => ({ g with nodes := g.nodes.push (.new work) }, g.nodes.size)

/-- Record that node `id` refers to some work. A finalizer learns what it finalizes. -/
def addEdge (g : WorkGraph) (id : Nat) (relationship : Relationship) (target : Work) : WorkGraph :=
  let (g, succ) := g.nodeFor target
  let g := g.modify id fun n => { n with successors := n.successors.insert relationship succ }
  match relationship with
  | .finalizedBy => g.modify succ fun n => { n with finalizes := n.finalizes.insert id }
  | _ => g

/-- The keys of nodes; numbers without a node are left out. -/
def keysOf (g : WorkGraph) (ids : List Nat) : List NodeKey :=
  ids.filterMap fun id => g.nodes[id]?.map (·.key)

def nameOf (g : WorkGraph) (id : Nat) : String := (g.nodes[id]?.map (·.key.text)).getD ""

/-! ## Questions -/

/-- Whether a task is part of the run. -/
def isScheduled (g : WorkGraph) (path : TaskPath) : Bool :=
  (g.taskNode? path).any (·.state.isScheduled)

/-- Whether a task is part of the run because it was requested or something requested depends on
it. -/
def isRequired (g : WorkGraph) (path : TaskPath) : Bool :=
  (g.taskNode? path).any fun n => n.state.isScheduled && n.required

def scheduledTasks (g : WorkGraph) : List TaskPath :=
  let paths := (g.keysOf g.scheduled.toList).filterMap fun
    | .task path => some path
    | .foreign .. => none
  paths.mergeSort fun a b => (compare a b).isLE

/-- The state of a task: what execution made of it, or where it stands in the graph. -/
def stateOf? (g : WorkGraph) (path : TaskPath) : Option NodeState :=
  let executed := g.plan.bind fun plan =>
    (plan.position? (.task path)).bind g.progress.state?
  executed.or ((g.taskNode? path).map (·.state))

def taskStates (g : WorkGraph) : List (TaskPath × NodeState) :=
  g.registry.paths.filterMap fun path => (g.stateOf? path).map (path, ·)

def foreignStates (g : WorkGraph) : List (NodeKey × NodeState) :=
  match g.plan with
  | some plan =>
    (plan.nodes.toList.zip g.progress.states.toList).filterMap fun (n, state) =>
      if n.work.isForeign then some (n.key, state) else none
  | none => []

def isForeign (g : WorkGraph) (id : Nat) : Bool := (g.nodes[id]?).any (·.work.isForeign)

/-- The nodes that node `id` waits for: its dependencies, those it must run after (also in other
builds) and those it finalizes, as far as they are part of the run. -/
def waitsOf (g : WorkGraph) (n : Node) : NodeSet :=
  let after := n.successors.mustRunAfter.toList.filter fun s =>
    g.scheduled.contains s || g.isForeign s
  let finalized := n.finalizes.toList.filter g.scheduled.contains
  (after ++ finalized).foldl (·.insert ·) n.successors.dependencies

/-- For each node of the run, by key, the keys of the nodes it waits for. -/
def executionEdges (g : WorkGraph) : List (NodeKey × List NodeKey) :=
  g.scheduled.toList.filterMap fun id =>
    g.nodes[id]?.map fun n => (n.key, g.keysOf (g.waitsOf n).toList)

/-! ## Exports -/

/-- Hand out a task to other builds. The task still has to be scheduled here. What was handed out
stays handed out; new exports are taken only while the graph is populated. -/
def handOut (g : WorkGraph) (path : TaskPath) : Except ExportError WorkGraph :=
  if g.exports.contains path then .ok g
  else if g.phase ≠ .populating then .error (.closed g.build g.phase)
  else if g.registry.contains path then .ok { g with exports := g.exports.handOut path }
  else .error (.missing path g.build)

/-- Publish for every export without an outcome that its task will not run. -/
def abandonExports (g : WorkGraph) : WorkGraph := { g with exports := g.exports.abandon }

end WorkGraph

end Foreman
