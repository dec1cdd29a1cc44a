import Foreman.WorkGraph

/-!
# Scheduling

Requested tasks are queued, and a batch of queued tasks is merged into the run together with all
that it needs: dependencies of a required node are required, finalizers are scheduled without
being required. Each batch has its number, its ordinal; a node keeps the least ordinal that reaches
it.

A batch ends because a node is worked on at most twice, when it is first scheduled and when it
becomes required, and because there is a bound on the nodes that can ever be referred to
(`WorkGraph.nodeBound`).
-/

namespace Foreman

/-! ## How many nodes there can be -/

def Registry.allTasks (r : Registry) : List TaskDefinition :=
  r.tasks.values ++ r.providers.values.flatMap (·.tasks)

def Registry.allReferences (r : Registry) : List TaskReference :=
  r.allTasks.flatMap (·.allReferences) ++ r.providers.values.flatMap (·.references)

namespace WorkGraph

/-- A bound on the nodes of the graph at any time: those it has, one for each task that can be
declared, and one for each reference to another build. -/
def nodeBound (g : WorkGraph) : Nat :=
  g.nodes.size + g.registry.allTasks.length + g.registry.allReferences.length

/-! ## Requesting -/

/-- Request a task. It joins the run with the next batch; a task that is only there as a finalizer
joins again to become required. -/
def queue (g : WorkGraph) (path : TaskPath) : Except GraphError WorkGraph := do
  g.require .populating .queueTasks
  match g.registry.get? path with
  | none => .error (.configuration path.text (.taskMissing g.build))
  | some task =>
    let (g, id) := g.nodeFor (.task task)
    let g := g.modify id fun n =>
      if n.state = .notScheduled then { n with state := .queued } else n
    let settled := (g.nodes[id]?).any fun n => n.state.isScheduled && n.required
    return if settled then g else { g with queued := g.queued.insert id }

/-! ## Merging a batch -/

variable {σ : Type}

/-- Resolve the references of one relationship of a task and record the edges of its node. -/
def resolveRelationship (cross : Option (CrossBuild σ)) (id : Nat) (task : TaskDefinition)
    (state : WorkGraph × σ) (relationship : Relationship) : WorkGraph × σ :=
  let (g, others) := state
  let (r, error) := Resolution.resolve cross task relationship g.registry others
  let g := { g with registry := r.registry, rejected := g.rejected ++ error.toList }
  (r.targets.foldl (fun g target => g.addEdge id relationship target) g, r.others)

def resolveNode (cross : Option (CrossBuild σ)) (id : Nat) (state : WorkGraph × σ) :
    WorkGraph × σ :=
  match state.1.nodes[id]? with
  | none => state
  | some n =>
    if n.resolved then state
    else
      let state := (state.1.modify id fun n => { n with resolved := true }, state.2)
      match n.work with
      | .task task => Relationship.all.foldl (resolveRelationship cross id task) state
      | .foreign .. => state

/-- Whether there is nothing to do for a node that is asked for: it is part of the run, and
required if that is asked. -/
def isSettled (g : WorkGraph) (entry : Nat × Bool) : Bool :=
  match g.nodes[entry.1]? with
  | none => true
  | some n => n.state.isScheduled && (n.required || !entry.2)

/-- Make a node part of the run, in batch `ordinal` unless it is there already. -/
def enter (g : WorkGraph) (ordinal : Nat) (entry : Nat × Bool) : WorkGraph :=
  let (id, required) := entry
  let wasScheduled := (g.nodes[id]?).any (·.state.isScheduled)
  let g := g.modify id fun n => { n with required := n.required || required }
  if wasScheduled then g
  else
    let g := g.modify id fun n => { n with state := .scheduled }.lowerOrdinal ordinal
    { g with scheduled := g.scheduled.insert id }

/-- What a node of the run brings in: its finalizers, not required for its sake, then its
dependencies, required if it is. -/
def broughtIn (n : Node) : List (Nat × Bool) :=
  n.successors.finalizers.toList.map (·, false) ++
    n.successors.dependencies.toList.map (·, n.required)

/-- Bring the dependencies of a node into its batch, if that is an earlier one. -/
def lowerDependencies (g : WorkGraph) (n : Node) : WorkGraph :=
  match n.ordinal with
  | some ordinal =>
    n.successors.dependencies.toList.foldl (fun g d => g.modify d (·.lowerOrdinal ordinal)) g
  | none => g

/-- Work on one node that is asked for: it joins the run, its references are resolved, and what it
brings in is asked for next. -/
def expand (cross : Option (CrossBuild σ)) (ordinal : Nat) (entry : Nat × Bool)
    (state : WorkGraph × σ) : (WorkGraph × σ) × List (Nat × Bool) :=
  let (g, others) := resolveNode cross entry.1 (state.1.enter ordinal entry, state.2)
  match g.nodes[entry.1]? with
  | some n => ((g.lowerDependencies n, others), broughtIn n)
  | none => ((g, others), [])

/-- Work on what is asked for, first come first served; `fuel` bounds how often a node is worked
on. -/
def merge (cross : Option (CrossBuild σ)) (ordinal : Nat) :
    Nat → List (Nat × Bool) → WorkGraph × σ → WorkGraph × σ
  | fuel, asked, state =>
    match asked.dropWhile state.1.isSettled, fuel with
    | entry :: asked, fuel + 1 =>
      let (state, more) := expand cross ordinal entry state
      merge cross ordinal fuel (asked ++ more) state
    | _, _ => state

/-- Merge the queued tasks and all that they need into the run, as one batch. The answer is
whether the run grew or something in it became required. -/
def scheduleQueued (cross : Option (CrossBuild σ)) (state : WorkGraph × σ) :
    Except GraphError (Bool × WorkGraph × σ) := do
  let (g, others) := state
  g.require .populating .scheduleTasks
  if g.queued.isEmpty then return (false, g, others)
  let batch := g.queued.toList.map (·, true)
  let grown := !batch.all g.isSettled
  let start := { g with queued := ∅, nextOrdinal := g.nextOrdinal + 1 }
  return (grown, merge cross g.nextOrdinal (2 * g.nodeBound) batch (start, others))

/-- Queue tasks up to the first that is refused; those before it stay queued. -/
def queueAll (g : WorkGraph) (paths : List TaskPath) : WorkGraph × Option GraphError :=
  eachUntilError (fun path g =>
    match g.queue path with
    | .ok g => (g, none)
    | .error e => (g, some e)) paths g

def schedule (cross : Option (CrossBuild σ)) (paths : List TaskPath) (state : WorkGraph × σ) :
    Except GraphError Bool × WorkGraph × σ :=
  match state.1.queueAll paths with
  | (g, some e) => (.error e, g, state.2)
  | (g, none) =>
    match scheduleQueued cross (g, state.2) with
    | .ok (grown, state) => (.ok grown, state)
    | .error e => (.error e, g, state.2)

end WorkGraph

end Foreman
