import Foreman.WorkGraph.Freeze
import Foreman.WorkGraph.Schedule
import Foreman.Workshop

/-!
# Controllers

A controller leads one build through a tree: tasks are requested and scheduled, the work graph is
frozen, its execution is started as a job, and one caller collects the failures. A frozen graph is
executed once, turn by turn in such a job or by a crew of its own (`WorkGraph.runWork`).
-/

namespace Foreman

/-! ## Executing a work graph -/

namespace WorkGraph

def run? (g : WorkGraph) : Option Run := g.plan.map (⟨·, g.progress, g.exports⟩)

def keep (g : WorkGraph) (r : Run) : WorkGraph :=
  { g with progress := r.progress, exports := r.exports }

/-- Execute the finalized graph with a crew led by worker `leader`. The result is every failure of
the run; the log holds what the actions left. -/
def runWork (g : WorkGraph) (services : Services) (foreign : Foreign) (leader : Worker) :
    Except GraphError (List BuildFailure) × WorkGraph × Services × List Event :=
  match g.beginExecution with
  | .error e => (.error e, g, services, [])
  | .ok (plan, g) =>
    let w := ((Workshop.new services foreign).enroll ⟨plan, g.progress, g.exports⟩ leader
      leader).execute
    let (result, r) := ((w.runs[g.build]?).getD ⟨plan, g.progress, g.exports⟩).takeResult
    let g := g.keep r
    match g.complete with
    | .ok g => (result, g, w.services, w.log)
    | .error e => (.error e, g, w.services, w.log)

end WorkGraph

/-! ## Controllers -/

/-- How a started execution ended, for the one caller that collects it. -/
structure Completion where
  finished : Bool
  /-- Some caller has the right to collect the failures. -/
  claimed : Bool
  failures : List BuildFailure
  deriving DecidableEq, Repr

namespace Completion

def pending : Completion := ⟨false, false, []⟩

def finish (c : Completion) (failures : List BuildFailure) : Completion :=
  { c with finished := true, failures := c.failures ++ failures }

end Completion

/-- The leader of one build. -/
structure Controller where
  state : ControllerState
  /-- Requested, but not yet handed to the work graph. -/
  queued : Std.TreeSet TaskPath
  graph : WorkGraph
  completion : Completion

namespace Controller

def new (registry : Registry) : Controller := ⟨.discoveringTasks, ∅, .new registry, .pending⟩

def build (c : Controller) : BuildId := c.graph.build

def require (c : Controller) (state : ControllerState) (operation : Operation) :
    Except GraphError Unit :=
  if c.state = state then .ok ()
  else .error (.illegalState operation (.controllerIs c.build c.state))

/-! ## Discovery -/

def declare (c : Controller) (providers : List (ProviderId × Provider)) (task : TaskDefinition) :
    Except GraphError Controller := do
  return { c with graph := ← c.graph.declare providers task }

def want (c : Controller) (path : TaskPath) : Controller :=
  if c.graph.isRequired path then c else { c with queued := c.queued.insert path }

/-- Request a task. Whether it exists shows when it is scheduled. -/
def queue (c : Controller) (path : TaskPath) : Except GraphError Controller := do
  c.require .discoveringTasks .queueTasks
  return c.want path

/-- Hand out a task to another build that needs it, and request it while tasks are still being
discovered. -/
def exportTask (c : Controller) (path : TaskPath) : Except ExportError Controller := do
  let graph ← c.graph.handOut path
  let c := { c with graph }
  return if c.state = .discoveringTasks then c.want path else c

/-- Hand out a task to another build that only orders itself after it. -/
def observeTask (c : Controller) (path : TaskPath) : Except ExportError Controller := do
  let graph ← c.graph.handOut path
  return { c with graph }

variable {σ : Type}

def populate (cross : Option (CrossBuild σ)) (paths : List TaskPath) (c : Controller) (others : σ) :
    Except GraphError Bool × Controller × σ :=
  match c.require .discoveringTasks .populateWorkGraph with
  | .error e => (.error e, c, others)
  | .ok () =>
    let (result, graph, others) := WorkGraph.schedule cross paths (c.graph, others)
    (result, { c with graph }, others)

/-- Hand the requested tasks to the work graph, as far as they are not required already. The
answer is whether the graph grew. -/
def scheduleQueued (cross : Option (CrossBuild σ)) (c : Controller) (others : σ) :
    Except GraphError Bool × Controller × σ :=
  match c.require .discoveringTasks .scheduleTasks with
  | .error e => (.error e, c, others)
  | .ok () =>
    let batch := c.queued.toList.filter fun path => !c.graph.isRequired path
    let c := { c with queued := ∅ }
    if batch.isEmpty then (.ok false, c, others)
    else
      let (result, graph, others) := WorkGraph.schedule cross batch (c.graph, others)
      (result, { c with graph }, others)

def finalize (c : Controller) : Except GraphError Controller := do
  c.require .discoveringTasks .finalizeWorkGraph
  unless c.queued.isEmpty do
    .error (.illegalState .finalizeWorkGraph (.requested c.build c.queued.size))
  let graph ← c.graph.freeze
  return { c with graph, state := .readyToRun }

/-! ## Execution -/

/-- Start the execution; what is left to do is the job of the build. -/
def start (c : Controller) : Except GraphError Controller := do
  c.require .readyToRun .startExecution
  let (_, graph) ← c.graph.beginExecution
  return { c with graph, state := .runningTasks }

/-- The exports of the build's plan, abandoned. -/
def abandonPlan (c : Controller) : Controller :=
  match c.graph.run? with
  | some r => { c with graph := c.graph.keep r.abandonExports }
  | none => c

def refuse (c : Controller) (error : ErrorChain) : Controller :=
  { c.abandonPlan with completion := c.completion.finish [.executionAborted c.build error] }

/-- The job of a started build has run as far as `r`. -/
def finishJob (c : Controller) (r : Run) : Controller :=
  let (result, r) := r.takeResult
  let failures :=
    match result with
    | .ok failures => failures
    | .error e => [.executionAborted c.build ⟨e.message, []⟩]
  { c with graph := c.graph.keep r, completion := c.completion.finish failures }

def claim (c : Controller) : Except GraphError Controller := do
  c.require .runningTasks .awaitCompletion
  if c.completion.claimed then
    .error (.illegalState .awaitCompletion (.alreadyAwaited c.build))
  return { c with completion := { c.completion with claimed := true } }

def collect? (c : Controller) : Option (Except GraphError (List BuildFailure) × Controller) :=
  if c.completion.finished then
    let failures := c.completion.failures
    let c := { c with completion := { c.completion with failures := [] } }
    match c.graph.complete with
    | .ok graph => some (.ok failures, { c with graph, state := .finished })
    | .error e => some (.error e, c)
  else none

/-- Claim the failures and collect them; there is no result while the job has not ended. -/
def await? (c : Controller) : Option (Except GraphError (List BuildFailure) × Controller) :=
  match c.claim with
  | .error e => some (.error e, c)
  | .ok c => c.collect?

/-- Let go of the build, unless its tasks are running: exports without an outcome get none any
more. -/
def stop (c : Controller) : Except GraphError Controller :=
  if c.state = .runningTasks then
    .error (.illegalState .stopController (.controllerIs c.build c.state))
  else .ok { c with graph := c.graph.abandonExports }

end Controller

end Foreman
