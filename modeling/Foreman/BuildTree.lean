import Foreman.Controller

/-!
# Build trees

The builds of a tree refer to each other's tasks through exports. `BuildTree.run` schedules every
build until none discovers more, freezes them all, checks that no cycle runs through several
builds, executes them and collects the failures.
-/

namespace Foreman

/-- The builds of a tree by name, and the services that they share. -/
structure BuildTree where
  services : Services
  builds : Std.TreeMap BuildId Controller

/-- Who runs the jobs of the builds. -/
inductive Executor
  /-- One job after the other, first the builds named here, once all are submitted. -/
  | sequential (order : List BuildId)
  /-- All jobs at the same time. -/
  | threads
  /-- Nobody: every job is refused with an error. -/
  | refusing (error : BuildId → ErrorChain)

namespace BuildTree

def new (services : Services) : BuildTree := ⟨services, ∅⟩

def controller? (t : BuildTree) (build : BuildId) : Option Controller := t.builds[build]?

def setController (t : BuildTree) (build : BuildId) (c : Controller) : BuildTree :=
  { t with builds := t.builds.insert build c }

def alter (t : BuildTree) (build : BuildId) (f : Controller → Controller) : BuildTree :=
  match t.controller? build with
  | some c => t.setController build (f c)
  | none => t

def setTable (t : BuildTree) (table : LockTable) : BuildTree :=
  { t with services := { t.services with table } }

def foreign (t : BuildTree) : Foreign := fun build path =>
  (t.controller? build).bind fun c => c.graph.exports.outcome? path

/-- Add a build. Its name must be new. -/
def addBuild (t : BuildTree) (registry : Registry) : Except GraphError BuildTree :=
  if t.builds.contains registry.build then
    .error (.configuration ("build '" ++ registry.build.name ++ "'") .buildExists)
  else .ok (t.setController registry.build (.new registry))

/-! ## Discovery -/

def askController (ask : Controller → TaskPath → Except ExportError Controller) (build : BuildId)
    (path : TaskPath) (builds : Std.TreeMap BuildId Controller) :
    Except ExportError Unit × Std.TreeMap BuildId Controller :=
  match builds[build]? with
  | none => (.error (.unknownBuild build), builds)
  | some c =>
    match ask c path with
    | .ok c => (.ok (), builds.insert build c)
    | .error e => (.error e, builds)

/-- The builds of a tree, as each of them sees the others. -/
def crossBuild : CrossBuild (Std.TreeMap BuildId Controller) where
  request := askController Controller.exportTask
  observe := askController Controller.observeTask

def withOthers {α : Type} (t : BuildTree) (build : BuildId) (c : Controller)
    (f : Controller → Std.TreeMap BuildId Controller →
      α × Controller × Std.TreeMap BuildId Controller) : α × BuildTree :=
  let (a, c, others) := f c t.builds
  (a, { t with builds := others.insert build c })

def request (t : BuildTree) (build : BuildId) (paths : List TaskPath) :
    BuildTree × Option GraphError :=
  match t.controller? build with
  | none => (t, some (.unknownBuild build))
  | some _ =>
    eachUntilError (fun path t =>
      match (t.controller? build).map (Controller.queue · path) with
      | some (.ok c) => (t.setController build c, none)
      | some (.error e) => (t, some e)
      | none => (t, none)) paths t

/-- Schedule the requested tasks of one build; the flag records that some graph grew. -/
def scheduleBuild (build : BuildId) (state : BuildTree × Bool) :
    (BuildTree × Bool) × Option GraphError :=
  let (t, grown) := state
  match t.controller? build with
  | none => (state, none)
  | some c =>
    match t.withOthers build c (Controller.scheduleQueued (some crossBuild)) with
    | (.ok more, t) => ((t, grown || more), none)
    | (.error e, t) => ((t, grown), some e)

/-- A bound on how often the graphs of the tree can grow: each node can be scheduled once and
become required once. -/
def growthBound (t : BuildTree) : Nat := total (2 * ·.graph.nodeBound) t.builds.values

/-- Go over the builds again and again, at most `fuel` times, until no graph grows. -/
def scheduleRounds : Nat → BuildTree → BuildTree × Option GraphError
  | 0, t => (t, none)
  | fuel + 1, t =>
    match eachUntilError scheduleBuild t.builds.keys (t, false) with
    | ((t, _), some e) => (t, some e)
    | ((t, true), none) => scheduleRounds fuel t
    | ((t, false), none) => (t, none)

/-- Schedule the requested tasks of every build until no build discovers more. -/
def schedule (t : BuildTree) : BuildTree × Option GraphError :=
  scheduleRounds (t.growthBound + 1) t

/-! ## Cycles through several builds -/

/-- A task of some build. -/
abbrev TreeTask := BuildId × TaskPath

def treeTask (build : BuildId) : NodeKey → TreeTask
  | .task path => (build, path)
  | .foreign other path => (other, path)

def waits (t : BuildTree) : List (TreeTask × List TreeTask) :=
  t.builds.toList.flatMap fun (build, c) =>
    c.graph.executionEdges.filterMap fun
      | (.task path, targets) => some ((build, path), targets.map (treeTask build))
      | (.foreign .., _) => none

def mentioned (waits : List (TreeTask × List TreeTask)) : List TreeTask :=
  (waits.flatMap fun (task, targets) => task :: targets).eraseDups

/-- What the tasks wait for, as a graph over the places of the mentioned tasks. -/
def waitGraph (waits : List (TreeTask × List TreeTask)) : Digraph :=
  let tasks := mentioned waits
  .ofFn tasks.length fun i =>
    (waits.filter fun (task, _) => tasks[i]? = some task).flatMap fun (_, targets) =>
      targets.map tasks.idxOf

def checkCrossBuildCycles (t : BuildTree) : Except GraphError Unit :=
  let waits := t.waits
  let tasks := mentioned waits
  (waitGraph waits).checkCycles (List.range tasks.length) fun i =>
    (tasks[i]?.map fun (build, path) => (NodeKey.foreign build path).text).getD ""

/-! ## Execution -/

def eachController (t : BuildTree) (f : Controller → Except GraphError Controller) :
    BuildTree × Option GraphError :=
  eachUntilError (fun build t =>
    match (t.controller? build).map f with
    | some (.ok c) => (t.setController build c, none)
    | some (.error e) => (t, some e)
    | none => (t, none)) t.builds.keys t

def runsOf (t : BuildTree) (builds : List BuildId) : List Run :=
  builds.filterMap fun build => (t.controller? build).bind (·.graph.run?)

/-- Record how far the job of a build has come in a workshop; it counts as ended when its crew is
done. -/
def settleJob (w : Workshop) (build : BuildId) (r : Run) (c : Controller) : Controller :=
  if w.crew.all fun m => m.build ≠ build || m.activity = .off then c.finishJob r
  else { c with graph := c.graph.keep r }

def settleJobs (t : BuildTree) (w : Workshop) : BuildTree :=
  w.runs.toList.foldl (fun t (build, r) => t.alter build (settleJob w build r))
    { t with services := w.services }

/-- Run the jobs of started builds together, the first led by worker `leader` and each further one
by a worker of its own. -/
def runJobs (t : BuildTree) (builds : List BuildId) (leader : Worker) : BuildTree × List Event :=
  let w := ((Workshop.new t.services t.foreign).enrollAll (t.runsOf builds) leader).execute
  (t.settleJobs w, w.log)

/-- Run the jobs of the started builds one after the other, on one worker's thread. -/
def runInOrder (t : BuildTree) (builds : List BuildId) (leader : Worker) : BuildTree × List Event :=
  builds.foldl (fun (t, log) build =>
    let (t, more) := t.runJobs [build] leader
    (t, log ++ more)) (t, [])

/-- Run the jobs of all builds, as the executor does, for a caller on thread `caller`, who gives up
its lease while it waits for other threads. -/
def runAll (t : BuildTree) (executor : Executor) (caller : Worker) : BuildTree × List Event :=
  let builds := t.builds.keys
  match executor with
  | .refusing error =>
    (builds.foldl (fun t build => t.alter build (·.refuse (error build))) t, [])
  | .sequential order =>
    let named := (order.filter (· ∈ builds)).eraseDups
    t.runInOrder (named ++ builds.filter (· ∉ named)) caller
  | .threads =>
    let holds := t.services.table.leaseCount caller
    let (t, log) := (t.setTable (t.services.table.surrender caller)).runJobs builds (caller + 1)
    (t.setTable ((t.services.table.restore? caller holds).getD t.services.table), log)

/-- Collect the failures of all builds, in order; there is no result while a job has not ended. -/
def awaitAll? : List BuildId → BuildTree →
    Option (Except GraphError (List BuildFailure) × BuildTree)
  | [], t => some (.ok [], t)
  | build :: builds, t =>
    match (t.controller? build).map Controller.await? with
    | none => awaitAll? builds t
    | some none => none
    | some (some (.error e, c)) => some (.error e, t.setController build c)
    | some (some (.ok failures, c)) =>
      (awaitAll? builds (t.setController build c)).map fun (result, t) =>
        (result.map (failures ++ ·), t)

/-- Schedule, freeze and check every build; nothing has been executed yet. -/
def prepare (t : BuildTree) : BuildTree × Option GraphError :=
  match { t with services := t.services.clearStop }.schedule with
  | (t, some e) => (t, some e)
  | (t, none) =>
    match t.eachController (·.finalize) with
    | (t, some e) => (t, some e)
    | (t, none) =>
      match t.checkCrossBuildCycles with
      | .error e => (t, some e)
      | .ok () => (t, none)

/-- Schedule, freeze, check and execute every build, for a caller on thread `caller`, and collect
all failures. An error found before the execution keeps every task from running. There is no
result if some job never ends. -/
def run? (t : BuildTree) (executor : Executor) (caller : Worker) :
    Option (Except GraphError (List BuildFailure) × BuildTree × List Event) :=
  match t.prepare with
  | (t, some e) => some (.error e, t, [])
  | (t, none) =>
    match t.eachController (·.start) with
    | (t, some e) => some (.error e, t, [])
    | (t, none) =>
      let (t, log) := t.runAll executor caller
      match awaitAll? t.builds.keys t with
      | none => none
      | some (.error e, t) => some (.error e, t, log)
      | some (.ok failures, t) =>
        match t.eachController (·.stop) with
        | (t, some e) => some (.error e, t, log)
        | (t, none) => some (.ok failures, t, log)

end BuildTree

end Foreman
