import Foreman.Lifecycle
import Foreman.Export

/-!
# Errors and failures

A `GraphError` stops the building, freezing or driving of a work graph and is told by its cause; a
`BuildFailure` is what a run collects while the tasks are executed. `GraphError.message` and
`BuildFailure.message` hold all the wording.
-/

namespace Foreman

/-! ## Why a graph cannot be built or driven -/

inductive Operation
  | queueTasks
  | scheduleTasks
  | populateWorkGraph
  | exportTask
  | finalizeWorkGraph
  | executeWorkGraph
  | completeWorkGraph
  | startExecution
  | awaitCompletion
  | stopController
  | changeNodeState
  deriving DecidableEq, Repr

/-- Why an operation is not possible at the moment. -/
inductive Obstacle
  | graphIs (build : BuildId) (phase : GraphPhase)
  | controllerIs (build : BuildId) (state : ControllerState)
  /-- Tasks of a work graph are queued and not yet scheduled. -/
  | queued (count : Nat)
  /-- Tasks requested of a build are not yet scheduled. -/
  | requested (build : BuildId) (count : Nat)
  | alreadyAwaited (build : BuildId)
  | noMove (old new : NodeState)
  | notFrozen
  deriving DecidableEq, Repr

/-- What is wrong with a declaration or a request. -/
inductive Fault
  /-- The path of a new task is taken. -/
  | taskExists (build : BuildId)
  /-- The requested task is not declared. -/
  | taskMissing (build : BuildId)
  /-- The text of a reference is no path. -/
  | malformedReference (text : String)
  /-- A reference names a task that is not declared. -/
  | unknownTask (path : TaskPath) (build : BuildId)
  | nestedProviders
  /-- A task of another build is named, but there is no tree of builds. -/
  | outsideTree (path : TaskPath) (build : BuildId)
  /-- Finalizers must be local. -/
  | foreignFinalizer (path : TaskPath) (build own : BuildId)
  /-- The other build of a reference is not in the tree. -/
  | unknownBuild (build : BuildId)
  /-- The other build of a reference has no such task. -/
  | notExported (path : TaskPath) (build : BuildId)
  /-- A task destroys files and declares outputs, input files or local state. -/
  | destroyerDeclares (outputs inputs localState : Bool)
  | buildExists
  deriving DecidableEq, Repr

/-- An error of building, freezing or driving a work graph. -/
inductive GraphError
  | configuration (node : String) (fault : Fault)
  /-- The nodes of a cycle by name, in dependency order. -/
  | cycle (nodes : List String)
  | illegalState (operation : Operation) (obstacle : Obstacle)
  | unknownBuild (build : BuildId)
  deriving DecidableEq, Repr

def Operation.text : Operation → String
  | queueTasks => "queue tasks"
  | scheduleTasks => "schedule tasks"
  | populateWorkGraph => "populate work graph"
  | exportTask => "export task"
  | finalizeWorkGraph => "finalize work graph"
  | executeWorkGraph => "execute work graph"
  | completeWorkGraph => "complete work graph"
  | startExecution => "start execution"
  | awaitCompletion => "await completion"
  | stopController => "stop build controller"
  | changeNodeState => "change node state"

def Obstacle.text : Obstacle → String
  | graphIs build phase => "work graph of build '" ++ build.name ++ "' is " ++ phase.text
  | controllerIs build state => "build '" ++ build.name ++ "' is " ++ state.text
  | queued count => toString count ++ " queued tasks have not been scheduled"
  | requested build count =>
    toString count ++ " tasks of build '" ++ build.name ++ "' are queued but not scheduled"
  | alreadyAwaited build => "completion of build '" ++ build.name ++ "' is already being awaited"
  | noMove old new => "transition " ++ old.text ++ " -> " ++ new.text ++ " is not allowed"
  | notFrozen => "no plan was built"

def declaredWords (outputs inputs localState : Bool) : String :=
  String.intercalate " or " <|
    (if outputs then ["outputs"] else []) ++ (if inputs then ["input files"] else []) ++
      (if localState then ["local state"] else [])

def configurationMessage (node message : String) : String :=
  "Invalid configuration for " ++ node ++ ": " ++ message

def unknownBuildMessage (build : BuildId) : String := "Unknown build: " ++ build.name

def taskMissingMessage (build : BuildId) : String :=
  "task not found in build '" ++ build.name ++ "'"

def Fault.message : Fault → String
  | taskExists build => "a task with this path already exists in build '" ++ build.name ++ "'"
  | taskMissing build => taskMissingMessage build
  | malformedReference text => "invalid task path '" ++ text ++ "'"
  | unknownTask path build =>
    "task '" ++ path.text ++ "' not found in build '" ++ build.name ++ "'"
  | nestedProviders => "task reference providers nest too deeply"
  | outsideTree path build =>
    "cannot reference task '" ++ path.text ++ "' of build '" ++ build.name ++
      "' outside a build tree"
  | foreignFinalizer path build own =>
    "task '" ++ path.text ++ "' of build '" ++ build.name ++
      "' cannot finalize a task of build '" ++ own.name ++ "'"
  | unknownBuild build => unknownBuildMessage build
  | notExported path build => configurationMessage path.text (taskMissingMessage build)
  | destroyerDeclares outputs inputs localState =>
    "a task that destroys files cannot also declare " ++ declaredWords outputs inputs localState
  | buildExists => "build is already part of the build tree"

/-- The lines of a cycle after its first: each node one step further in, and the first node once
more at the end. -/
def cycleBranches (first : String) : Nat → List String → String
  | depth, [] => String.ofList (List.replicate (5 * depth) ' ') ++ "\\--- " ++ first ++ " (*)\n"
  | depth, n :: ns =>
    String.ofList (List.replicate (5 * depth) ' ') ++ "\\--- " ++ n ++ "\n" ++
      cycleBranches first (depth + 1) ns

/-- A cycle drawn as a dependency tree that ends in its first node. -/
def drawCycle : List String → String
  | [] => ""
  | first :: rest =>
    first ++ "\n" ++ cycleBranches first 0 rest ++
      "\n(*) - details omitted (listed previously)"

def GraphError.message : GraphError → String
  | configuration node fault => configurationMessage node fault.message
  | cycle nodes => "Circular dependency between the following tasks:\n" ++ drawCycle nodes
  | illegalState operation obstacle =>
    "Cannot " ++ operation.text ++ " while " ++ obstacle.text
  | unknownBuild build => unknownBuildMessage build

/-! ## Why another build does not hand out a task -/

/-- Why a task of some build cannot be handed out. -/
inductive ExportError
  | unknownBuild (build : BuildId)
  | missing (path : TaskPath) (build : BuildId)
  /-- The work graph no longer takes new exports. -/
  | closed (build : BuildId) (phase : GraphPhase)
  deriving DecidableEq, Repr

def ExportError.toGraphError : ExportError → GraphError
  | unknownBuild build => .unknownBuild build
  | missing path build => .configuration path.text (.taskMissing build)
  | closed build phase => .illegalState .exportTask (.graphIs build phase)

/-- The error seen when a reference of task `node` needs the export: the declaration is at fault,
unless the other build is past its discovery. -/
def ExportError.forReference (node : String) : ExportError → GraphError
  | unknownBuild build => .configuration node (.unknownBuild build)
  | missing path build => .configuration node (.notExported path build)
  | closed build phase => .illegalState .exportTask (.graphIs build phase)

/-! ## What goes wrong in a run -/

/-- An error and what caused it, outermost first. -/
structure ErrorChain where
  outermost : String
  causes : List String
  deriving DecidableEq, Repr

def ErrorChain.text (e : ErrorChain) : String := String.intercalate ": " (e.outermost :: e.causes)

inductive BuildFailure
  /-- A task's action failed or panicked. -/
  | taskFailed (task : TaskPath) (error : ErrorChain)
  /-- The execution of a whole build died before it could report on its tasks. -/
  | executionAborted (build : BuildId) (error : ErrorChain)
  deriving DecidableEq, Repr

namespace BuildFailure

def task? : BuildFailure → Option TaskPath
  | taskFailed task _ => some task
  | executionAborted .. => none

def error : BuildFailure → ErrorChain
  | taskFailed _ error => error
  | executionAborted _ error => error

def message : BuildFailure → String
  | taskFailed task error => "Execution failed for task '" ++ task.text ++ "': " ++ error.text
  | executionAborted build error =>
    "Execution of build '" ++ build.name ++ "' aborted: " ++ error.text

end BuildFailure

end Foreman
