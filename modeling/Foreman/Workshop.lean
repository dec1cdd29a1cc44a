import Foreman.Run.Select
import Foreman.Settings.Reading

/-!
# Workers at work

The builds of a tree share one lock table with the worker leases, the project locks, and the request
to stop (`Services`). A workshop holds some runs and the crew that executes them. Each member of the
crew works for one run: it selects a node, takes the steps of its action one at a time, and records
the outcome. A member with a node of another build gives its lease back and waits until that build
has published an outcome. `Workshop.step` is one step of one member; any order of steps is an
execution. `Workshop.execute` lets the members step in turn until nobody can, which ends because
every step lowers `Workshop.toDo`.
-/

namespace Foreman

/-! ## What the builds of a tree share -/

/-- What the builds of a tree share. -/
structure Services where
  maxWorkers : Nat
  failFast : Bool
  locks : ProjectLocks
  table : LockTable
  /-- No new task is to start. -/
  stopRequested : Bool

namespace Services

def new (settings : Settings) (processors : Nat) : Services :=
  let maxWorkers := settings.maxWorkers.getD processors
  ⟨maxWorkers, settings.failFast, ⟨settings.parallelProjects⟩, .empty maxWorkers, false⟩

def clearStop (s : Services) : Services := { s with stopRequested := false }

def requestStop (s : Services) : Services := { s with stopRequested := true }

def workersFor (s : Services) (size : Nat) : Nat := max 1 (min s.maxWorkers size)

end Services

/-! ## A worker's turn -/

namespace Run

def beginTurn (r : Run) (s : Services) (foreign : Foreign) (worker : Worker) :
    Selection × Run × Services :=
  let (selection, r, table) := r.select s.stopRequested foreign s.locks worker s.table
  (selection, r, { s with table })

/-- The worker records the outcome of a node and gives back its keys and its lease. With fail-fast
a failure that counts asks every build to stop. -/
def endTurn (r : Run) (s : Services) (worker : Worker) (i : Nat) (keys : List ResourceKey)
    (outcome : NodeOutcome) : Run × Services :=
  let s := if s.failFast && r.countsAsFailure i outcome then s.requestStop else s
  (r.finish i outcome, { s with table := (s.table.release keys worker).unlease worker })

end Run

/-! ## What is logged -/

/-- Something that a running action leaves in the log. -/
inductive Event
  | started (build : BuildId) (task : TaskPath)
  | sighted (build : BuildId) (task : TaskPath) (sight : Sight)
  deriving DecidableEq, Repr

def answerText (b : Bool) : String := if b then "true" else "false"

def Event.text : Event → String
  | started build task => build.name ++ task.text
  | sighted build task s =>
    build.name ++ task.text ++ (if s.inside then " in " else " after ") ++ s.project.text ++
      ": target=" ++ answerText s.target ++ " own=" ++ answerText s.ownState ++
      " execution=" ++ answerText s.ownExecution

/-! ## The crew -/

inductive Activity
  /-- About to select a node. -/
  | idle
  /-- Taking the steps of a node's action, which ends in the given outcome. -/
  | acting (index : Nat) (keys : List ResourceKey) (steps : List AccessStep) (outcome : NodeOutcome)
  /-- About to wait for a task of another build. -/
  | calling (index : Nat) (keys : List ResourceKey) (build : BuildId) (path : TaskPath)
  /-- Waiting for it, with so many holds of the lease surrendered. -/
  | awaiting (index : Nat) (keys : List ResourceKey) (build : BuildId) (path : TaskPath)
    (holds : Nat)
  /-- Waiting for the lease again. -/
  | resuming (index : Nat) (keys : List ResourceKey) (holds : Nat) (outcome : NodeOutcome)
  /-- Done with the run. -/
  | off
  deriving DecidableEq, Repr

structure Member where
  worker : Worker
  build : BuildId
  activity : Activity
  deriving DecidableEq, Repr

/-- Runs in execution. -/
structure Workshop where
  services : Services
  runs : Std.TreeMap BuildId Run
  /-- What the builds without a run here have published. -/
  outside : Foreign
  crew : Array Member
  log : List Event

def Panic.error (p : Panic) : ErrorChain := ⟨"task panicked: " ++ p.text, []⟩

namespace PlannedNode

def performance (n : PlannedNode) (build : BuildId) (locks : ProjectLocks) (action : Action) :
    List AccessStep × NodeOutcome :=
  let (steps, panic) := action.script.steps locks (n.ownState? build locks)
  match panic, action.failure with
  | some p, _ => (steps, .failure p.error)
  | none, some e => (steps, .failure e)
  | none, none => (steps, .success)

def activity (n : PlannedNode) (build : BuildId) (locks : ProjectLocks) (index : Nat)
    (keys : List ResourceKey) : Activity :=
  match n.work with
  | .foreign other path => .calling index keys other path
  | .task definition =>
    match definition.action with
    | none => .acting index keys [] .success
    | some action =>
      let (steps, outcome) := n.performance build locks action
      .acting index keys steps outcome

/-- What the start of the node leaves in the log: that its action began, if it has one. -/
def startEvents (n : PlannedNode) (build : BuildId) : List Event :=
  match n.work with
  | .task definition => definition.action.toList.map fun _ => .started build definition.path
  | .foreign .. => []

end PlannedNode

/-- How a node of another build's task ends, once that has an outcome. -/
def NodeOutcome.ofExport : ExportOutcome → NodeOutcome
  | .succeeded => .success
  | .failed | .notExecuted => .foreignFailure

namespace Workshop

def foreign (w : Workshop) : Foreign := fun build path =>
  match w.runs[build]? with
  | some r => r.exports.outcome? path
  | none => w.outside build path

def setRun (w : Workshop) (build : BuildId) (r : Run) : Workshop :=
  { w with runs := w.runs.insert build r }

def setTable (w : Workshop) (table : LockTable) : Workshop :=
  { w with services := { w.services with table } }

def setActivity (w : Workshop) (j : Nat) (activity : Activity) : Workshop :=
  { w with crew := w.crew.modify j fun m => { m with activity } }

def stepIdle (w : Workshop) (j : Nat) (m : Member) (r : Run) : Workshop :=
  let (selection, r, services) := r.beginTurn w.services w.foreign m.worker
  let w := { w with services }.setRun m.build r
  match selection with
  | .wait => w
  | .done => w.setActivity j .off
  | .run i keys =>
    match r.plan.nodes[i]? with
    | some n =>
      { w with log := w.log ++ n.startEvents m.build }.setActivity j
        (n.activity m.build services.locks i keys)
    | none => w

def stepFinish (w : Workshop) (j : Nat) (m : Member) (r : Run) (i : Nat) (keys : List ResourceKey)
    (outcome : NodeOutcome) : Workshop :=
  let (r, services) := r.endTurn w.services m.worker i keys outcome
  { w with services }.setRun m.build r |>.setActivity j .idle

/-- A member takes the next step of an action, if it need not wait. -/
def stepAction (w : Workshop) (j : Nat) (m : Member) (n : PlannedNode) (i : Nat)
    (keys : List ResourceKey) (step : AccessStep) (rest : List AccessStep)
    (outcome : NodeOutcome) : Workshop :=
  match n.task? with
  | none => w
  | some t =>
    match w.services.table.take? w.services.locks ⟨m.build, t.path.project⟩ m.worker step with
    | none => w
    | some (table, sight) =>
      { w with log := w.log ++ sight.toList.map (Event.sighted m.build t.path) }.setTable table
        |>.setActivity j (.acting i keys rest outcome)

/-- One step of member `j`. A member that has to wait stays where it is. -/
def step (w : Workshop) (j : Nat) : Workshop :=
  match w.crew[j]? with
  | none => w
  | some m =>
    match w.runs[m.build]? with
    | none => w
    | some r =>
      match m.activity with
      | .off => w
      | .idle => w.stepIdle j m r
      | .acting i keys [] outcome => w.stepFinish j m r i keys outcome
      | .acting i keys (step :: rest) outcome =>
        match r.plan.nodes[i]? with
        | some n => w.stepAction j m n i keys step rest outcome
        | none => w
      | .calling i keys build path =>
        let table := w.services.table
        w.setTable (table.surrender m.worker) |>.setActivity j
          (.awaiting i keys build path (table.leaseCount m.worker))
      | .awaiting i keys build path holds =>
        match w.foreign build path with
        | some outcome => w.setActivity j (.resuming i keys holds (.ofExport outcome))
        | none => w
      | .resuming i keys holds outcome =>
        match w.services.table.restore? m.worker holds with
        | some table => w.setTable table |>.setActivity j (.acting i keys [] outcome)
        | none => w

/-! ## Stepping in turn -/

def round (w : Workshop) : Workshop := (List.range w.crew.size).foldl step w

/-- How many steps it takes to run a node once it is selected, and one more. -/
def nodeSteps (locks : ProjectLocks) (build : BuildId) (n : PlannedNode) : Nat :=
  match n.work with
  | .foreign .. => 6
  | .task definition =>
    match definition.action with
    | none => 4
    | some action => (n.performance build locks action).1.length + 4

def nodeToDo (locks : ProjectLocks) (build : BuildId) (n : PlannedNode) : NodeState → Nat
  | .scheduled => nodeSteps locks build n + 2
  | .ready => nodeSteps locks build n + 1
  | _ => 0

def runToDo (locks : ProjectLocks) (r : Run) : Nat :=
  total (fun (n, state) => nodeToDo locks r.plan.build n state)
    (r.plan.nodes.toList.zip r.progress.states.toList)

def memberToDo (m : Member) : Nat :=
  match m.activity with
  | .idle => 1
  | .acting _ _ steps _ => steps.length + 2
  | .calling .. => 5
  | .awaiting .. => 4
  | .resuming .. => 3
  | .off => 0

def toDo (w : Workshop) : Nat :=
  total (runToDo w.services.locks) w.runs.values + total memberToDo w.crew.toList

/-- Step in turn until a round lowers nothing: everybody is done, or waits for ever. -/
def execute (w : Workshop) : Workshop :=
  let next := w.round
  if next.toDo < w.toDo then next.execute else next
termination_by w.toDo

def isOver (w : Workshop) : Bool := w.crew.all (·.activity = .off)

/-! ## Opening and closing -/

def new (services : Services) (outside : Foreign) : Workshop := ⟨services, ∅, outside, #[], []⟩

/-- Take in a run, executed by `leader` and as many helpers as its size calls for; the helpers are
numbered from `helpers` on. An empty run needs nobody. -/
def enroll (w : Workshop) (r : Run) (leader helpers : Worker) : Workshop :=
  let count := if r.plan.size = 0 then 0 else w.services.workersFor r.plan.size
  let workers := (List.range count).map fun k => if k = 0 then leader else helpers + k
  let members := workers.map fun worker => Member.mk worker r.plan.build .idle
  { w with crew := w.crew ++ members }.setRun r.plan.build r

def enrollAll (w : Workshop) (rs : List Run) (next : Worker) : Workshop :=
  (rs.foldl (fun (w, k) r => (w.enroll r (next + k) (next + k), k + 1 + r.plan.size)) (w, 0)).1

end Workshop

end Foreman
