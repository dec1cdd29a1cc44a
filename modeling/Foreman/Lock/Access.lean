import Foreman.Lock.Table

/-!
# Access to other projects

A running task may visit other projects: it trades the state lock of its own project for that of
the project it visits, and trades back when it leaves or panics. Its execution lock stays. A
`Script` is the tree of visits of a task's action, and `Script.steps` the lock steps it takes, one
after another; other workers may step in between.
-/

namespace Foreman

/-- What a panic carries. -/
inductive Panic
  | message (text : String)
  /-- Something that is no text. -/
  | other
  deriving DecidableEq, Repr

def Panic.text : Panic → String
  | message text => text
  | other => "unknown panic"

/-- The visits of an action, up to its end or a panic. -/
inductive Script
  | done
  | panic (payload : Panic)
  /-- Visit a project, do `inner` there, and go on with `next` afterwards. -/
  | within (project : ProjectId) (inner next : Script)
  deriving DecidableEq, Repr

/-- One step of a worker that runs a script. -/
inductive AccessStep
  | release (key : ResourceKey)
  /-- Wait until the key is free and take it. -/
  | acquire (key : ResourceKey)
  /-- The worker is now inside a visit (`inside`) or back from it. -/
  | note (inside : Bool) (project : ProjectId)
  deriving DecidableEq, Repr

def AccessStep.releaseOwn (own : Option ResourceKey) : List AccessStep :=
  own.toList.map .release

def AccessStep.acquireOwn (own : Option ResourceKey) : List AccessStep :=
  own.toList.map .acquire

/-- The steps in place of `body`, which is to be done under `key`: nothing is traded if that is
the task's own state lock. -/
def AccessStep.bracket (own : Option ResourceKey) (key : ResourceKey) (body : List AccessStep) :
    List AccessStep :=
  if own = some key then body
  else releaseOwn own ++ acquire key :: body ++ release key :: acquireOwn own

namespace Script

/-- The steps of a script for a task with the given own state lock, and the panic it ends in. A
panic leaves every visit it is in, trading the locks back, and skips all that would follow. -/
def steps (locks : ProjectLocks) (own : Option ResourceKey) :
    Script → List AccessStep × Option Panic
  | done => ([], none)
  | panic payload => ([], some payload)
  | within project inner next =>
    let visit := inner.steps locks own
    let bracketed :=
      AccessStep.bracket own (locks.stateLock project) (.note true project :: visit.1)
    match visit.2 with
    | some payload => (bracketed, some payload)
    | none =>
      let after := next.steps locks own
      (bracketed ++ .note false project :: after.1, after.2)

end Script

/-! ## What a worker sees on the way -/

/-- Which locks the worker holds at a note: the visited project's state lock and the state and
execution locks of the task's own project. -/
structure Sight where
  inside : Bool
  project : ProjectId
  target : Bool
  ownState : Bool
  ownExecution : Bool
  deriving DecidableEq, Repr

def LockTable.sight (t : LockTable) (locks : ProjectLocks) (own : ProjectId) (worker : Worker)
    (inside : Bool) (project : ProjectId) : Sight where
  inside := inside
  project := project
  target := t.holds worker (locks.stateLock project)
  ownState := t.holds worker (locks.stateLock own)
  ownExecution := t.holds worker (locks.executionLock own)

/-- One step of a worker of project `own`, and what is seen at a note. There is no result while
the key to take is not free. -/
def LockTable.take? (t : LockTable) (locks : ProjectLocks) (own : ProjectId) (worker : Worker) :
    AccessStep → Option (LockTable × Option Sight)
  | .release key => some (t.release [key] worker, none)
  | .acquire key => (t.acquire? [key] worker).map (·, none)
  | .note inside project => some (t, some (t.sight locks own worker inside project))

/-- Run steps with no other worker about: the table afterwards and the sights in order. There is
no result if the worker waits for ever. -/
def LockTable.runSteps? (t : LockTable) (locks : ProjectLocks) (own : ProjectId) (worker : Worker) :
    List AccessStep → Option (LockTable × List Sight)
  | [] => some (t, [])
  | s :: ss => do
    let (t, seen) ← t.take? locks own worker s
    let (t, later) ← t.runSteps? locks own worker ss
    return (t, seen.toList ++ later)

end Foreman
