import Std.Data.TreeMap
import Foreman.Identity

/-!
# Exported tasks

A build hands out its tasks to other builds as exports. An export has no outcome until one is
published, and only the first publication counts.
-/

namespace Foreman

/-- What became of an exported task, as other builds see it. -/
inductive ExportOutcome
  | succeeded
  | failed
  /-- The task was skipped, was not needed, or its build never ran. -/
  | notExecuted
  deriving DecidableEq, Repr

namespace ExportOutcome

def all : List ExportOutcome := [succeeded, failed, notExecuted]

def text : ExportOutcome → String
  | succeeded => "Succeeded"
  | failed => "Failed"
  | notExecuted => "NotExecuted"

def named? (name : String) : Option ExportOutcome := all.find? (·.text = name)

end ExportOutcome

/-- The exports of one build: what was handed out, each with its outcome once there is one. -/
abbrev Exports := Std.TreeMap TaskPath (Option ExportOutcome)

namespace Exports

/-- The outcome published for a task; none for a task that was never handed out. -/
def outcome? (e : Exports) (path : TaskPath) : Option ExportOutcome := e[path]?.join

/-- Hand out a task. Handing it out again changes nothing. -/
def handOut (e : Exports) (path : TaskPath) : Exports := e.insertIfNew path none

/-- Publish an outcome: the first one of a task that was handed out stays. -/
def publish (e : Exports) (path : TaskPath) (outcome : ExportOutcome) : Exports :=
  match e[path]? with
  | some none => e.insert path (some outcome)
  | _ => e

/-- Publish that nothing more will come, for every export still without an outcome. -/
def abandon (e : Exports) : Exports := e.map fun _ o => some (o.getD .notExecuted)

end Exports

end Foreman
