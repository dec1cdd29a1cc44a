import Foreman.Controller
import Foreman.Text.Quoted

/-!
# Descriptions

One-line descriptions for a developer: a record is its name and its fields between braces, where
two dots stand for what is left out.
-/

namespace Foreman

namespace Text

/-- A record: its name, its fields by name, and two dots if there is more to it. -/
def record (name : String) (fields : List (String × String)) (more : Bool) : String :=
  let shown := fields.map fun (field, text) => field ++ ": " ++ text
  name ++ " \x7b " ++ String.intercalate ", " (shown ++ if more then [".."] else []) ++ " \x7d"

def bracketed (texts : List String) : String := "[" ++ String.intercalate ", " texts ++ "]"

def applied (name text : String) : String := name ++ "(" ++ text ++ ")"

end Text

open Text

def BuildId.describe (b : BuildId) : String := applied "BuildId" (quoted b.name)

def TaskPath.describe (p : TaskPath) : String :=
  record "TaskPath" [("project", quoted p.project), ("name", quoted p.name)] false

/-- The description of a reference. A provider does not show what it gives. -/
def TaskReference.describe : TaskReference → String
  | path text => applied "Path" (quoted text)
  | pattern glob => applied "Matching" (quoted glob.text)
  | provider _ => applied "Provider" ".."
  | inBuild build task =>
    record "InBuild" [("build", build.describe), ("path", task.describe)] false

def Mutations.describe (m : Mutations) : String :=
  let files (paths : List FilePath) := bracketed (paths.map fun p => quotedPath p.text)
  record "DeclaredMutations" [("outputs", files m.outputs), ("inputs", files m.inputs),
    ("local_state", files m.localState), ("destroyables", files m.destroys)] false

def TaskDefinition.describe (t : TaskDefinition) : String :=
  let references (rs : List TaskReference) := bracketed (rs.map (·.describe))
  record "TaskDefinition" [("path", t.path.describe), ("dependencies", references t.dependsOn),
    ("finalized_by", references t.finalizedBy), ("must_run_after", references t.mustRunAfter),
    ("should_run_after", references t.shouldRunAfter), ("mutations", t.mutations.describe),
    ("isolated", if t.isolated then "true" else "false")] true

def ExportOutcome.describeExport (build : BuildId) (path : TaskPath)
    (outcome : Option ExportOutcome) : String :=
  record "ExportedTask" [("build", build.describe), ("path", path.describe),
    ("outcome", (outcome.map fun o => applied "Some" o.text).getD "None")] false

def GraphPhase.describe : GraphPhase → String
  | populating => "Populating"
  | finalized => "Finalized"
  | running => "Running"
  | completed => "Completed"

def WorkGraph.describe (g : WorkGraph) : String :=
  record "WorkGraph" [("build", g.build.describe), ("phase", g.phase.describe),
    ("nodes", toString g.nodes.size), ("scheduled", toString g.scheduled.size),
    ("queued", toString g.queued.size)] true

def ControllerState.describe : ControllerState → String
  | discoveringTasks => "DiscoveringTasks"
  | readyToRun => "ReadyToRun"
  | runningTasks => "RunningTasks"
  | finished => "Finished"

def Controller.describe (c : Controller) : String :=
  record "BuildController" [("build", c.build.describe), ("state", c.state.describe)] true

end Foreman
