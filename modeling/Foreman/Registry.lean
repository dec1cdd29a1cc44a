import Foreman.Task

/-!
# The tasks of a build

A registry holds what one build has declared: its tasks, each path once and in path order, and its
providers.
-/

namespace Foreman

structure Registry where
  build : BuildId
  tasks : Std.TreeMap TaskPath TaskDefinition
  providers : Std.TreeMap ProviderId Provider

namespace Registry

def empty (build : BuildId) : Registry := ⟨build, ∅, ∅⟩

def get? (r : Registry) (path : TaskPath) : Option TaskDefinition := r.tasks[path]?

def contains (r : Registry) (path : TaskPath) : Bool := r.tasks.contains path

def paths (r : Registry) : List TaskPath := r.tasks.keys

def size (r : Registry) : Nat := r.tasks.size

/-- The tasks whose path the pattern accepts, in path order. -/
def matching (r : Registry) (glob : Glob) : List TaskDefinition :=
  (r.tasks.toList.filter fun entry => glob.accepts entry.1.text).map (·.2)

/-- Declare a task, unless its path is taken. -/
def register (r : Registry) (task : TaskDefinition) : Except GraphError Registry :=
  if r.contains task.path then
    .error (.configuration task.path.text (.taskExists r.build))
  else .ok { r with tasks := r.tasks.insert task.path task }

def registerAll (r : Registry) (tasks : List TaskDefinition) : Except GraphError Registry :=
  tasks.foldlM register r

/-- Declare those of the tasks whose path is free. -/
def registerFree (r : Registry) (tasks : List TaskDefinition) : Registry :=
  tasks.foldl (fun r task => (r.register task).toOption.getD r) r

def provide (r : Registry) (id : ProviderId) (provider : Provider) : Registry :=
  { r with providers := r.providers.insert id provider }

def provideAll (r : Registry) (providers : List (ProviderId × Provider)) : Registry :=
  providers.foldl (fun r (id, provider) => r.provide id provider) r

/-- Ask a provider: its references, and the registry with its tasks declared. A provider that was
never declared gives nothing. -/
def ask (r : Registry) (id : ProviderId) : Registry × List TaskReference :=
  match r.providers[id]? with
  | some p => (r.registerFree p.tasks, p.references)
  | none => (r, [])

end Registry

end Foreman
