import Std.Data.TreeSet
import Foreman.Glob
import Foreman.Lock.Access
import Foreman.Mutations

/-!
# Task declarations

A task is known by its path and declares what it needs: other tasks (in four relationships, by
references that are resolved when the task is scheduled), the files it touches, the shared
resources it uses alone, and the action it runs.

A node of a work graph stands for a task of its own build or for a task of another build that it
waits for (`Work`). Its key tells nodes apart.
-/

namespace Foreman

/-- The name under which a build declares a provider. -/
abbrev ProviderId := Nat

inductive TaskReference
  /-- A path, relative to the project of the referring task unless it starts with a colon. -/
  | path (text : String)
  /-- Every task of the build whose path the pattern accepts. -/
  | pattern (glob : Glob)
  /-- The references that a provider gives when it is asked. -/
  | provider (id : ProviderId)
  /-- A task of a build of the same tree. -/
  | inBuild (build : BuildId) (path : TaskPath)
  deriving DecidableEq, Repr

def TaskPath.reference (p : TaskPath) : TaskReference := .path p.text

/-- How a declared task relates to the tasks it refers to. -/
inductive Relationship
  /-- They run before it, successfully. -/
  | dependency
  /-- They run after it, if it runs at all. -/
  | finalizedBy
  /-- They run before it, if they run at all. -/
  | mustRunAfter
  /-- They run before it, if that makes no cycle. -/
  | shouldRunAfter
  deriving DecidableEq, Repr

def Relationship.all : List Relationship := [dependency, finalizedBy, mustRunAfter, shouldRunAfter]

/-- What a task does when it runs: the projects it visits, then perhaps an error. -/
structure Action where
  script : Script
  failure : Option ErrorChain
  deriving DecidableEq, Repr

structure TaskDefinition where
  path : TaskPath
  dependsOn : List TaskReference
  finalizedBy : List TaskReference
  mustRunAfter : List TaskReference
  shouldRunAfter : List TaskReference
  mutations : Mutations
  shared : Std.TreeSet String
  /-- The task touches no project state and runs without project locks. -/
  isolated : Bool
  /-- A failure of the task is not reported and does not stop the tasks that depend on it. -/
  ignoreFailures : Bool
  /-- Without an action there is nothing to do. -/
  action : Option Action

namespace TaskDefinition

def plain (path : TaskPath) : TaskDefinition :=
  ⟨path, [], [], [], [], .none, ∅, false, false, none⟩

def references (t : TaskDefinition) : Relationship → List TaskReference
  | .dependency => t.dependsOn
  | .finalizedBy => t.finalizedBy
  | .mustRunAfter => t.mustRunAfter
  | .shouldRunAfter => t.shouldRunAfter

def allReferences (t : TaskDefinition) : List TaskReference :=
  Relationship.all.flatMap t.references

end TaskDefinition

/-- A source of references: when it is asked it declares its tasks, as far as their paths are
free, and gives its references, which may name providers again. -/
structure Provider where
  tasks : List TaskDefinition
  references : List TaskReference

/-! ## What a node stands for -/

inductive NodeKey
  | task (path : TaskPath)
  | foreign (build : BuildId) (path : TaskPath)
  deriving DecidableEq, Repr

def NodeKey.text : NodeKey → String
  | task path => path.text
  | foreign build path => path.text ++ " (build '" ++ build.name ++ "')"

inductive Work
  /-- Run a task of this build. -/
  | task (definition : TaskDefinition)
  /-- Wait for a task of another build. -/
  | foreign (build : BuildId) (path : TaskPath)

namespace Work

def key : Work → NodeKey
  | task definition => .task definition.path
  | foreign build path => .foreign build path

def isForeign : Work → Bool
  | task _ => false
  | foreign .. => true

def footprint (w : Work) : Except GraphError Footprint :=
  match w with
  | task definition => definition.mutations.footprint w.key.text
  | foreign .. => .ok .none

end Work

end Foreman
