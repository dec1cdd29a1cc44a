import Std.Data.TreeSet
import Foreman.Identity

/-!
# Resource keys

A resource key names something that only one worker may hold at a time. `ProjectLocks` says which
keys guard a project: its own, or those of its whole build when projects do not run in parallel.
-/

namespace Foreman

/-- Something only one worker may hold at a time. -/
inductive ResourceKey
  /-- Changing a project's state. -/
  | projectState (project : ProjectId)
  /-- Running a task of a project that is not isolated. -/
  | taskExecution (project : ProjectId)
  /-- The state of all projects of a build. -/
  | buildState (build : BuildId)
  /-- Running any task of a build that is not isolated. -/
  | buildExecution (build : BuildId)
  /-- A resource that tasks name. -/
  | shared (name : String)
  deriving DecidableEq, Repr

namespace ResourceKey

/-- The kind of a key, as a number. -/
def rank : ResourceKey → Nat
  | projectState _ => 0
  | taskExecution _ => 1
  | buildState _ => 2
  | buildExecution _ => 3
  | shared _ => 4

/-- The build of a key, or the name of a shared resource. -/
def owner : ResourceKey → String
  | projectState p | taskExecution p => p.build.name
  | buildState b | buildExecution b => b.name
  | shared name => name

def place : ResourceKey → String
  | projectState p | taskExecution p => p.path
  | _ => ""

instance : Ord ResourceKey :=
  ⟨compareLex (compareOn rank) (compareLex (compareOn owner) (compareOn place))⟩

instance : Std.TransOrd ResourceKey :=
  inferInstanceAs
    (Std.TransCmp (compareLex (compareOn rank) (compareLex (compareOn owner) (compareOn place))))

instance : Std.LawfulEqOrd ResourceKey where
  eq_of_compare {a b} h := by
    have h' : compareLex (compareOn rank) (compareLex (compareOn owner) (compareOn place)) a b
      = .eq := h
    simp only [compareLex, compareOn, Ordering.then_eq_eq, Std.LawfulEqOrd.compare_eq_iff_eq] at h'
    obtain ⟨hr, ho, hp⟩ := h'
    cases a <;> cases b <;> simp_all [rank, owner, place, ProjectId.ext_iff, BuildId.ext_iff]

end ResourceKey

/-- Which keys guard the projects of a tree. -/
structure ProjectLocks where
  /-- Tasks of different projects may run at the same time. -/
  parallel : Bool
  deriving DecidableEq, Repr

namespace ProjectLocks

/-- The key for the state of a project. -/
def stateLock (l : ProjectLocks) (project : ProjectId) : ResourceKey :=
  if l.parallel then .projectState project else .buildState project.build

/-- The key for running tasks of a project. -/
def executionLock (l : ProjectLocks) (project : ProjectId) : ResourceKey :=
  if l.parallel then .taskExecution project else .buildExecution project.build

/-- The keys a task holds while it runs. An isolated task takes only its shared resources. -/
def taskLocks (l : ProjectLocks) (project : ProjectId) (isolated : Bool)
    (shared : Std.TreeSet String) : List ResourceKey :=
  (if isolated then [] else [l.stateLock project, l.executionLock project]) ++
    shared.toList.map .shared

end ProjectLocks

end Foreman
