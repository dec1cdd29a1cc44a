import Foreman.Registry

/-!
# Resolving references

The references of a task are resolved from left to right, those that a provider gives in its
place, until the first one that is at fault; what was found before it stays found. Other builds
are reached through a `CrossBuild`: a hard dependency requests the other task, an ordering only
observes it, and a finalizer must be local.
-/

namespace Foreman

/-- How the tasks of other builds are reached. `σ` holds those builds; both calls hand out the task
or refuse. -/
structure CrossBuild (σ : Type) where
  /-- Hand out a task and ask its build to run it. -/
  request : BuildId → TaskPath → σ → Except ExportError Unit × σ
  /-- Hand out a task without asking for it. -/
  observe : BuildId → TaskPath → σ → Except ExportError Unit × σ

/-- Do `f` with one element after another until there is an error. -/
def eachUntilError {α ε s : Type} (f : α → s → s × Option ε) : List α → s → s × Option ε
  | [], st => (st, none)
  | a :: as, st =>
    match f a st with
    | (st, none) => eachUntilError f as st
    | (st, some e) => (st, some e)

/-- What a resolution reads and changes: the build's declarations, to which providers add, the
other builds, and the targets found so far. -/
structure Resolution (σ : Type) where
  registry : Registry
  others : σ
  targets : List Work

namespace Resolution

variable {σ : Type}

def found (r : Resolution σ) (target : Work) : Resolution σ :=
  { r with targets := r.targets ++ [target] }

def foundLocal (r : Resolution σ) (referrer path : TaskPath) : Resolution σ × Option GraphError :=
  match r.registry.get? path with
  | some task => (r.found (.task task), none)
  | none => (r, some (.configuration referrer.text (.unknownTask path r.registry.build)))

def foundForeign (r : Resolution σ) (cross : Option (CrossBuild σ)) (referrer : TaskPath)
    (relationship : Relationship) (build : BuildId) (path : TaskPath) :
    Resolution σ × Option GraphError :=
  match cross with
  | none => (r, some (.configuration referrer.text (.outsideTree path build)))
  | some cross =>
    let take (ask : BuildId → TaskPath → σ → Except ExportError Unit × σ) :=
      match ask build path r.others with
      | (.ok (), others) => ({ r with others }.found (.foreign build path), none)
      | (.error e, others) => ({ r with others }, some (e.forReference referrer.text))
    match relationship with
    | .dependency => take cross.request
    | .mustRunAfter | .shouldRunAfter => take cross.observe
    | .finalizedBy =>
      (r, some (.configuration referrer.text (.foreignFinalizer path build r.registry.build)))

/-- How deep providers may give further providers. -/
def maxProviderDepth : Nat := 32

/-- Resolve one reference of task `referrer`; `depth` is how many providers may still open one
inside the other. -/
def resolveReference (cross : Option (CrossBuild σ)) (referrer : TaskPath)
    (relationship : Relationship) :
    Nat → TaskReference → Resolution σ → Resolution σ × Option GraphError
  | _, .path text, r =>
    match referrer.resolve? text with
    | some path => r.foundLocal referrer path
    | none => (r, some (.configuration referrer.text (.malformedReference text)))
  | _, .pattern glob, r => ((r.registry.matching glob).foldl (fun r t => r.found (.task t)) r, none)
  | 0, .provider _, r => (r, some (.configuration referrer.text .nestedProviders))
  | depth + 1, .provider id, r =>
    let (registry, references) := r.registry.ask id
    eachUntilError (resolveReference cross referrer relationship depth) references
      { r with registry }
  | _, .inBuild build path, r =>
    if build = r.registry.build then r.foundLocal referrer path
    else r.foundForeign cross referrer relationship build path

/-- Resolve the references of one relationship of a task, from left to right, up to the first
fault. -/
def resolve (cross : Option (CrossBuild σ)) (task : TaskDefinition) (relationship : Relationship)
    (registry : Registry) (others : σ) : Resolution σ × Option GraphError :=
  eachUntilError (resolveReference cross task.path relationship maxProviderDepth)
    (task.references relationship) ⟨registry, others, []⟩

end Resolution

end Foreman
