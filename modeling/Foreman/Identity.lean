/-!
# Builds, projects and task paths

A build is known by its name; a project is a place inside one build and the unit of mutable state
that project locks guard. Task path `:compile` is task `compile` of the root project,
`:lib:core:test` is task `test` of project `:lib:core`. A task path has one text (`TaskPath.text`),
and reading a text (`TaskPath.parse?`) accepts besides it only the spelling `::name` of the
root-project task `:name`.
-/

namespace Foreman

/-- One build taking part in a build tree. -/
@[ext]
structure BuildId where
  name : String
  deriving DecidableEq, Repr

instance : Ord BuildId := ⟨compareOn BuildId.name⟩

instance : Std.TransOrd BuildId := inferInstanceAs (Std.TransCmp (compareOn BuildId.name))

instance : Std.LawfulEqOrd BuildId where
  eq_of_compare {a b} h := by
    have h' : compareOn BuildId.name a b = .eq := h
    exact BuildId.ext (by simpa [compareOn] using h')

/-- A project of a build; `path` is `:` for the root project. -/
@[ext]
structure ProjectId where
  build : BuildId
  path : String
  deriving DecidableEq, Repr

instance : Ord ProjectId := ⟨compareLex (compareOn ProjectId.build) (compareOn ProjectId.path)⟩

instance : Std.TransOrd ProjectId :=
  inferInstanceAs (Std.TransCmp (compareLex (compareOn ProjectId.build) (compareOn ProjectId.path)))

instance : Std.LawfulEqOrd ProjectId where
  eq_of_compare {a b} h := by
    have h' : compareLex (compareOn ProjectId.build) (compareOn ProjectId.path) a b = .eq := h
    simp only [compareLex, compareOn, Ordering.then_eq_eq, Std.LawfulEqOrd.compare_eq_iff_eq] at h'
    exact ProjectId.ext h'.1 h'.2

def ProjectId.text (p : ProjectId) : String :=
  "project '" ++ p.path ++ "' (build '" ++ p.build.name ++ "')"

/-- A fully qualified task: its project, `:` for the root project, and its name there. -/
structure TaskPath where
  project : String
  name : String
  deriving DecidableEq, Repr

namespace TaskPath

instance : Ord TaskPath := ⟨compareLex (compareOn TaskPath.project) (compareOn TaskPath.name)⟩

instance : Std.TransOrd TaskPath :=
  inferInstanceAs (Std.TransCmp (compareLex (compareOn TaskPath.project) (compareOn TaskPath.name)))

instance : Std.LawfulEqOrd TaskPath where
  eq_of_compare {a b} h := by
    have h' : compareLex (compareOn TaskPath.project) (compareOn TaskPath.name) a b = .eq := h
    cases a; cases b
    simp_all [compareLex, compareOn, Ordering.then_eq_eq]

/-- What stands before and after the last colon. -/
def cutLastColon : List Char → Option (List Char × List Char)
  | [] => none
  | c :: cs =>
    match cutLastColon cs with
    | some (before, after) => some (c :: before, after)
    | none => if c = ':' then some ([], cs) else none

/-- Read an absolute path: it starts with a colon, and the name after the last colon is not
empty. With nothing before the last colon the project is the root. -/
def parse? (text : String) : Option TaskPath :=
  match text.toList with
  | ':' :: rest =>
    match cutLastColon (':' :: rest) with
    | some (_, []) => none
    | some ([], name) => some ⟨":", String.ofList name⟩
    | some (project, name) => some ⟨String.ofList project, String.ofList name⟩
    | none => none
  | _ => none

def text (p : TaskPath) : String :=
  if p.project = ":" then ":" ++ p.name else p.project ++ ":" ++ p.name

/-- What a reference string means to task `p`: an absolute path, or the name of a task in the
same project. -/
def resolve? (p : TaskPath) (reference : String) : Option TaskPath :=
  match reference.toList with
  | ':' :: _ => parse? reference
  | [] => none
  | cs => if ':' ∈ cs then none else some ⟨p.project, reference⟩

end TaskPath

end Foreman
