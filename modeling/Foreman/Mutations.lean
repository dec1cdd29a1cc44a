import Foreman.Error
import Foreman.FilePath

/-!
# Files a task touches

`Mutations` is what a task declares, `Footprint` its checked summary. Two footprints conflict when
one side destroys something in a place where the other produces something.
-/

namespace Foreman

/-- The files a task declares to touch, in the order of declaration. -/
structure Mutations where
  outputs : List FilePath
  inputs : List FilePath
  localState : List FilePath
  destroys : List FilePath
  deriving DecidableEq, Repr

def Mutations.none : Mutations := ⟨[], [], [], []⟩

abbrev Places := Std.TreeMap (List Segment) FilePath

namespace Places

/-- Gather paths; of two paths for one place the spelling of the later one stays. -/
def ofList (paths : List FilePath) : Places :=
  paths.foldl (fun places p => places.insert p.segments p) ∅

def spellings (places : Places) : List FilePath := places.toList.map (·.2)

def overlaps (a b : Places) : Bool :=
  a.toList.any fun p => b.toList.any fun q => overlap p.1 q.1

end Places

/-- What a node produces and removes. -/
structure Footprint where
  /-- Outputs and local state. -/
  produced : Places
  destroyed : Places
  hasInputs : Bool
  hasLocalState : Bool

def Footprint.none : Footprint := ⟨∅, ∅, false, false⟩

def Footprint.isEmpty (f : Footprint) : Bool := f.produced.isEmpty && f.destroyed.isEmpty

/-- One side destroys what the other produces. -/
def Footprint.conflicts (a b : Footprint) : Bool :=
  a.destroyed.overlaps b.produced || a.produced.overlaps b.destroyed

/-- Check and sum up what node `node` declares: with files to destroy, nothing else may be
declared. -/
def Mutations.footprint (m : Mutations) (node : String) : Except GraphError Footprint :=
  if m.destroys ≠ [] ∧ ¬(m.outputs = [] ∧ m.inputs = [] ∧ m.localState = []) then
    .error (.configuration node
      (.destroyerDeclares (m.outputs ≠ []) (m.inputs ≠ []) (m.localState ≠ [])))
  else
    .ok {
      produced := .ofList (m.outputs ++ m.localState)
      destroyed := .ofList m.destroys
      hasInputs := m.inputs ≠ []
      hasLocalState := m.localState ≠ [] }

end Foreman
