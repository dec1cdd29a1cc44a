/-!
# File paths

A file path is read as its segments: a slash parts them, and empty segments and dots are dropped,
save a dot that opens a relative path. Two paths overlap when the segments of one begin the
segments of the other.
-/

namespace Foreman

/-- A step of a file path. -/
inductive Segment
  /-- The slash that opens an absolute path. -/
  | root
  /-- The dot that opens a relative path. -/
  | here
  /-- Two dots. -/
  | parent
  | name (text : String)
  deriving DecidableEq, Repr

namespace Segment

/-- Root, dot and double dot stand before all names. -/
def rank : Segment → Nat
  | root => 0
  | here => 1
  | parent => 2
  | name _ => 3

def label : Segment → String
  | name text => text
  | _ => ""

instance : Ord Segment := ⟨compareLex (compareOn rank) (compareOn label)⟩

instance : Std.TransOrd Segment :=
  inferInstanceAs (Std.TransCmp (compareLex (compareOn rank) (compareOn label)))

instance : Std.LawfulEqOrd Segment where
  eq_of_compare {a b} h := by
    have h' : compareLex (compareOn rank) (compareOn label) a b = .eq := h
    cases a <;> cases b <;> simp_all [compareLex, compareOn, Ordering.then_eq_eq, rank, label]

/-- The segment spelled by what stands between two slashes; nothing for an empty text or a dot. -/
def ofPiece : List Char → Option Segment
  | [] => none
  | ['.'] => none
  | ['.', '.'] => some parent
  | cs => some (name (String.ofList cs))

end Segment

structure FilePath where
  text : String
  deriving DecidableEq, Repr

namespace FilePath

def pieces : List Char → List (List Char)
  | [] => [[]]
  | c :: cs =>
    if c = '/' then [] :: pieces cs
    else
      match pieces cs with
      | p :: ps => (c :: p) :: ps
      | [] => [[c]]

/-- The segment that opens a path, if it opens with a slash or a lone dot. -/
def opening : List Char → List Segment
  | '/' :: _ => [.root]
  | ['.'] => [.here]
  | '.' :: '/' :: _ => [.here]
  | _ => []

def segments (p : FilePath) : List Segment :=
  opening p.text.toList ++ (pieces p.text.toList).filterMap Segment.ofPiece

end FilePath

/-- Whether one place is the other or lies above it. -/
def overlap (a b : List Segment) : Bool := a.isPrefixOf b || b.isPrefixOf a

end Foreman
