/-!
# TOML values

The values of a TOML document. A table remembers how it came to be, because that decides what may
still be added to it.
-/

namespace Foreman.Toml

/-- How a table came to be. -/
inductive Origin
  /-- Written between braces, all at once. -/
  | inline
  /-- Opened by a header of its own. -/
  | header
  /-- Passed through by the header of a table further inside. -/
  | passing
  /-- Passed through by a dotted key. -/
  | dotted
  deriving DecidableEq, Repr

/-- A floating-point number as written: digits times a power of ten. -/
inductive Real
  | finite (negative : Bool) (digits : Nat) (exponent : Int)
  | infinite (negative : Bool)
  | notANumber
  deriving DecidableEq, Repr

inductive Value
  | text (s : String)
  | integer (n : Int)
  | real (r : Real)
  | boolean (b : Bool)
  /-- A date, a time or both, as written. -/
  | moment (s : String)
  | array (items : List Value)
  | table (origin : Origin) (entries : List (String × Value))
  /-- The elements of an array of tables. -/
  | tables (elements : List (List (String × Value)))

abbrev Entries := List (String × Value)

namespace Value

mutual

/-- Some integer in the value lies outside the given bounds, both included. -/
def exceeds (least greatest : Int) : Value → Bool
  | integer n => n < least || greatest < n
  | array items => anyExceeds least greatest items
  | table _ entries => entriesExceed least greatest entries
  | tables elements => elementsExceed least greatest elements
  | text _ | real _ | boolean _ | moment _ => false

def anyExceeds (least greatest : Int) : List Value → Bool
  | [] => false
  | v :: vs => v.exceeds least greatest || anyExceeds least greatest vs

def entriesExceed (least greatest : Int) : List (String × Value) → Bool
  | [] => false
  | (_, v) :: es => v.exceeds least greatest || entriesExceed least greatest es

def elementsExceed (least greatest : Int) : List (List (String × Value)) → Bool
  | [] => false
  | es :: ts => entriesExceed least greatest es || elementsExceed least greatest ts

end

end Value

end Foreman.Toml
