import Foreman.Toml.Value

/-!
# Bare words as values

A word that stands where a value is expected is a truth value, an integer, a floating-point number,
or a date or time.
-/

namespace Foreman.Toml

/-! ## Digits -/

def digit? (base : Nat) (c : Char) : Option Nat :=
  let n := if c.isDigit then some (c.toNat - 48)
    else if 'a' ≤ c && c ≤ 'f' then some (c.toNat - 87)
    else if 'A' ≤ c && c ≤ 'F' then some (c.toNat - 55)
    else none
  n.filter (· < base)

/-- The digits of a number; single underscores may stand between them. -/
def digits? (base : Nat) : List Char → Option (List Nat)
  | [] => none
  | [c] => (digit? base c).map ([·])
  | c :: '_' :: cs => do return (← digit? base c) :: (← digits? base cs)
  | c :: cs => do return (← digit? base c) :: (← digits? base cs)

def ofDigits (base : Nat) (digits : List Nat) : Nat := digits.foldl (fun n d => base * n + d) 0

/-- The digits of a decimal number without superfluous zeros in front. -/
def decimal? (cs : List Char) : Option (List Nat) :=
  match digits? 10 cs with
  | some (0 :: _ :: _) => none
  | ds => ds

/-- Whether a minus sign stands in front, and what follows the sign if there is one. -/
def cutSign : List Char → Bool × List Char
  | '-' :: cs => (true, cs)
  | '+' :: cs => (false, cs)
  | cs => (false, cs)

/-! ## Numbers -/

/-- An integer: decimal with an optional sign, or hexadecimal, octal or binary without. -/
def integer? : List Char → Option Int
  | '0' :: 'x' :: cs => (digits? 16 cs).map fun ds => (ofDigits 16 ds : Int)
  | '0' :: 'o' :: cs => (digits? 8 cs).map fun ds => (ofDigits 8 ds : Int)
  | '0' :: 'b' :: cs => (digits? 2 cs).map fun ds => (ofDigits 2 ds : Int)
  | cs =>
    let (negative, cs) := cutSign cs
    (decimal? cs).map fun ds =>
      let n : Int := ofDigits 10 ds
      if negative then -n else n

/-- What stands before and after the first character that `p` accepts; there may be none. -/
def cutAt (p : Char → Bool) (cs : List Char) : List Char × Option (List Char) :=
  match cs.dropWhile (!p ·) with
  | [] => (cs, none)
  | _ :: rest => (cs.takeWhile (!p ·), some rest)

def exponent? : Option (List Char) → Option Int
  | none => some 0
  | some cs =>
    let (negative, cs) := cutSign cs
    (digits? 10 cs).map fun ds =>
      let n : Int := ofDigits 10 ds
      if negative then -n else n

def fraction? : Option (List Char) → Option (List Nat)
  | none => some []
  | some cs => digits? 10 cs

/-- A floating-point number: it has a fraction, an exponent or both, or is infinite or none. -/
def real? (cs : List Char) : Option Real :=
  let (negative, cs) := cutSign cs
  if cs = ['i', 'n', 'f'] then some (.infinite negative)
  else if cs = ['n', 'a', 'n'] then some .notANumber
  else
    let (mantissa, exponent) := cutAt (fun c => c = 'e' || c = 'E') cs
    let (whole, fraction) := cutAt (· = '.') mantissa
    if exponent.isNone && fraction.isNone then none
    else do
      let whole ← decimal? whole
      let fraction ← fraction? fraction
      let exponent ← exponent? exponent
      return .finite negative (ofDigits 10 (whole ++ fraction)) (exponent - fraction.length)

/-- The least number beyond the greatest finite double that is nearer to the next power of two. -/
def doubleLimit : Nat := (Nat.pow 2 54 - 1) * Nat.pow 2 970

def Real.overflows : Real → Bool
  | finite _ digits (.ofNat e) =>
    digits ≠ 0 && (400 < e || doubleLimit ≤ digits * Nat.pow 10 e)
  | finite _ digits (.negSucc e) =>
    e < (Nat.toDigits 10 digits).length && doubleLimit * Nat.pow 10 (e + 1) ≤ digits
  | infinite _ | notANumber => false

/-! ## Dates and times -/

/-- The number made of the first `n` characters, which must be digits, and what follows. -/
def fixed? (n : Nat) (cs : List Char) : Option (Nat × List Char) :=
  let ds := cs.take n
  if ds.length = n && ds.all Char.isDigit then
    some (ofDigits 10 (ds.map fun c => c.toNat - 48), cs.drop n)
  else none

def after? (c : Char) : List Char → Option (List Char)
  | d :: cs => if d = c then some cs else none
  | [] => none

def daysIn (year month : Nat) : Nat :=
  if month = 2 then
    if year % 4 = 0 && (year % 100 ≠ 0 || year % 400 = 0) then 29 else 28
  else if [4, 6, 9, 11].contains month then 30 else 31

def afterDate? (cs : List Char) : Option (List Char) := do
  let (year, cs) ← fixed? 4 cs
  let (month, cs) ← fixed? 2 (← after? '-' cs)
  let (day, cs) ← fixed? 2 (← after? '-' cs)
  if 1 ≤ month && month ≤ 12 && 1 ≤ day && day ≤ daysIn year month then some cs else none

def afterMinutes? (cs : List Char) : Option (List Char) := do
  let (hour, cs) ← fixed? 2 cs
  let (minute, cs) ← fixed? 2 (← after? ':' cs)
  if hour < 24 && minute < 60 then some cs else none

/-- What follows a time at the front. Seconds may be left out and may have a fraction; a minute
may have a leap second. -/
def afterTime? (cs : List Char) : Option (List Char) := do
  match ← afterMinutes? cs with
  | ':' :: cs =>
    let (second, cs) ← fixed? 2 cs
    if 60 < second then none
    else
      match cs with
      | '.' :: cs =>
        if (cs.takeWhile Char.isDigit).isEmpty then none else some (cs.dropWhile Char.isDigit)
      | cs => some cs
  | cs => some cs

def isOffset : List Char → Bool
  | [] | ['Z'] | ['z'] => true
  | '+' :: cs | '-' :: cs => afterMinutes? cs = some []
  | _ => false

def isDate (cs : List Char) : Bool := afterDate? cs = some []

def isMoment (cs : List Char) : Bool :=
  match afterDate? cs with
  | some [] => true
  | some (c :: cs) => ['T', 't', ' '].contains c && ((afterTime? cs).map isOffset).getD false
  | none => afterTime? cs = some []

/-! ## Words -/

/-- The value of a word. Integers have at most 128 bits, and a floating-point number must not be
too large for a double. -/
def Value.ofWord? (word : String) : Option Value :=
  let cs := word.toList
  if word = "true" then some (.boolean true)
  else if word = "false" then some (.boolean false)
  else
    match integer? cs, real? cs with
    | some n, _ => if -Nat.pow 2 127 ≤ n && n < Nat.pow 2 128 then some (.integer n) else none
    | none, some r => if r.overflows then none else some (.real r)
    | none, none => if isMoment cs then some (.moment word) else none

end Foreman.Toml
