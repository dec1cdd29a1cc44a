/-!
# Glob patterns

`?` stands for any one character, `*` for any text, `[abc]`, `[a-z]` and `[!...]` for a character
in or out of a set, and `**`, which must form a whole component between separators, for any number
of components. `Glob.parse` reads a pattern or tells what is wrong where; `Glob.accepts` says
whether the whole of a text matches. Letter case counts, and a wildcard may cross separators.
-/

namespace Foreman

/-- A member of a bracketed set: the characters from `low` to `high`. -/
structure CharRange where
  low : Char
  high : Char
  deriving DecidableEq, Repr

inductive GlobToken
  /-- Exactly this character. -/
  | char (c : Char)
  /-- Any one character. -/
  | any
  /-- Any text. -/
  | sequence
  /-- Nothing, some whole components each with its separator, or all that is left. -/
  | components
  /-- One character in the ranges, or outside all of them if `negated`. -/
  | range (negated : Bool) (ranges : List CharRange)
  deriving DecidableEq, Repr

inductive GlobFault
  | wildcards
  | components
  | range
  deriving DecidableEq, Repr

/-- A fault and the number of characters before it. -/
structure GlobError where
  position : Nat
  fault : GlobFault
  deriving DecidableEq, Repr

/-- A pattern that was read; `text` is its spelling. -/
structure Glob where
  text : String
  tokens : List GlobToken
  deriving DecidableEq, Repr

def GlobFault.reason : GlobFault → String
  | .wildcards => "wildcards are either regular `*` or recursive `**`"
  | .components => "recursive wildcards must form a single path component"
  | .range => "invalid range pattern"

def GlobError.message (e : GlobError) : String :=
  "Pattern syntax error near position " ++ toString e.position ++ ": " ++ e.fault.reason

namespace Glob

/-! ## Reading -/

/-- Cut at the first closing bracket. -/
def cutBracket : List Char → Option (List Char × List Char)
  | [] => none
  | c :: cs => if c = ']' then some ([], cs) else (cutBracket cs).map fun (a, b) => (c :: a, b)

theorem length_of_cutBracket {cs before after : List Char}
    (h : cutBracket cs = some (before, after)) :
    after.length + before.length + 1 = cs.length := by
  induction cs generalizing before with
  | nil => simp [cutBracket] at h
  | cons c cs ih =>
    by_cases hc : c = ']'
    · simp [cutBracket, hc] at h
      obtain ⟨rfl, rfl⟩ := h
      rfl
    · simp [cutBracket, hc] at h
      obtain ⟨a, h, rfl⟩ := h
      have := ih h
      simp only [List.length_cons]
      omega

/-- The members of a set: `a-z` is a range, anything else stands for itself. -/
def ranges : List Char → List CharRange
  | low :: '-' :: high :: cs => ⟨low, high⟩ :: ranges cs
  | c :: cs => ⟨c, c⟩ :: ranges cs
  | [] => []

/-- What a bracket opens: whether the set is negated, its members, the text after it and the
number of characters read. The first character of a set never closes it. -/
def openBracket : List Char → Option (Bool × List Char × List Char × Nat)
  | '!' :: c :: cs => (cutBracket cs).map fun (set, rest) => (true, c :: set, rest, set.length + 3)
  | '!' :: [] => none
  | c :: cs => (cutBracket cs).map fun (set, rest) => (false, c :: set, rest, set.length + 2)
  | [] => none

theorem length_of_openBracket {cs : List Char} {n : Bool} {set rest : List Char} {k : Nat}
    (h : openBracket cs = some (n, set, rest, k)) : rest.length < cs.length := by
  unfold openBracket at h
  split at h
  · simp only [Option.map_eq_some_iff, Prod.exists, Prod.mk.injEq] at h
    obtain ⟨a, b, h, -, -, rfl, -⟩ := h
    have := length_of_cutBracket h
    simp only [List.length_cons]
    omega
  · simp at h
  · simp only [Option.map_eq_some_iff, Prod.exists, Prod.mk.injEq] at h
    obtain ⟨a, b, h, -, -, rfl, -⟩ := h
    have := length_of_cutBracket h
    simp only [List.length_cons]
    omega
  · simp at h

/-- Add a `**`; one that follows another adds nothing, except right at the start. -/
def pushComponents : List GlobToken → List GlobToken
  | .components :: t :: ts => .components :: t :: ts
  | ts => .components :: ts

/-- Read the characters from `position` on; `before` is the character in front of them and `done`
the tokens so far, latest first. -/
def scan (position : Nat) (before : Option Char) (done : List GlobToken) :
    List Char → Except GlobError (List GlobToken)
  | [] => .ok done.reverse
  | '*' :: '*' :: '*' :: _ => .error ⟨position + 2, .wildcards⟩
  | '*' :: '*' :: cs =>
    if before.all (· = '/') then
      match cs with
      | [] => .ok (pushComponents done).reverse
      | '/' :: cs => scan (position + 3) (some '/') (pushComponents done) cs
      | _ => .error ⟨position + 2, .components⟩
    else .error ⟨position - 1, .components⟩
  | '*' :: cs => scan (position + 1) (some '*') (.sequence :: done) cs
  | '?' :: cs => scan (position + 1) (some '?') (.any :: done) cs
  | '[' :: cs =>
    match h : openBracket cs with
    | some (negated, set, rest, read) =>
      have := length_of_openBracket h
      scan (position + 1 + read) (some ']') (.range negated (ranges set) :: done) rest
    | none => .error ⟨position, .range⟩
  | c :: cs => scan (position + 1) (some c) (.char c :: done) cs
termination_by cs => cs.length
decreasing_by all_goals simp only [List.length_cons]; omega

def parse (text : String) : Except GlobError Glob :=
  (scan 0 none [] text.toList).map (Glob.mk text)

/-! ## Matching -/

def suffixes : List Char → List (List Char)
  | [] => [[]]
  | c :: cs => (c :: cs) :: suffixes cs

/-- What is left after each separator, and the empty rest. -/
def afterSeparators : List Char → List (List Char)
  | [] => [[]]
  | c :: cs => if c = '/' then cs :: afterSeparators cs else afterSeparators cs

def inRanges (ranges : List CharRange) (c : Char) : Bool :=
  ranges.any fun r => r.low ≤ c && c ≤ r.high

def matchTokens : List GlobToken → List Char → Bool
  | [], cs => cs.isEmpty
  | .sequence :: ts, cs => (suffixes cs).any (matchTokens ts)
  | .components :: ts, cs => (cs :: afterSeparators cs).any (matchTokens ts)
  | .char _ :: _, [] => false
  | .any :: _, [] => false
  | .range .. :: _, [] => false
  | .char c :: ts, c' :: cs => c = c' && matchTokens ts cs
  | .any :: ts, _ :: cs => matchTokens ts cs
  | .range negated ranges :: ts, c :: cs => inRanges ranges c != negated && matchTokens ts cs

def accepts (g : Glob) (text : String) : Bool := matchTokens g.tokens text.toList

end Glob

end Foreman
