import Foreman.Toml.Scalar

/-!
# TOML tokens

A document is read character by character into tokens. Quoted texts are decoded here, so that a
token holds the text that is meant; comments leave nothing.
-/

namespace Foreman.Toml

inductive Token
  /-- A run of characters without a meaning of their own. -/
  | word (s : String)
  /-- A quoted text; between triple quotes it may span lines. -/
  | text (s : String) (multiline : Bool)
  | dot
  | equals
  | comma
  | openBracket
  | closeBracket
  | openBrace
  | closeBrace
  /-- A space or a tab. -/
  | blank (c : Char)
  | lineEnd
  deriving DecidableEq, Repr

/-- Write every line end as a line feed alone. -/
def unifyLineEnds : List Char → List Char
  | '\r' :: '\n' :: cs => '\n' :: unifyLineEnds cs
  | c :: cs => c :: unifyLineEnds cs
  | [] => []

/-- Leave out a byte order mark at the start. -/
def dropMark : List Char → List Char
  | '\ufeff' :: cs => cs
  | cs => cs

namespace Token

/-- How a text is quoted. Escapes count only between double quotes. -/
structure Quoting where
  quote : Char
  multiline : Bool
  deriving DecidableEq, Repr

/-- What the reader of characters is in the middle of. A text so far is held in reverse. -/
inductive Mode
  | ground
  | word (done : List Char)
  | comment
  /-- After one or two quotes that may be the first of three. -/
  | opening (quote : Char) (two : Bool)
  /-- At the start of a text between triple quotes, where a line end does not count. -/
  | first (quote : Char)
  | text (q : Quoting) (done : List Char)
  /-- After so many quotes inside a text between triple quotes. -/
  | closing (quote : Char) (count : Nat) (done : List Char)
  | escape (q : Quoting) (done : List Char)
  /-- So many hexadecimal digits before the end of an escape. -/
  | code (q : Quoting) (done : List Char) (left value : Nat)
  /-- After a backslash that joins lines; `lineSeen` tells whether the line has ended. -/
  | joining (q : Quoting) (done : List Char) (lineSeen : Bool)
  deriving Repr

/-- A character that may stand for itself in a text or a comment. -/
def isPlain (c : Char) : Bool := c = '\t' || (' ' ≤ c && c ≠ '\x7f')

def single? (c : Char) : Option Token :=
  match c with
  | '.' => some dot
  | '=' => some equals
  | ',' => some comma
  | '[' => some openBracket
  | ']' => some closeBracket
  | '\x7b' => some openBrace
  | '\x7d' => some closeBrace
  | ' ' | '\t' => some (blank c)
  | '\n' => some lineEnd
  | _ => none

def startAt (c : Char) : List Token × Mode :=
  match single? c with
  | some t => ([t], .ground)
  | none =>
    if c = '#' then ([], .comment)
    else if c = '"' || c = '\'' then ([], .opening c false)
    else ([], .word [c])

def thenAt (t : Token) (c : Char) : List Token × Mode :=
  let (ts, mode) := startAt c
  (t :: ts, mode)

def ofReverse (q : Quoting) (done : List Char) : Token :=
  text (String.ofList done.reverse) q.multiline

def inText (q : Quoting) (done : List Char) (c : Char) : Option (List Token × Mode) :=
  if c = q.quote then
    if q.multiline then some ([], .closing q.quote 1 done)
    else some ([ofReverse q done], .ground)
  else if c = '\\' && q.quote = '"' then some ([], .escape q done)
  else if isPlain c || (q.multiline && c = '\n') then some ([], .text q (c :: done))
  else none

def escaped? (c : Char) : Option Char :=
  match c with
  | 'b' => some '\x08'
  | 't' => some '\t'
  | 'n' => some '\n'
  | 'f' => some '\x0c'
  | 'r' => some '\r'
  | 'e' => some '\x1b'
  | '"' => some '"'
  | '\\' => some '\\'
  | _ => none

def codeLength? (c : Char) : Option Nat :=
  match c with
  | 'x' => some 2
  | 'u' => some 4
  | 'U' => some 8
  | _ => none

def inEscape (q : Quoting) (done : List Char) (c : Char) : Option Mode :=
  match escaped? c, codeLength? c with
  | some d, _ => some (.text q (d :: done))
  | none, some n => some (.code q done n 0)
  | none, none =>
    if q.multiline && (c = ' ' || c = '\t') then some (.joining q done false)
    else if q.multiline && c = '\n' then some (.joining q done true)
    else none

/-- Read a hexadecimal digit of an escape; the number must be one of a character. -/
def inCode (q : Quoting) (done : List Char) (left value : Nat) (c : Char) : Option Mode :=
  match digit? 16 c with
  | none => none
  | some d =>
    let value := 16 * value + d
    if 1 < left then some (.code q done (left - 1) value)
    else if value.isValidChar then some (.text q (Char.ofNat value :: done))
    else none

def Mode.next (mode : Mode) (c : Char) : Option (List Token × Mode) :=
  match mode with
  | .ground => some (startAt c)
  | .word done =>
    if (single? c).isSome || c = '#' || c = '"' || c = '\'' then
      some (thenAt (Token.word (String.ofList done.reverse)) c)
    else some ([], .word (c :: done))
  | .comment =>
    if c = '\n' then some ([lineEnd], .ground) else if isPlain c then some ([], .comment) else none
  | .opening quote false =>
    if c = quote then some ([], .opening quote true) else inText ⟨quote, false⟩ [] c
  | .opening quote true =>
    if c = quote then some ([], .first quote) else some (thenAt (Token.text "" false) c)
  | .first quote =>
    if c = '\n' then some ([], .text ⟨quote, true⟩ []) else inText ⟨quote, true⟩ [] c
  | .text q done => inText q done c
  | .closing quote count done =>
    if c = quote then
      if count < 5 then some ([], .closing quote (count + 1) done) else none
    else if 3 ≤ count then
      some (thenAt (ofReverse ⟨quote, true⟩ (List.replicate (count - 3) quote ++ done)) c)
    else inText ⟨quote, true⟩ (List.replicate count quote ++ done) c
  | .escape q done => (inEscape q done c).map ([], ·)
  | .code q done left value => (inCode q done left value c).map ([], ·)
  | .joining q done false =>
    if c = '\n' then some ([], .joining q done true)
    else if c = ' ' || c = '\t' then some ([], mode)
    else none
  | .joining q done true =>
    if c = ' ' || c = '\t' || c = '\n' then some ([], mode) else inText q done c

def read? (mode : Mode) : List Char → Option (List Token)
  | [] =>
    match mode with
    | .ground => some []
    | _ => none
  | c :: cs => do
    let (tokens, mode) ← mode.next c
    return tokens ++ (← read? mode cs)

/-- The tokens of a document. The last line may end without a line feed. -/
def ofText? (s : String) : Option (List Token) :=
  read? .ground (unifyLineEnds (dropMark s.toList) ++ ['\n'])

end Token

end Foreman.Toml
