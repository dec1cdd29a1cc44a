import Foreman.Toml.Table
import Foreman.Toml.Token

/-!
# TOML documents

A document is read token by token by a machine with a stack of the arrays and inline tables that
are still open. `Document.read?` gives the entries of a text that is a TOML document.
-/

namespace Foreman.Toml

/-- The entries so far, and the path of the header above. -/
structure Document where
  entries : Entries
  header : List String

namespace Document

inductive Frame
  /-- The line of a key. -/
  | line (key : List String)
  /-- An array with the items so far. -/
  | array (items : List Value)
  /-- An inline table with the entries so far and the key of the value. -/
  | table (entries : Entries) (key : List String)

inductive Place
  | line
  | header (element : Bool)
  | table (entries : Entries) (outer : List Frame)

inductive Mode
  /-- A line. -/
  | line
  /-- What follows the first bracket of a header. -/
  | header
  /-- A further part of a key. -/
  | key (place : Place) (parts : List String)
  /-- What follows a part of a key. -/
  | keyPart (place : Place) (parts : List String)
  /-- The second bracket after the key of an element. -/
  | headerEnd (key : List String)
  /-- A value. -/
  | value (frames : List Frame)
  /-- The rest of a word that stands for a value. -/
  | word (s : String) (frames : List Frame)
  /-- Perhaps a time, after a date and a space. -/
  | dateGap (s : String) (frames : List Frame)
  /-- What follows an item of an array. -/
  | item (items : List Value) (frames : List Frame)
  /-- What follows an entry of an inline table. -/
  | entry (entries : Entries) (frames : List Frame)
  /-- The end of the line. -/
  | lineEnd

/-- How deep arrays and inline tables may nest. -/
def maxDepth : Nat := 80

/-- A word that may be a part of a key. -/
def isBareKey (s : String) : Bool :=
  s ≠ "" && s.toList.all fun c => c.isAlphanum || c = '_' || c = '-'

def useValue (d : Document) (v : Value) : List Frame → Option (Document × Mode)
  | [] => none
  | .line key :: _ => (d.entries.defineAt d.header key v).map fun entries =>
    ({ d with entries }, .lineEnd)
  | .array items :: frames => some (d, .item (items ++ [v]) frames)
  | .table entries key :: frames => (entries.define v key).map fun entries =>
    (d, .entry entries frames)

/-- Read a token after the first bracket of a header or further on in a key. -/
def inKey (d : Document) (place : Place) (parts : List String) (t : Token) :
    Option (Document × Mode) :=
  match t, place with
  | .word s, _ => if isBareKey s then some (d, .keyPart place (parts ++ [s])) else none
  | .text s false, _ => some (d, .keyPart place (parts ++ [s]))
  | .blank _, _ => some (d, .key place parts)
  | .lineEnd, .table .. => if parts = [] then some (d, .key place parts) else none
  | .closeBrace, .table entries outer =>
    if parts = [] then d.useValue (.table .inline entries) outer else none
  | _, _ => none

def afterKeyPart (d : Document) (place : Place) (parts : List String) (t : Token) :
    Option (Document × Mode) :=
  match t, place with
  | .blank _, _ => some (d, .keyPart place parts)
  | .dot, _ => some (d, .key place parts)
  | .equals, .line => some (d, .value [.line parts])
  | .equals, .table entries outer => some (d, .value (.table entries parts :: outer))
  | .closeBracket, .header false => (d.entries.openTable parts).map fun entries =>
    (⟨entries, parts⟩, .lineEnd)
  | .closeBracket, .header true => some (d, .headerEnd parts)
  | _, _ => none

def inValue (d : Document) (frames : List Frame) (t : Token) : Option (Document × Mode) :=
  match t, frames with
  | .word s, _ => some (d, .word s frames)
  | .text s _, _ => d.useValue (.text s) frames
  | .blank _, _ => some (d, .value frames)
  | .openBracket, _ =>
    if frames.length ≤ maxDepth then some (d, .value (.array [] :: frames)) else none
  | .openBrace, _ =>
    if frames.length ≤ maxDepth then some (d, .key (.table [] frames) []) else none
  | .lineEnd, .array _ :: _ => some (d, .value frames)
  | .closeBracket, .array items :: outer => d.useValue (.array items) outer
  | _, _ => none

def afterValue (d : Document) (mode : Mode) (t : Token) : Option (Document × Mode) :=
  match mode, t with
  | .lineEnd, .blank _ => some (d, .lineEnd)
  | .lineEnd, .lineEnd => some (d, .line)
  | .item .., .blank _ | .item .., .lineEnd => some (d, mode)
  | .item items frames, .comma => some (d, .value (.array items :: frames))
  | .item items frames, .closeBracket => d.useValue (.array items) frames
  | .entry .., .blank _ | .entry .., .lineEnd => some (d, mode)
  | .entry entries frames, .comma => some (d, .key (.table entries frames) [])
  | .entry entries frames, .closeBrace => d.useValue (.table .inline entries) frames
  | _, _ => none

def afterWord (d : Document) (s : String) (frames : List Frame) (t : Token) :
    Option (Document × Mode) := do
  let v ← Value.ofWord? s
  let (d, mode) ← d.useValue v frames
  d.afterValue mode t

/-- Read one token. -/
def next (d : Document) (mode : Mode) (t : Token) : Option (Document × Mode) :=
  match mode with
  | .line =>
    match t with
    | .blank _ | .lineEnd => some (d, .line)
    | .openBracket => some (d, .header)
    | _ => d.inKey .line [] t
  | .header =>
    if t = .openBracket then some (d, .key (.header true) []) else d.inKey (.header false) [] t
  | .key place parts => d.inKey place parts t
  | .keyPart place parts => d.afterKeyPart place parts t
  | .headerEnd key =>
    if t = .closeBracket then
      (d.entries.openElement key).map fun entries => (⟨entries, key⟩, .lineEnd)
    else none
  | .value frames => d.inValue frames t
  | .word s frames =>
    match t with
    | .word more => some (d, .word (s ++ more) frames)
    | .dot => some (d, .word (s ++ ".") frames)
    | .blank ' ' => if isDate s.toList then some (d, .dateGap s frames) else d.afterWord s frames t
    | _ => d.afterWord s frames t
  | .dateGap s frames =>
    match t with
    | .word more => some (d, .word (s ++ " " ++ more) frames)
    | _ => d.afterWord s frames t
  | .item .. | .entry .. | .lineEnd => d.afterValue mode t

def run (d : Document) (mode : Mode) : List Token → Option Entries
  | [] =>
    match mode with
    | .line => some d.entries
    | _ => none
  | t :: ts => do
    let (d, mode) ← d.next mode t
    d.run mode ts

def read? (s : String) : Option Entries := do
  (⟨[], []⟩ : Document).run .line (← Token.ofText? s)

/-- Whether the text is a document in which some integer does not fit into 64 bits with a sign. -/
def hasWideInteger (s : String) : Bool :=
  ((read? s).map (Value.entriesExceed (-Nat.pow 2 63) (Nat.pow 2 63 - 1))).getD false

end Document

end Foreman.Toml
