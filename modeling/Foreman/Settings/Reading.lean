import Foreman.Toml.Document

/-!
# Settings

Settings tell how work graphs are executed. They are read from the `execution` table of a TOML
document, of which all other content is ignored. They may also be given as an array, in the order of
the fields of `Settings`. What is not said is as in `Settings.default`.
-/

namespace Foreman

open Toml (Value Entries Document)

structure Settings where
  /-- How many workers there are in a tree; none for as many as the machine has processors. -/
  maxWorkers : Option Nat
  /-- Tasks of different projects may run at the same time. -/
  parallelProjects : Bool
  /-- No new task starts after the first failure. -/
  failFast : Bool
  deriving DecidableEq, Repr

def Settings.default : Settings := ⟨none, true, false⟩

/-- What is wrong with a text that is to hold settings. -/
inductive SettingsFault
  /-- It is no TOML document, or a setting has the wrong type. -/
  | invalid
  /-- It asks for no workers at all. -/
  | noWorkers
  deriving DecidableEq, Repr

inductive SettingsError
  | fault (fault : SettingsFault)
  /-- The file cannot be read, or is no UTF-8 text. -/
  | unreadable (path : String)
  | inFile (path : String) (fault : SettingsFault)
  deriving DecidableEq, Repr

def SettingsFault.message : SettingsFault → String
  | invalid => "Invalid TOML"
  | noWorkers => "execution.max_workers must be at least 1"

def SettingsError.message : SettingsError → String
  | fault f => f.message
  | unreadable path => "Failed to read config file: " ++ path
  | inFile path f => "Failed to parse config file: " ++ path ++ ": " ++ f.message

namespace Settings

/-- The number of workers that a value stands for. It has 64 bits. -/
def workers? : Value → Option Nat
  | .integer n => if 0 ≤ n && n < Nat.pow 2 64 then some n.toNat else none
  | _ => none

def answer? : Value → Option Bool
  | .boolean b => some b
  | _ => none

/-- A setting that may be left out. -/
def orDefault {α : Type} (default : α) (read : Value → Option α) : Option Value → Option α
  | none => some default
  | some v => read v

def ofFields? (maxWorkers parallelProjects failFast : Option Value) : Option Settings := do
  return ⟨← orDefault default.maxWorkers (fun v => (workers? v).map some) maxWorkers,
    ← orDefault default.parallelProjects answer? parallelProjects,
    ← orDefault default.failFast answer? failFast⟩

/-- Settings from a value of `execution`. A date counts as a table without settings. -/
def ofValue? : Value → Option Settings
  | .table _ es =>
    ofFields? (es.lookup "max_workers") (es.lookup "parallel_projects") (es.lookup "fail_fast")
  | .array items => if items.length ≤ 3 then ofFields? items[0]? items[1]? items[2]? else none
  | .moment _ => some default
  | _ => none

def ofEntries? (es : Entries) : Option Settings :=
  match es.lookup "execution" with
  | none => some default
  | some v => ofValue? v

def ofText (text : String) : Except SettingsFault Settings :=
  match (Document.read? text).bind ofEntries? with
  | none => .error .invalid
  | some s => if s.maxWorkers = some 0 then .error .noWorkers else .ok s

inductive Source
  | missing
  | directory
  | file (bytes : ByteArray)

/-- Load settings from a path. A missing file says nothing. -/
def load (path : String) : Source → Except SettingsError Settings
  | .missing => .ok default
  | .directory => .error (.unreadable path)
  | .file bytes =>
    match String.fromUTF8? bytes with
    | none => .error (.unreadable path)
    | some text => (ofText text).mapError (.inFile path)

end Settings

end Foreman
