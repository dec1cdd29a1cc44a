import Foreman.Toml.Value

/-!
# Building tables

Headers and dotted keys add to tables that may exist already. Nothing is defined twice: a table
that was written in one way is never completed in another, except that a header may complete a
table that headers further inside have passed through.
-/

namespace Foreman.Toml.Entries

def get? (es : Entries) (key : String) : Option Value := es.lookup key

def put (key : String) (v : Value) : Entries → Entries
  | [] => [(key, v)]
  | (k, old) :: es => if k = key then (key, v) :: es else (k, old) :: put key v es

/-- Enter a value under a dotted key. The tables on the way are those of dotted keys, or new; the
key itself is new. -/
def define (v : Value) : List String → Entries → Option Entries
  | [], _ => none
  | [key], es => if (es.get? key).isSome then none else some (es.put key v)
  | key :: rest, es =>
    match es.get? key with
    | none => (define v rest []).map fun t => es.put key (.table .dotted t)
    | some (.table .dotted t) => (define v rest t).map fun t => es.put key (.table .dotted t)
    | some (.table .passing t) =>
      if rest.length = 1 then none
      else (define v rest t).map fun t => es.put key (.table .passing t)
    | some _ => none

/-- Change what stands at the end of a path of headers: through tables, which are made where there
are none, and the last elements of arrays of tables. -/
def change (f : Option Value → Option Value) : List String → Entries → Option Entries
  | [], _ => none
  | [key], es => (f (es.get? key)).map fun v => es.put key v
  | key :: rest, es =>
    match es.get? key with
    | none => (change f rest []).map fun t => es.put key (.table .passing t)
    | some (.table .inline _) => none
    | some (.table origin t) => (change f rest t).map fun t => es.put key (.table origin t)
    | some (.tables elements) =>
      match elements.getLast? with
      | none => none
      | some last =>
        (change f rest last).map fun t => es.put key (.tables (elements.dropLast ++ [t]))
    | some _ => none

def openTable : List String → Entries → Option Entries :=
  change fun
    | none => some (.table .header [])
    | some (.table .passing t) => some (.table .header t)
    | some _ => none

def openElement : List String → Entries → Option Entries :=
  change fun
    | none => some (.tables [[]])
    | some (.tables elements) => some (.tables (elements ++ [[]]))
    | some _ => none

def defineAt (path key : List String) (v : Value) (es : Entries) : Option Entries :=
  if path = [] then define v key es
  else
    es.change (fun
      | some (.table .header t) => (define v key t).map (.table .header)
      | some (.tables elements) =>
        match elements.getLast? with
        | none => none
        | some last => (define v key last).map fun t => .tables (elements.dropLast ++ [t])
      | _ => none) path

end Foreman.Toml.Entries
