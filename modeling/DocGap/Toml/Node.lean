/-!
# TOML documents as trees

A table remembers how it came to be, since that decides what may still be added to it: a table of a
header is opened once, a table that deeper headers imply may be opened later, a table that dotted
keys have made grows by dotted keys only, and an inline table is complete.
-/
namespace DocGap.Toml

inductive Origin where
  | header | implied | dotted | inline
deriving DecidableEq, Repr

inductive Node where
  | text (value : String)
  | integer (value : Int)
  | boolean (value : Bool)
  /-- A number with a fraction, a date or a time. -/
  | other
  | array (items : List Node)
  | table (origin : Origin) (entries : List (String × Node))

abbrev Entries := List (String × Node)

namespace Entries

def get? (es : Entries) (key : String) : Option Node := (es.find? (·.1 = key)).map (·.2)

def set (es : Entries) (key : String) (node : Node) : Entries :=
  es.map fun e => if e.1 = key then (key, node) else e

/-- Adds a node under a dotted key. The tables on the way are new or have been made by
dotted keys. -/
def assign (node : Node) : List String → Entries → Option Entries
  | [], _ => none
  | [key], es => if (es.get? key).isSome then none else some (es ++ [(key, node)])
  | key :: more, es =>
    match es.get? key with
    | none => (assign node more []).map fun inner => es ++ [(key, .table .dotted inner)]
    | some (.table .dotted inner) =>
      (assign node more inner).map fun inner => es.set key (.table .dotted inner)
    | some _ => none

/-- Opens the table of a header. -/
def openTable : List String → Entries → Option Entries
  | [], _ => none
  | [key], es =>
    match es.get? key with
    | none => some (es ++ [(key, .table .header [])])
    | some (.table .implied inner) => some (es.set key (.table .header inner))
    | some _ => none
  | key :: more, es =>
    match es.get? key with
    | none => (openTable more []).map fun inner => es ++ [(key, .table .implied inner)]
    | some (.table origin inner) =>
      if origin = .inline then none
      else (openTable more inner).map fun inner => es.set key (.table origin inner)
    | some _ => none

def within (change : Entries → Option Entries) : List String → Entries → Option Entries
  | [], es => change es
  | key :: more, es =>
    match es.get? key with
    | some (.table origin inner) =>
      (within change more inner).map fun inner => es.set key (.table origin inner)
    | _ => none

end Entries

end DocGap.Toml
