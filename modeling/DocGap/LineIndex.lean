/-!
# Line index

The byte offsets of the line feeds of a text, for finding the line of an offset by binary search.
Lines count from one.
-/
namespace DocGap

structure LineIndex where
  newlines : Array Nat
deriving DecidableEq, Repr

namespace LineIndex

def newlineOffsets (offset : Nat) : List Char → List Nat
  | [] => []
  | c :: cs =>
    if c = '\n' then offset :: newlineOffsets (offset + c.utf8Size) cs
    else newlineOffsets (offset + c.utf8Size) cs

def ofText (cs : List Char) : LineIndex := ⟨(newlineOffsets 0 cs).toArray⟩

/-- The first position in `low..high` whose entry is not below `bound`, for increasing entries. -/
def search (entries : Array Nat) (bound low high : Nat) : Nat :=
  if low < high then
    let middle := (low + high) / 2
    if entries.getD middle 0 < bound then search entries bound (middle + 1) high
    else search entries bound low middle
  else low
termination_by high - low

def preceding (index : LineIndex) (offset : Nat) : Nat :=
  search index.newlines offset 0 index.newlines.size

def lineOf (index : LineIndex) (offset : Nat) : Nat := 1 + index.preceding offset

def lineStart (index : LineIndex) (offset : Nat) : Nat :=
  match index.preceding offset with
  | 0 => 0
  | n + 1 => index.newlines.getD n 0 + 1

def lineCount (index : LineIndex) : Nat := index.newlines.size + 1

end LineIndex

end DocGap
