/-!
# Pieces of a text

A text is cut at every occurrence of one character, so that joining the pieces again gives it back.
A text may also be cut at the first occurrence of a marker.
-/
namespace DocGap.Text

/-- The pieces between the occurrences of `mark`; there is always at least one. -/
def pieces (mark : Char) : List Char → List (List Char)
  | [] => [[]]
  | c :: cs =>
    if c = mark then [] :: pieces mark cs
    else match pieces mark cs with
      | [] => [[c]]
      | piece :: rest => (c :: piece) :: rest

def joinWith (mark : Char) : List (List Char) → List Char
  | [] => []
  | [piece] => piece
  | piece :: rest => piece ++ mark :: joinWith mark rest

theorem pieces_ne_nil (mark : Char) (cs : List Char) : pieces mark cs ≠ [] := by
  cases cs with
  | nil => simp [pieces]
  | cons c cs =>
    simp only [pieces]
    split
    · simp
    · split <;> simp

theorem joinWith_pieces (mark : Char) (cs : List Char) : joinWith mark (pieces mark cs) = cs := by
  induction cs with
  | nil => rfl
  | cons c cs ih =>
    simp only [pieces]
    split
    · next h =>
      cases hp : pieces mark cs with
      | nil => exact absurd hp (pieces_ne_nil mark cs)
      | cons piece rest => rw [hp] at ih; simp [joinWith, ih, h]
    · cases hp : pieces mark cs with
      | nil => exact absurd hp (pieces_ne_nil mark cs)
      | cons piece rest =>
        rw [hp] at ih
        cases rest with
        | nil => simp_all [joinWith]
        | cons next rest => simp_all [joinWith]

def splitLines (cs : List Char) : List (List Char) := pieces '\n' cs

def joinLines (lines : List (List Char)) : List Char := joinWith '\n' lines

def dropReturn (line : List Char) : List Char :=
  match line.reverse with
  | '\r' :: rest => rest.reverse
  | _ => line

/-- The lines that a line feed ends, without their line ends, and what follows the last line feed if
it is not empty. A final piece keeps its carriage return, since no line feed follows it. -/
def bodyLines (cs : List Char) : List (List Char) :=
  close (splitLines cs)
where
  close : List (List Char) → List (List Char)
    | [] => []
    | [last] => if last.isEmpty then [] else [last]
    | line :: rest => dropReturn line :: close rest

def cutAt (mark : List Char) : List Char → Option (List Char × List Char)
  | [] => if mark.isEmpty then some ([], []) else none
  | c :: cs =>
    if mark.isPrefixOf (c :: cs) then some ([], (c :: cs).drop mark.length)
    else (cutAt mark cs).map fun (before, after) => (c :: before, after)

def contains (mark : List Char) (cs : List Char) : Bool := (cutAt mark cs).isSome

end DocGap.Text
