/-!
# Added lines

The lines that a text has and an older one has not, when the older text has only been added to.
-/
namespace DocGap.LineDiff

def extend (c : Char) : List (List Char) → List (List Char)
  | [] => [[c]]
  | line :: rest => (c :: line) :: rest

/-- The lines of a text with their ends, which are a line feed, a carriage return, or both. -/
def lines : List Char → List (List Char)
  | [] => []
  | '\r' :: '\n' :: rest => ['\r', '\n'] :: lines rest
  | c :: rest => if c = '\n' ∨ c = '\r' then [c] :: lines rest else extend c (lines rest)

/-- Walks along the new lines and leaves out those that are the next old line. -/
def added {α : Type} [DecidableEq α] : List α → List α → List α
  | _, [] => []
  | [], rest => rest
  | old :: olds, new :: rest =>
    if new = old then added olds rest else new :: added (old :: olds) rest

def ended (line : List Char) : List Char :=
  match line.getLast? with
  | some '\n' | some '\r' => line
  | _ => line ++ ['\n']

def addedLines (old new : String) : List String :=
  (added (lines old.toList) (lines new.toList)).map fun line => String.ofList (ended line)

end DocGap.LineDiff
