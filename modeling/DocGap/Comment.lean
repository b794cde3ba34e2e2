import DocGap.Language
import DocGap.Text.Blank
import DocGap.Text.Pieces

/-!
# Comment blocks

How a documentation block is written, and which lines of a text are comments. A block has an opening
line, labelled sections with an empty comment line between them, and a closing line. Text from
outside is made safe first, so that it cannot end the block.
-/
namespace DocGap.Comment

inductive Style where
  /-- From `/*` to `*/`, over any number of lines. -/
  | block
  /-- Lines that start with `#`. -/
  | hash
deriving DecidableEq, Repr

namespace Style

def ofLanguage : Option Language → Style
  | some language => if language.usesHashComments then hash else block
  | none => block

def opening : Style → String
  | block => "/**"
  | hash => "#"

def continuation : Style → String
  | block => " *"
  | hash => "#"

def closing : Style → String
  | block => " */"
  | hash => "#"

end Style

def unifyLineEnds : List Char → List Char
  | '\r' :: '\n' :: cs => '\n' :: unifyLineEnds cs
  | '\r' :: cs => '\n' :: unifyLineEnds cs
  | c :: cs => c :: unifyLineEnds cs
  | [] => []

def breakClosers : List Char → List Char
  | '*' :: '/' :: cs => '*' :: ' ' :: '/' :: breakClosers cs
  | c :: cs => c :: breakClosers cs
  | [] => []

def sanitize (style : Style) (text : List Char) : List Char :=
  match style with
  | .block => breakClosers (unifyLineEnds text)
  | .hash => unifyLineEnds text

structure Section where
  label : String
  body : String
deriving DecidableEq, Repr

/-- A comment line with that text; an empty one has no blank at its end. -/
def bodyLine (style : Style) (indent text : List Char) : List Char :=
  if text.isEmpty then indent ++ style.continuation.toList
  else indent ++ style.continuation.toList ++ ' ' :: text

def sectionLines (style : Style) (indent : List Char) (s : Section) : List (List Char) :=
  (indent ++ style.continuation.toList ++ ' ' :: s.label.toList ++ [':']) ::
    (Text.bodyLines (Text.trim (sanitize style s.body.toList))).map fun line =>
      bodyLine style indent (Text.trimEnd line)

def bodyLines (style : Style) (indent : List Char) : List Section → List (List Char)
  | [] => []
  | [s] => sectionLines style indent s
  | s :: rest =>
    sectionLines style indent s ++ bodyLine style indent [] :: bodyLines style indent rest

def blockLines (style : Style) (indent : List Char) (sections : List Section) : List (List Char) :=
  (indent ++ style.opening.toList) :: bodyLines style indent sections ++
    [indent ++ style.closing.toList]

def render (style : Style) (indent : String) (sections : List Section) : String :=
  String.ofList (Text.joinLines (blockLines style indent.toList sections))

/-- Reads a line for `/*` and `*/`, starting inside a comment or not. The result says whether a
comment opens within the line and whether one is open at its end. -/
def scanLine : Bool → List Char → Bool × Bool
  | inside, [] => (false, inside)
  | false, '/' :: '*' :: cs => (true, (scanLine true cs).2)
  | true, '*' :: '/' :: cs => scanLine false cs
  | inside, _ :: cs => scanLine inside cs

def looksLikeBlock (line : List Char) : Bool :=
  match Text.trimStart line with
  | '/' :: '*' :: _ => true
  | '*' :: _ => true
  | _ => false

def blockFlags (inside : Bool) : List (List Char) → List Bool
  | [] => []
  | line :: rest =>
    let (opens, after) := scanLine inside line
    (inside || looksLikeBlock line || opens) :: blockFlags after rest

def isHashLine (line : List Char) : Bool := (Text.trimStart line).head? = some '#'

def flags (style : Style) (lines : List (List Char)) : List Bool :=
  match style with
  | .block => blockFlags false lines
  | .hash => lines.map isHashLine

/-- The lines `start ≤ i < stop`. -/
structure Run where
  start : Nat
  stop : Nat
deriving DecidableEq, Repr

/-- The maximal stretches of set flags, the first flag having number `i`; `since` is the start of a
stretch that is still open. -/
def runsFrom (i : Nat) (since : Option Nat) : List Bool → List Run
  | [] => match since with
    | none => []
    | some start => [⟨start, i⟩]
  | true :: rest => runsFrom (i + 1) (some (since.getD i)) rest
  | false :: rest => match since with
    | none => runsFrom (i + 1) none rest
    | some start => ⟨start, i⟩ :: runsFrom (i + 1) none rest

def runs (style : Style) (lines : List (List Char)) : List Run :=
  runsFrom 0 none (flags style lines)

def Run.of {α : Type} (r : Run) (lines : List α) : List α := (lines.take r.stop).drop r.start

end DocGap.Comment
