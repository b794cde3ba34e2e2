import DocGap.Comment
import DocGap.Element

/-!
# Documentation gaps

A function or class is documented when the comments in a window of lines above it announce a
technical and a simple explanation. The two are looked for independently of each other.
-/
namespace DocGap

namespace Gap

def defaultWindow : Nat := 10

def technicalMarkers : List String :=
  ["technical explanation", "technical description", "technische erklärung"]

def simpleMarkers : List String :=
  ["simple explanation", "plain explanation", "einfache erklärung"]

/-- Lower case as far as markers can tell: they are made of the letters `a` to `z`, `ä` and blanks,
and these are the characters whose lower-case form is one of those letters. -/
def lowerCase (c : Char) : Char :=
  if c = 'Ä' then 'ä' else if c = '\u212A' then 'k' else c.toLower

/-- The lines strictly above line `line`, at most `window` of them. -/
def linesAbove {α : Type} (window line : Nat) (lines : Array α) : List α :=
  let stop := min (line - 1) lines.size
  (lines.extract (stop - window) stop).toList

structure Presence where
  technical : Bool
  simple : Bool
deriving DecidableEq, Repr

def announces (markers : List String) (comment : List Char) : Bool :=
  markers.any fun marker => Text.contains marker.toList comment

def commentsAbove (style : Comment.Style) (window line : Nat) (lines : Array (List Char)) :
    List (List Char) :=
  let above := linesAbove window line lines
  (Comment.runs style above).map fun run => (Text.joinLines (run.of above)).map lowerCase

def presence (style : Comment.Style) (window line : Nat) (lines : Array (List Char)) : Presence :=
  let comments := commentsAbove style window line lines
  ⟨comments.any (announces technicalMarkers), comments.any (announces simpleMarkers)⟩

end Gap

structure Gap where
  element : Element
  missingTechnical : Bool
  missingSimple : Bool
deriving DecidableEq, Repr

structure FileGaps where
  outline : Outline
  gaps : List Gap
deriving DecidableEq, Repr

namespace Gap

def ofElement? (style : Comment.Style) (window : Nat) (lines : Array (List Char)) (e : Element) :
    Option Gap :=
  let found := presence style window e.line lines
  if found.technical && found.simple then none else some ⟨e, !found.technical, !found.simple⟩

def missingCount (g : Gap) : Nat := g.missingTechnical.toNat + g.missingSimple.toNat

end Gap

namespace FileGaps

def ofOutline (window : Nat) (outline : Outline) : FileGaps :=
  let lines := (Text.splitLines outline.text.toList).toArray
  let style := Comment.Style.ofLanguage outline.language
  ⟨outline, outline.documentable.filterMap (Gap.ofElement? style window lines)⟩

def examined (f : FileGaps) : Nat := f.outline.documentable.length

def isEmpty (f : FileGaps) : Bool := f.gaps.isEmpty

def missingTechnical (f : FileGaps) : List Element :=
  (f.gaps.filter (·.missingTechnical)).map (·.element)

def missingSimple (f : FileGaps) : List Element :=
  (f.gaps.filter (·.missingSimple)).map (·.element)

/-- An element that lacks both explanations counts twice. -/
def missingCount (f : FileGaps) : Nat := f.gaps.foldl (fun n g => n + g.missingCount) 0

end FileGaps

end DocGap
