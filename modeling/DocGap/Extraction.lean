import DocGap.NameList
import DocGap.Rule
import DocGap.Signature
import Std.Data.HashSet

/-!
# Outlining a text

The rules of a language are run one after the other. A finding is kept if its name is not refused,
satisfies the grammar of its kind, does not stand behind a comment leader on its line, and is the
first of its kind and name on its line. The lists of an outline are in the order of the text.
-/
namespace DocGap

namespace Rule

structure Candidate where
  name : List Char
  spot : Spot

def Candidate.ofItem (m : Pattern.Match) (item : NameList.Item) : Candidate :=
  ⟨item.name, m.spot.forward item.offset⟩

def candidates (rule : Rule) (m : Pattern.Match) : List Candidate :=
  match m.group with
  | none => []
  | some (first, last) =>
    let text := Text.takeBytes (last.offset - first.offset) first.rest
    match rule.capture with
    | .single => [⟨text, m.spot⟩]
    | .nameList => (NameList.names text first.offset).map (.ofItem m)
    | .quotedPaths => (NameList.quotedPaths text first.offset).map (.ofItem m)

end Rule

namespace Extraction

structure Finding where
  kind : Kind
  name : List Char
  spot : Spot

def sniffLength : Nat := 8000

def looksBinary (text : List Char) : Bool := (Text.takeBytes sniffLength text).contains '\x00'

/-- The first characters of the line that are not blank are a comment leader, and it ends
before the spot. -/
def standsInComment (language : Language) (s : Spot) : Bool :=
  let lead := s.line.text.takeWhile Text.isBlank
  let rest := s.line.text.dropWhile Text.isBlank
  language.commentLeaders.any fun leader =>
    leader.toList.isPrefixOf rest &&
      decide (Text.byteLength lead + Text.byteLength leader.toList ≤ s.column)

def admissible (language : Language) (rule : Rule) (c : Rule.Candidate) : Bool :=
  !rule.refused.contains (String.ofList c.name) && Grammar.accepts rule.kind c.name &&
    !standsInComment language c.spot

def ofRule (language : Language) (text : List Char) (rule : Rule) : List Finding :=
  ((rule.pattern.allMatches text).flatMap rule.candidates).filter (admissible language rule)
    |>.map fun c => ⟨rule.kind, c.name, c.spot⟩

/-- Findings that agree in line, kind and name are the same element. -/
structure Key where
  line : Nat
  kind : Kind
  name : List Char
deriving DecidableEq, Repr

instance : Hashable Key :=
  ⟨fun k => mixHash (hash k.line) (mixHash (hash k.kind) (hash (String.ofList k.name)))⟩

def Finding.key (f : Finding) : Key := ⟨f.spot.line.number, f.kind, f.name⟩

/-- Keeps the first of the findings that are the same element; `seen` holds the keys so far. -/
def keepFirst (seen : Std.HashSet Key) : List Finding → List Finding
  | [] => []
  | f :: fs =>
    if seen.contains f.key then keepFirst seen fs else f :: keepFirst (seen.insert f.key) fs

def findings (language : Language) (text : List Char) : List Finding :=
  keepFirst ∅ ((Rule.table language).flatMap (ofRule language text))

def signature? (language : Language) (f : Finding) : Option (List Char) :=
  match f.kind with
  | .function | .classType => Signature.ofTail language f.spot.rest
  | .importPath | .exportName => none

def indentOf (line : List Char) : List Char := line.takeWhile fun c => c = ' ' || c = '\t'

def toElement (language : Language) (f : Finding) : Element where
  name := String.ofList f.name
  kind := f.kind
  line := f.spot.line.number
  offset := f.spot.offset
  signature := (signature? language f).map String.ofList
  importPath := if f.kind = .importPath then some (String.ofList f.name) else none
  indent := String.ofList (indentOf f.spot.line.text)

def sortByOffset (elements : List Element) : List Element :=
  elements.mergeSort fun a b => a.offset ≤ b.offset

end Extraction

open Extraction in
/-- The outline of a text in a known language. Binary content declares nothing. -/
def Outline.ofSource (path : Path) (language : Language) (source : String) : Outline :=
  let text := source.toList
  if looksBinary text then .empty path (some language) source
  else
    let elements := (findings language text).map (toElement language)
    let ofKind (kind : Kind) := sortByOffset (elements.filter (·.kind = kind))
    ⟨path, some language, source, ofKind .function, ofKind .classType, ofKind .importPath,
     ofKind .exportName⟩

def Outline.ofText (path : Path) (source : String) : Outline :=
  match path.language? with
  | some language => .ofSource path language source
  | none => .empty path none source

end DocGap
