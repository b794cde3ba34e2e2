import DocGap.Gap
import DocGap.Payload

/-!
# Writing documentation blocks

The block for an element has a technical and a simple section. Their texts come from a payload, or
from a template where the payload has none. A block goes above the line before its element.
-/
namespace DocGap

inductive Locale where
  | english | german
deriving DecidableEq, Repr

namespace Locale

def tag : Locale → String
  | english => "en"
  | german => "de"

def ofTag? : String → Option Locale
  | "en" => some english
  | "de" => some german
  | _ => none

def technicalLabel : Locale → String
  | english => "Technical Explanation"
  | german => "Technische Erklärung"

def simpleLabel : Locale → String
  | english => "Simple Explanation"
  | german => "Einfache Erklärung"

end Locale

structure Target where
  name : String
  kind : Kind
  line : Nat
deriving DecidableEq, Repr, Hashable

/-- A block to be put in front of line `insertionLine`. -/
structure Insertion where
  target : Target
  insertionLine : Nat
  content : String
deriving DecidableEq, Repr

def Element.target (e : Element) : Target := ⟨e.name, e.kind, e.line⟩

/-- The line in front of which the block of an element on line `line` goes. -/
def insertionLineFor (line : Nat) : Nat := max (line - 1) 1

namespace Synthesis

structure Options where
  functionsOnly : Bool
  locale : Locale
deriving DecidableEq, Repr

def collapse (text : String) : String :=
  String.ofList (Text.joinWith ' ' (Text.words text.toList))

def withSignature (sentence label : String) (signature : Option String) : String :=
  match signature with
  | none => sentence
  | some text =>
    let collapsed := collapse text
    if collapsed = "" then sentence else sentence ++ "\n" ++ label ++ ": " ++ collapsed

def template (locale : Locale) (e : Element) : Explanation :=
  match e.kind, locale with
  | .classType, .english =>
    ⟨"The class '" ++ e.name ++ "' encapsulates related data and behavior.\n" ++
      "It implements specific logic behind a defined interface.",
     "This class is like a blueprint: it describes how something is built and how it works."⟩
  | .classType, .german =>
    ⟨"Die Klasse '" ++ e.name ++ "' kapselt zusammengehörige Daten und Methoden.\n" ++
      "Sie implementiert spezifische Geschäftslogik und bietet eine definierte Schnittstelle.",
     "Diese Klasse ist wie ein Bauplan: sie beschreibt, wie etwas aufgebaut ist und funktioniert."⟩
  | _, .english =>
    ⟨withSignature ("The function '" ++ e.name ++ "' performs a specific operation.") "Signature"
      e.signature,
     "This function is like a tool: it takes something in and gives something back."⟩
  | _, .german =>
    ⟨withSignature
      ("Die Funktion '" ++ e.name ++ "' führt eine spezifische Operation aus.") "Signatur"
      e.signature,
     "Diese Funktion ist wie ein Werkzeug: sie nimmt etwas entgegen und gibt etwas zurück."⟩

def isBlankText (text : String) : Bool := text.toList.all Text.isBlank

def pick (given : Option String) (fallback : String) : String :=
  match given with
  | some text => if isBlankText text then fallback else text
  | none => fallback

def explanation (locale : Locale) (e : Element) (given : Option Explanation) : Explanation :=
  let standard := template locale e
  ⟨pick (given.map (·.technical)) standard.technical, pick (given.map (·.simple)) standard.simple⟩

def sections (locale : Locale) (text : Explanation) : List Comment.Section :=
  [⟨locale.technicalLabel, text.technical⟩, ⟨locale.simpleLabel, text.simple⟩]

def covers (options : Options) : Kind → Bool
  | .function => true
  | .classType => !options.functionsOnly
  | .importPath | .exportName => false

def content (options : Options) (style : Comment.Style) (e : Element) (given : Option Explanation) :
    String :=
  Comment.render style e.indent (sections options.locale (explanation options.locale e given))

def insertion? (options : Options) (outline : Outline) (e : Element) (given : Option Explanation) :
    Option Insertion :=
  if covers options e.kind then
    some ⟨e.target, insertionLineFor e.line, content options (.ofLanguage outline.language) e given⟩
  else none

def insertions (options : Options) (payload : Payload) (file : FileGaps) : List Insertion :=
  file.gaps.filterMap fun g =>
    insertion? options file.outline g.element
      (payload.find? file.outline.path g.element.name g.element.line)

end Synthesis

end DocGap
