import DocGap.Path

/-!
# Elements and outlines

An outline lists what a text declares, in four lists by kind. All positions refer to the text that
the outline holds.
-/
namespace DocGap

inductive Kind where
  | function | classType | importPath | exportName
deriving DecidableEq, Repr, Hashable

namespace Kind

def all : List Kind := [function, classType, importPath, exportName]

def tag : Kind → String
  | function => "function"
  | classType => "class"
  | importPath => "import"
  | exportName => "export"

def ofTag? (tag : String) : Option Kind := all.find? (·.tag = tag)

end Kind

structure Element where
  name : String
  kind : Kind
  line : Nat
  offset : Nat
  signature : Option String
  importPath : Option String
  indent : String
deriving DecidableEq, Repr

structure Outline where
  path : Path
  language : Option Language
  text : String
  functions : List Element
  classes : List Element
  imports : List Element
  exports : List Element
deriving DecidableEq, Repr

namespace Outline

def empty (path : Path) (language : Option Language) (text : String) : Outline :=
  ⟨path, language, text, [], [], [], []⟩

def elements (o : Outline) : Kind → List Element
  | .function => o.functions
  | .classType => o.classes
  | .importPath => o.imports
  | .exportName => o.exports

def everything (o : Outline) : List Element := o.functions ++ o.classes ++ o.imports ++ o.exports

def size (o : Outline) : Nat := o.everything.length

def isEmpty (o : Outline) : Bool := o.everything.isEmpty

def documentable (o : Outline) : List Element := o.functions ++ o.classes

end Outline

end DocGap
