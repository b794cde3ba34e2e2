import DocGap.Element
import DocGap.Text.Blank
import DocGap.Text.Offset

/-!
# What an element may be called

Rules capture generously; the grammar of a kind decides which captures are names. Lengths are in
bytes.
-/
namespace DocGap.Grammar

def maxIdentifierLength : Nat := 64

def maxImportLength : Nat := 256

def isIdentifierStart (c : Char) : Bool := c.isAlpha || c = '_' || c = '$'

def isIdentifierPart (c : Char) : Bool := c.isAlphanum || c = '_' || c = '$'

def isIdentifier : List Char → Bool
  | [] => false
  | c :: cs =>
    isIdentifierStart c && Text.byteLength (c :: cs) ≤
      maxIdentifierLength && cs.all isIdentifierPart

def isClassName (name : List Char) : Bool :=
  (match name with
    | [] => false
    | c :: _ => c.isUpper) && isIdentifier name

def isForbidden (c : Char) : Bool :=
  Text.isControl c || Text.isBlank c || ['"', '\'', '\x60', '<', '>', '|', ';'].contains c

def isImportPath (path : List Char) : Bool :=
  !path.isEmpty && Text.byteLength path ≤ maxImportLength && !path.any isForbidden

def accepts : Kind → List Char → Bool
  | .function, name => isIdentifier name
  | .exportName, name => isIdentifier name
  | .classType, name => isClassName name
  | .importPath, name => isImportPath name

end DocGap.Grammar
