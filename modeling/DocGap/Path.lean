import DocGap.Language
import DocGap.Text.Pieces

/-!
# Paths

A path is what a user writes for a file. Two spellings name the same path when they have the same
components: repeated and trailing slashes and inner dots do not count.
-/
namespace DocGap

inductive Component where
  | root
  | here
  | parent
  | name (text : String)
deriving DecidableEq, Repr

namespace Component

def rank : Component → Nat
  | root => 0
  | here => 1
  | parent => 2
  | name _ => 3

def text : Component → String
  | root => "/"
  | here => "."
  | parent => ".."
  | name text => text

def ofPart? (part : String) : Option Component :=
  if part = "" ∨ part = "." then none
  else if part = ".." then some parent
  else some (name part)

/-- Names compare by their bytes, which for UTF-8 is by their characters. -/
def le (a b : Component) : Bool :=
  match a, b with
  | name a, name b => decide (a ≤ b)
  | a, b => decide (a.rank ≤ b.rank)

end Component

structure Path where
  spelling : String
deriving DecidableEq, Repr

namespace Path

def isRooted (p : Path) : Bool := p.spelling.toList.head? = some '/'

def parts (p : Path) : List String := (Text.pieces '/' p.spelling.toList).map String.ofList

/-- A dot counts only as the very first part of a path without a root. -/
def components (p : Path) : List Component :=
  let steps := p.parts.filterMap Component.ofPart?
  if p.isRooted then .root :: steps
  else if p.parts.head? = some "." then .here :: steps
  else steps

def same (a b : Path) : Bool := decide (a.components = b.components)

def endsWith (p tail : Path) : Bool := tail.components.isSuffixOf p.components

def le (a b : Path) : Bool := go a.components b.components
where
  go : List Component → List Component → Bool
    | [], _ => true
    | _ :: _, [] => false
    | x :: xs, y :: ys => if x = y then go xs ys else x.le y

def join (dir tail : Path) : Path :=
  if tail.isRooted then tail
  else if dir.spelling = "" ∨ dir.spelling.toList.getLast? = some '/' then
    ⟨dir.spelling ++ tail.spelling⟩
  else ⟨dir.spelling ++ "/" ++ tail.spelling⟩

/-- What follows the last dot of the last name. A name that only starts with a dot has
no extension. -/
def extension? (p : Path) : Option String :=
  match p.components.getLast? with
  | some (.name text) =>
    let back := text.toList.reverse
    match back.dropWhile (· ≠ '.') with
    | [] | [_] => none
    | _ => some (String.ofList (back.takeWhile (· ≠ '.')).reverse)
  | _ => none

def language? (p : Path) : Option Language := p.extension?.bind Language.ofExtension?

end Path

end DocGap
