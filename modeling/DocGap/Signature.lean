import DocGap.Language
import DocGap.Text.Blank
import DocGap.Text.Offset

/-!
# Signatures

The signature of an element is the text from its start up to where its body opens: a brace, a colon
outside brackets, or the end of the line outside brackets. Quoted and escaped characters open
nothing. The search ends after `scanLimit` bytes.
-/
namespace DocGap.Signature

def scanLimit : Nat := 1024

inductive Opener where
  | brace | colon | lineEnd
deriving DecidableEq, Repr

def opener : Language → Opener
  | .python => .colon
  | .ruby => .lineEnd
  | _ => .brace

/-- A single quote starts no literal where it marks lifetimes; a backquote does only in a
few languages. -/
def isQuote (language : Language) (c : Char) : Bool :=
  match c with
  | '"' => true
  | '\'' => language ≠ .rust
  | '\x60' => language = .javascript ∨ language = .typescript ∨ language = .go
  | _ => false

structure Scan where
  quote : Option Char
  escaped : Bool
  depth : Nat
deriving DecidableEq, Repr

def Scan.start : Scan := ⟨none, false, 0⟩

def isBracketOpen (c : Char) : Bool := c = '(' || c = '[' || c = '{'

def isBracketClose (c : Char) : Bool := c = ')' || c = ']' || c = '}'

/-- A character that is neither quoted nor escaped. Nothing is returned where the body opens. -/
def Scan.plain (opener : Opener) (s : Scan) (c : Char) : Option Scan :=
  match opener with
  | .brace => if c = '{' then none else some s
  | .colon =>
    if isBracketOpen c then some { s with depth := s.depth + 1 }
    else if isBracketClose c then some { s with depth := s.depth - 1 }
    else if c = ':' ∧ s.depth = 0 then none
    else some s
  | .lineEnd =>
    if isBracketOpen c then some { s with depth := s.depth + 1 }
    else if isBracketClose c then some { s with depth := s.depth - 1 }
    else if (c = '\n' ∨ c = ';') ∧ s.depth = 0 then none
    else some s

/-- A literal that is not closed ends with its line, unless a backquote opened it. -/
def Scan.step (language : Language) (s : Scan) (c : Char) : Option Scan :=
  if s.escaped then some { s with escaped := false }
  else if c = '\\' then some { s with escaped := true }
  else match s.quote with
    | some mark =>
      if c = mark ∨ (c = '\n' ∧ mark ≠ '\x60') then some { s with quote := none } else some s
    | none =>
      if isQuote language c then some { s with quote := some c }
      else s.plain (opener language) c

def untilOpener (language : Language) (s : Scan) (offset : Nat) : List Char → List Char
  | [] => []
  | c :: cs =>
    if scanLimit ≤ offset then []
    else match s.step language c with
      | none => []
      | some next => c :: untilOpener language next (offset + c.utf8Size) cs

def ofTail (language : Language) (tail : List Char) : Option (List Char) :=
  let found := Text.trim (untilOpener language .start 0 tail)
  if found.isEmpty then none else some found

def startingAt (language : Language) (text : List Char) (start : Nat) : Option (List Char) :=
  (Text.dropBytes start text).bind (ofTail language)

end DocGap.Signature
