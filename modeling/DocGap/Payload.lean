import DocGap.Path

/-!
# Payloads

A payload holds explanations written elsewhere. An answer is for an element of a file; it may name
the line of the element, and its file may be written as the last part of the path.
-/
namespace DocGap

structure Explanation where
  technical : String
  simple : String
deriving DecidableEq, Repr

structure Answer where
  file : Path
  name : String
  line : Option Nat
  text : Explanation
deriving DecidableEq, Repr

structure Payload where
  answers : List Answer
deriving DecidableEq, Repr

namespace Payload

def empty : Payload := ⟨[]⟩

def isEmpty (p : Payload) : Bool := p.answers.isEmpty

def sameFile (actual named : Path) : Bool :=
  actual.same named || (named.spelling != "" && actual.endsWith named)

def candidates (p : Payload) (file : Path) (name : String) : List Answer :=
  p.answers.filter fun a => a.name = name && sameFile file a.file

/-- The first answer for the very line, else the first one for the name. -/
def find? (p : Payload) (file : Path) (name : String) (line : Nat) : Option Explanation :=
  let found := p.candidates file name
  ((found.find? (·.line = some line)).or found.head?).map (·.text)

end Payload

end DocGap
