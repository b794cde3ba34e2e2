/-!
# Spots

A spot is a place in a text that knows its line. Walking forward keeps that knowledge, so that
nothing has to be looked up from the start of the text.
-/
namespace DocGap

/-- A line: its number, counted from one, the offset at which it starts, and the text
from there on. -/
structure Line where
  number : Nat
  offset : Nat
  text : List Char
deriving DecidableEq, Repr

namespace Line

def first (text : List Char) : Line := ⟨1, 0, text⟩

def after (line : Line) (c : Char) (offset : Nat) (rest : List Char) : Line :=
  if c = '\n' then ⟨line.number + 1, offset, rest⟩ else line

end Line

structure Spot where
  line : Line
  offset : Nat
  rest : List Char
deriving DecidableEq, Repr

namespace Spot

def start (text : List Char) : Spot := ⟨.first text, 0, text⟩

/-- The first spot that is not before `target`, coming from a line and an offset in it. -/
def walk (target : Nat) (line : Line) (offset : Nat) : List Char → Spot
  | [] => ⟨line, offset, []⟩
  | c :: cs =>
    if target ≤ offset then ⟨line, offset, c :: cs⟩
    else walk target (line.after c (offset + c.utf8Size) cs) (offset + c.utf8Size) cs

def forward (s : Spot) (target : Nat) : Spot := walk target s.line s.offset s.rest

def column (s : Spot) : Nat := s.offset - s.line.offset

end Spot

end DocGap
