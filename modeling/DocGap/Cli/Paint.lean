/-!
# Colours

Pieces of output may be painted for a terminal.
-/
namespace DocGap

inductive Colour where
  | red | green | yellow | cyan | bold | dimmed
deriving DecidableEq, Repr

def Colour.code : Colour → Nat
  | red => 31
  | green => 32
  | yellow => 33
  | cyan => 36
  | bold => 1
  | dimmed => 2

namespace Paint

def reset : String := "\x1b[0m"

def start (c : Colour) : String := "\x1b[" ++ toString c.code ++ "m"

/-- Paints a text if `on`. Where the text itself ends all colours, the colour starts again. -/
def paint (on : Bool) (c : Colour) (text : String) : String :=
  if on then start c ++ (reset ++ start c).intercalate (text.splitOn reset) ++ reset else text

/-- Whether to paint, from three variables of the environment and whether a terminal listens. Force
wins over refusal. -/
def wanted (force refuse enable : Option String) (terminal : Bool) : Bool :=
  if force.any (· ≠ "0") then true
  else if refuse.isSome then false
  else enable.all (· ≠ "0") && terminal

end Paint

end DocGap
