/-!
# Repeated ticks

A ticker ticks at once and then after every interval until it is stopped. A tick may stop it. Once
stopped it does not tick again.
-/
namespace DocGap

structure Ticker where
  stopped : Bool
deriving DecidableEq, Repr

namespace Ticker

/-- The numbers of the ticks from `n` on, when the first tick with a number of at least
`limit` stops. -/
def ticksFrom (limit n : Nat) : List Nat :=
  if n < limit then n :: ticksFrom limit (n + 1) else [n]
termination_by limit - n

def run (limit : Nat) (t : Ticker) : List Nat × Ticker :=
  if t.stopped then ([], t) else (ticksFrom limit 1, ⟨true⟩)

end Ticker

end DocGap
