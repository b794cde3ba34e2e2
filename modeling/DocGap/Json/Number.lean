/-!
# JSON numbers

A number keeps at most 64 bits of its digits and a power of ten. It is out of range when its value,
rounded to 53 significant bits, is not below the bound for binary double precision.
-/
namespace DocGap.Json

def maxWord : Nat := Nat.pow 2 64 - 1

def digitValue (c : Char) : Nat := c.toNat - 48

/-- Takes in digits as long as the value fits 64 bits; the rest of them are handed back. -/
def absorb (value : Nat) : List Char → Nat × List Char
  | [] => (value, [])
  | c :: cs =>
    let next := value * 10 + digitValue c
    if maxWord < next then (value, c :: cs) else absorb next cs

/-- Rounds to a multiple of the last of 53 significant bits, a half to the even neighbour. -/
def roundToDouble (n : Nat) : Nat :=
  let unit := Nat.pow 2 (n.log2 + 1 - 53)
  let below := n / unit
  let rest := n % unit
  if unit < 2 * rest ∨ (unit = 2 * rest ∧ below % 2 = 1) then (below + 1) * unit else below * unit

def infinityBound : Nat := Nat.pow 2 1024 - Nat.pow 2 970

def maxPower : Nat := 308

/-- `value * 10 ^ power` is too large. -/
def overflows (value : Nat) (power : Int) : Bool :=
  value ≠ 0 && 0 ≤ power &&
    ((maxPower : Int) < power ||
      infinityBound ≤ roundToDouble value * roundToDouble (Nat.pow 10 power.toNat))

def maxExponent : Nat := Nat.pow 2 31 - 1

def exceedsMaxExponent (digits : List Char) : Bool :=
  10 < digits.length || maxExponent < digits.foldl (fun n c => n * 10 + digitValue c) 0

structure Parts where
  negative : Bool
  whole : List Char
  fraction : Option (List Char)
  exponent : Option (Bool × List Char)
deriving DecidableEq, Repr

namespace Parts

/-- The digits that fit 64 bits, and the power of ten that stands for the others. -/
def significand (p : Parts) : Nat × Int :=
  let (value, left) := absorb 0 p.whole
  match p.fraction with
  | none => (value, left.length)
  | some digits =>
    let (value, ignored) := absorb value digits
    (value, left.length - (digits.length - ignored.length : Nat))

def outOfRange (p : Parts) : Bool :=
  let (value, power) := p.significand
  match p.exponent with
  | none => overflows value power
  | some (negative, digits) =>
    let digits := digits.dropWhile (· = '0')
    if exceedsMaxExponent digits then value ≠ 0 && !negative
    else
      let exponent := digits.foldl (fun n c => n * 10 + digitValue c) 0
      overflows value (if negative then power - exponent else power + exponent)

def natural? (p : Parts) : Option Nat :=
  if p.negative || p.fraction.isSome || p.exponent.isSome then none
  else match absorb 0 p.whole with
    | (value, []) => some value
    | _ => none

end Parts

end DocGap.Json
