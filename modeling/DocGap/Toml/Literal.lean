import DocGap.Json.Number
import DocGap.Toml.Node

/-!
# TOML values without quotes

Truth values, numbers, dates and times. Digits may be grouped by single underscores. Integers have
64 bits.
-/
namespace DocGap.Toml

def ungroup (isDigit : Char → Bool) : List Char → Option (List Char)
  | [] => none
  | [c] => if isDigit c then some [c] else none
  | c :: '_' :: cs => if isDigit c then (ungroup isDigit cs).map (c :: ·) else none
  | c :: cs => if isDigit c then (ungroup isDigit cs).map (c :: ·) else none

def hexValue (c : Char) : Nat :=
  if c.isDigit then c.toNat - 48 else if c.isLower then c.toNat - 87 else c.toNat - 55

def isHexDigit (c : Char) : Bool :=
  c.isDigit || ('a' ≤ c && c ≤ 'f') || ('A' ≤ c && c ≤ 'F')

def isDigitBelow (base : Nat) (c : Char) : Bool := isHexDigit c && hexValue c < base

def significant (digits : List Char) : List Char := digits.dropWhile (· = '0')

/-- The value of grouped digits in a base. More than 64 digits are refused, since no
integer has them. -/
def digitsIn? (base : Nat) (cs : List Char) : Option Nat :=
  match (ungroup (isDigitBelow base) cs).map significant with
  | none => none
  | some ds => if 64 < ds.length then none else some (ds.foldl (fun n c => n * base + hexValue c) 0)

def plainDigits? (cs : List Char) : Option (List Char) :=
  match ungroup Char.isDigit cs with
  | some ('0' :: _ :: _) => none
  | found => found

def splitSign : List Char → Bool × List Char
  | '+' :: cs => (false, cs)
  | '-' :: cs => (true, cs)
  | cs => (false, cs)

def valueOf (digits : List Char) : Nat := digits.foldl (fun n c => n * 10 + hexValue c) 0

def fitsWord (n : Int) : Bool := -(Nat.pow 2 63 : Int) ≤ n && n < Nat.pow 2 63

def unsigned? : List Char → Option Int
  | '0' :: 'x' :: cs => (digitsIn? 16 cs).map Int.ofNat
  | '0' :: 'o' :: cs => (digitsIn? 8 cs).map Int.ofNat
  | '0' :: 'b' :: cs => (digitsIn? 2 cs).map Int.ofNat
  | _ => none

def signed? (cs : List Char) : Option Int :=
  let (negative, cs) := splitSign cs
  match plainDigits? cs with
  | none => none
  | some ds =>
    if 19 < ds.length then none
    else if negative then some (-(valueOf ds : Int))
    else some (valueOf ds)

def integer? (cs : List Char) : Option Int :=
  ((unsigned? cs).or (signed? cs)).filter fitsWord

def isExponentMark (c : Char) : Bool := c = 'e' || c = 'E'

def boundLength : Nat := 309

/-- The digits `mantissa`, of which `places` stand behind the point, times ten to the exponent, do
not fit double precision. Only as many digits as the bound has can decide. -/
def tooLarge (mantissa : List Char) (places : Nat) (exponent : Int) : Bool :=
  let digits := significant mantissa
  let length : Int := digits.length + exponent - places
  if digits.isEmpty || length < boundLength then false
  else if boundLength < length then true
  else
    Json.infinityBound ≤ valueOf ((digits ++ List.replicate boundLength '0').take boundLength)

/-- An exponent of this size outweighs the digits of any text. -/
def hugeExponent : Nat := Nat.pow 10 20

def exponentValue (digits : List Char) : Nat :=
  let digits := significant digits
  if 20 < digits.length then hugeExponent else valueOf digits

def exponent? (cs : List Char) : Option Int :=
  let (negative, ds) := splitSign cs
  (ungroup Char.isDigit ds).map fun ds =>
    if negative then -(exponentValue ds : Int) else exponentValue ds

def isDecimal (cs : List Char) : Bool :=
  let mantissa := cs.takeWhile (!isExponentMark ·)
  let scale := (cs.dropWhile (!isExponentMark ·)).drop 1
  let hasScale := mantissa.length < cs.length
  let front := mantissa.takeWhile (· ≠ '.')
  let back := (mantissa.dropWhile (· ≠ '.')).drop 1
  let hasPoint := front.length < mantissa.length
  match plainDigits? front, if hasPoint then ungroup Char.isDigit back else some [],
      if hasScale then exponent? scale else some 0 with
  | some front, some back, some scale =>
    (hasPoint || hasScale) && !tooLarge (front ++ back) back.length scale
  | _, _, _ => false

def isFloat (cs : List Char) : Bool :=
  let cs := (splitSign cs).2
  cs = "inf".toList || cs = "nan".toList || isDecimal cs

def twoDigits? : List Char → Option (Nat × List Char)
  | a :: b :: cs => if a.isDigit && b.isDigit then some (hexValue a * 10 + hexValue b, cs) else none
  | _ => none

def isLeapYear (year : Nat) : Bool := (year % 4 = 0 && year % 100 ≠ 0) || year % 400 = 0

def daysIn (year month : Nat) : Nat :=
  if month = 2 then if isLeapYear year then 29 else 28
  else if month = 4 ∨ month = 6 ∨ month = 9 ∨ month = 11 then 30
  else 31

def afterDate? (cs : List Char) : Option (List Char) := do
  let (century, cs) ← twoDigits? cs
  let (year, cs) ← twoDigits? cs
  let cs ← if cs.head? = some '-' then twoDigits? (cs.drop 1) else none
  let (month, cs) := cs
  let cs ← if cs.head? = some '-' then twoDigits? (cs.drop 1) else none
  let (day, cs) := cs
  if 1 ≤ month ∧ month ≤ 12 ∧ 1 ≤ day ∧
    day ≤ daysIn (century * 100 + year) month then some cs else none

def clock? (cs : List Char) : Option (List Char) := do
  let (hour, cs) ← twoDigits? cs
  let (minute, cs) ← if cs.head? = some ':' then twoDigits? (cs.drop 1) else none
  if hour ≤ 23 ∧ minute ≤ 59 then some cs else none

def afterTime? (cs : List Char) : Option (List Char) := do
  let cs ← clock? cs
  if cs.head? ≠ some ':' then some cs
  else
    let (second, cs) ← twoDigits? (cs.drop 1)
    if 60 < second then none
    else if cs.head? ≠ some '.' then some cs
    else
      let cs := cs.drop 1
      if (cs.head?.any Char.isDigit) then some (cs.dropWhile Char.isDigit) else none

def isOffset : List Char → Bool
  | ['Z'] => true
  | ['z'] => true
  | '+' :: cs => clock? cs = some []
  | '-' :: cs => clock? cs = some []
  | _ => false

/-- A date, a time, or both with an optional offset. -/
def isDateTime (cs : List Char) : Bool :=
  match afterDate? cs with
  | none => afterTime? cs = some []
  | some [] => true
  | some (c :: rest) =>
    (c = 'T' || c = 't' || c = ' ') &&
      match afterTime? rest with
      | none => false
      | some [] => true
      | some rest => isOffset rest

def bare? (cs : List Char) : Option Node :=
  if cs = "true".toList then some (.boolean true)
  else if cs = "false".toList then some (.boolean false)
  else match integer? cs with
    | some n => some (.integer n)
    | none => if isFloat cs || isDateTime cs then some .other else none

end DocGap.Toml
