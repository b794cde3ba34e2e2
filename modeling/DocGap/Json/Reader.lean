import DocGap.Json.Number
import DocGap.Text.Offset

/-!
# Reading JSON

Readers take a value from the front of a text. The first fault from left to right ends the reading.
A value is either taken in, or only passed over: passing over asks less of a text, since escapes
need not form characters, numbers may be of any size and nesting may go to any depth.
-/
namespace DocGap.Json

inductive Fault where
  | ended
  | malformed
  /-- The text goes on as JSON, but not with the shape that is asked for. -/
  | shape
deriving DecidableEq, Repr

inductive Mode where
  | take | pass
deriving DecidableEq, Repr

abbrev Read (α : Type) := Except Fault (α × List Char)

def isBlank (c : Char) : Bool := c = ' ' || c = '\n' || c = '\t' || c = '\r'

def skipBlanks (cs : List Char) : List Char := cs.dropWhile isBlank

def hexValue? (c : Char) : Option Nat :=
  if c.isDigit then some (c.toNat - 48)
  else if 'a' ≤ c ∧ c ≤ 'f' then some (c.toNat - 87)
  else if 'A' ≤ c ∧ c ≤ 'F' then some (c.toNat - 55)
  else none

def unit? (a b c d : Char) : Option Nat := do
  pure (((← hexValue? a) * 16 + (← hexValue? b)) * 256 + (← hexValue? c) * 16 + (← hexValue? d))

def simpleEscape? : Char → Option Char
  | '"' => some '"'
  | '\\' => some '\\'
  | '/' => some '/'
  | 'b' => some '\x08'
  | 'f' => some '\x0c'
  | 'n' => some '\n'
  | 'r' => some '\r'
  | 't' => some '\t'
  | _ => none

def isLeading (n : Nat) : Bool := 0xD800 ≤ n && n ≤ 0xDBFF

def isTrailing (n : Nat) : Bool := 0xDC00 ≤ n && n ≤ 0xDFFF

def unitFault (rest : List Char) : Fault := if Text.byteLength rest < 4 then .ended else .malformed

def prepend (c : Char) (r : Read (List Char)) : Read (List Char) :=
  r.map fun (text, rest) => (c :: text, rest)

/-- The text up to the closing quote. Two units that form a pair are one character; a unit of a pair
that stands alone is malformed, unless the text is only passed over. -/
def string (mode : Mode) : List Char → Read (List Char)
  | [] => .error .ended
  | '"' :: cs => .ok ([], cs)
  | '\\' :: 'u' :: a :: b :: c :: d :: cs =>
    match unit? a b c d with
    | none => .error .malformed
    | some n =>
      if mode = .pass then prepend (Char.ofNat n) (string mode cs)
      else if isTrailing n then .error .malformed
      else if isLeading n then
        match cs with
        | '\\' :: 'u' :: e :: f :: g :: h :: cs =>
          match unit? e f g h with
          | none => .error .malformed
          | some m =>
            if isTrailing m then
              prepend (Char.ofNat ((n - 0xD800) * 0x400 + (m - 0xDC00) + 0x10000)) (string mode cs)
            else .error .malformed
        | '\\' :: 'u' :: rest => .error (unitFault rest)
        | [] | ['\\'] => .error .ended
        | _ => .error .malformed
      else prepend (Char.ofNat n) (string mode cs)
  | '\\' :: 'u' :: rest => .error (unitFault rest)
  | '\\' :: [] => .error .ended
  | '\\' :: c :: cs =>
    match simpleEscape? c with
    | none => .error .malformed
    | some e => prepend e (string mode cs)
  | c :: cs => if c.toNat < 0x20 then .error .malformed else prepend c (string mode cs)

def digitFault (mode : Mode) (rest : List Char) : Fault :=
  if mode = .take && rest.isEmpty then .ended else .malformed

def digits (mode : Mode) (cs : List Char) : Read (List Char) :=
  match cs.takeWhile Char.isDigit with
  | [] => .error (digitFault mode cs)
  | found => .ok (found, cs.dropWhile Char.isDigit)

def whole (mode : Mode) (cs : List Char) : Read (List Char) :=
  match digits mode cs with
  | .ok ('0' :: _ :: _, _) => .error .malformed
  | result => result

def fraction (mode : Mode) : List Char → Read (Option (List Char))
  | '.' :: cs => (digits mode cs).map fun (found, rest) => (some found, rest)
  | cs => .ok (none, cs)

/-- The sign and the digits of an exponent; the sign is `true` for a minus. -/
def exponent (mode : Mode) : List Char → Read (Option (Bool × List Char))
  | c :: cs =>
    if c = 'e' ∨ c = 'E' then
      match cs with
      | '+' :: cs => (digits mode cs).map fun (found, rest) => (some (false, found), rest)
      | '-' :: cs => (digits mode cs).map fun (found, rest) => (some (true, found), rest)
      | cs => (digits mode cs).map fun (found, rest) => (some (false, found), rest)
    else .ok (none, c :: cs)
  | [] => .ok (none, [])

def number (mode : Mode) (negative : Bool) (cs : List Char) : Except Fault (Parts × List Char) := do
  let (w, cs) ← whole mode cs
  let (f, cs) ← fraction mode cs
  let (e, cs) ← exponent mode cs
  let parts : Parts := ⟨negative, w, f, e⟩
  if mode = .take && parts.outOfRange then .error .malformed else .ok (parts, cs)

def literal : List Char → List Char → Except Fault (List Char)
  | [], cs => .ok cs
  | _ :: _, [] => .error .ended
  | w :: ws, c :: cs => if w = c then literal ws cs else .error .malformed

inductive Value where
  | text (chars : List Char)
  | number (parts : Parts)
  | null
  | other
deriving DecidableEq, Repr

def scalar (mode : Mode) : List Char → Read Value
  | 'n' :: cs => (literal "ull".toList cs).map (.null, ·)
  | 't' :: cs => (literal "rue".toList cs).map (.other, ·)
  | 'f' :: cs => (literal "alse".toList cs).map (.other, ·)
  | '-' :: cs => (number mode true cs).map fun (parts, rest) => (.number parts, rest)
  | '"' :: cs => (string mode cs).map fun (chars, rest) => (.text chars, rest)
  | c :: cs =>
    if c.isDigit then (number mode false (c :: cs)).map fun (parts, rest) => (.number parts, rest)
    else .error .malformed
  | [] => .error .ended

def shapeFault : List Char → Fault
  | '[' :: _ => .shape
  | '{' :: _ => .shape
  | cs => match scalar .take cs with
    | .ok _ => .shape
    | .error fault => fault

def nextItem (first : Bool) (cs : List Char) : Except Fault (Bool × List Char) :=
  match skipBlanks cs with
  | [] => .error .ended
  | ']' :: cs => .ok (false, cs)
  | c :: cs =>
    if first then .ok (true, c :: cs)
    else if c = ',' then
      match skipBlanks cs with
      | [] => .error .ended
      | ']' :: _ => .error .malformed
      | cs => .ok (true, cs)
    else .error .malformed

def nextName (first : Bool) (cs : List Char) : Except Fault (Bool × List Char) :=
  match skipBlanks cs with
  | [] => .error .ended
  | '}' :: cs => .ok (false, cs)
  | c :: cs =>
    if first then .ok (true, c :: cs)
    else if c = ',' then
      match skipBlanks cs with
      | [] => .error .ended
      | cs => .ok (true, cs)
    else .error .malformed

def nextMember (mode : Mode) (first : Bool) (cs : List Char) : Read (Option (List Char)) :=
  match nextName first cs with
  | .error fault => .error fault
  | .ok (false, cs) => .ok (none, cs)
  | .ok (true, '"' :: cs) => (string mode cs).map fun (name, rest) => (some name, rest)
  | .ok (true, _) => .error .malformed

def colon (cs : List Char) : Except Fault (List Char) :=
  match skipBlanks cs with
  | [] => .error .ended
  | ':' :: cs => .ok cs
  | _ => .error .malformed

def maxDepth : Nat := 127

def tooDeep (mode : Mode) (depth : Nat) : Bool := mode = .take && maxDepth ≤ depth

mutual

def value (mode : Mode) : Nat → Nat → List Char → Read Value
  | 0, _, _ => .error .malformed
  | fuel + 1, depth, cs =>
    match skipBlanks cs with
    | '[' :: cs =>
      if tooDeep mode depth then .error .malformed
      else (items mode fuel (depth + 1) true cs).map (.other, ·)
    | '{' :: cs =>
      if tooDeep mode depth then .error .malformed
      else (members mode fuel (depth + 1) true cs).map (.other, ·)
    | cs => scalar mode cs

def items (mode : Mode) : Nat → Nat → Bool → List Char → Except Fault (List Char)
  | 0, _, _, _ => .error .malformed
  | fuel + 1, depth, first, cs =>
    match nextItem first cs with
    | .error fault => .error fault
    | .ok (false, cs) => .ok cs
    | .ok (true, cs) =>
      match value mode fuel depth cs with
      | .error fault => .error fault
      | .ok (_, cs) => items mode fuel depth false cs

def members (mode : Mode) : Nat → Nat → Bool → List Char → Except Fault (List Char)
  | 0, _, _, _ => .error .malformed
  | fuel + 1, depth, first, cs =>
    match nextMember mode first cs with
    | .error fault => .error fault
    | .ok (none, cs) => .ok cs
    | .ok (some _, cs) =>
      match colon cs with
      | .error fault => .error fault
      | .ok cs =>
        match value mode fuel depth cs with
        | .error fault => .error fault
        | .ok (_, cs) => members mode fuel depth false cs

end

end DocGap.Json
