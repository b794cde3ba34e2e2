/-!
# Reading bytes as text

Bytes are a text when they are well-formed UTF-8. Otherwise the first fault says where they stop
being well formed, and a lossy reading puts one replacement character for every maximal malformed
stretch.
-/
namespace DocGap.Text

/-- The bytes that may follow a first byte, position by position. -/
def followers (first : UInt8) : Option (List (UInt8 × UInt8)) :=
  let any := (0x80, 0xBF)
  if first ≤ 0x7F then some []
  else if first ≤ 0xC1 then none
  else if first ≤ 0xDF then some [any]
  else if first = 0xE0 then some [(0xA0, 0xBF), any]
  else if first = 0xED then some [(0x80, 0x9F), any]
  else if first ≤ 0xEF then some [any, any]
  else if first = 0xF0 then some [(0x90, 0xBF), any, any]
  else if first ≤ 0xF3 then some [any, any, any]
  else if first = 0xF4 then some [(0x80, 0x8F), any, any]
  else none

inductive Following where
  | all
  | wrongAfter (matched : Nat)
  | endsEarly
deriving DecidableEq, Repr

def follow : List (UInt8 × UInt8) → List UInt8 → Nat → Following
  | [], _, _ => .all
  | _ :: _, [], _ => .endsEarly
  | (low, high) :: ranges, b :: bs, matched =>
    if low ≤ b && b ≤ high then follow ranges bs (matched + 1) else .wrongAfter matched

/-- What stands at the front of some bytes. `length` counts bytes. -/
inductive Front where
  | character (c : Char) (length : Nat)
  | malformed (length : Nat)
  | cutOff
deriving DecidableEq, Repr

def codePoint (first : UInt8) (more : List UInt8) : Nat :=
  let lead := match more.length with
    | 0 => first.toNat
    | 1 => first.toNat % 0x20
    | 2 => first.toNat % 0x10
    | _ => first.toNat % 0x08
  more.foldl (fun value b => value * 0x40 + b.toNat % 0x40) lead

def front (first : UInt8) (rest : List UInt8) : Front :=
  match followers first with
  | none => .malformed 1
  | some ranges =>
    match follow ranges rest 0 with
    | .all =>
      .character (Char.ofNat (codePoint first (rest.take ranges.length))) (ranges.length + 1)
    | .wrongAfter matched => .malformed (matched + 1)
    | .endsEarly => .cutOff

inductive DecodingFault where
  | malformed (index length : Nat)
  | cutOff (index : Nat)
deriving DecidableEq, Repr

def DecodingFault.message : DecodingFault → String
  | .malformed index length =>
    "invalid utf-8 sequence of " ++ toString length ++ " bytes from index " ++ toString index
  | .cutOff index => "incomplete utf-8 byte sequence from index " ++ toString index

/-- The first fault at or after `index`; bytes without one end there. -/
def firstFault (index : Nat) : List UInt8 → DecodingFault
  | [] => .cutOff index
  | b :: bs =>
    match front b bs with
    | .character _ length => firstFault (index + length) (bs.drop (length - 1))
    | .malformed length => .malformed index length
    | .cutOff => .cutOff index
termination_by bytes => bytes.length
decreasing_by simp only [List.length_drop, List.length_cons]; omega

def decode (bytes : ByteArray) : Except DecodingFault String :=
  match String.fromUTF8? bytes with
  | some text => .ok text
  | none => .error (firstFault 0 bytes.toList)

def replacement : Char := '\uFFFD'

def decodeLossyChars : List UInt8 → List Char
  | [] => []
  | b :: bs =>
    match front b bs with
    | .character c length => c :: decodeLossyChars (bs.drop (length - 1))
    | .malformed length => replacement :: decodeLossyChars (bs.drop (length - 1))
    | .cutOff => [replacement]
termination_by bytes => bytes.length
decreasing_by all_goals simp only [List.length_drop, List.length_cons]; omega

def decodeLossy (bytes : ByteArray) : String :=
  match String.fromUTF8? bytes with
  | some text => text
  | none => String.ofList (decodeLossyChars bytes.toList)

end DocGap.Text
