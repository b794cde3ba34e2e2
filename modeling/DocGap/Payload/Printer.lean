import DocGap.Payload

/-!
# Writing payloads

A payload is written as an indented JSON document: an object with the list `entries`, in which each
answer is an object with one member per line. An answer without a line has no such member.
-/
namespace DocGap.Payload

def hexDigit (n : Nat) : Char := if n < 10 then Char.ofNat (48 + n) else Char.ofNat (87 + n)

def escape (c : Char) : List Char :=
  if c = '"' then ['\\', '"']
  else if c = '\\' then ['\\', '\\']
  else if c = '\n' then ['\\', 'n']
  else if c = '\r' then ['\\', 'r']
  else if c = '\t' then ['\\', 't']
  else if c = '\x08' then ['\\', 'b']
  else if c = '\x0c' then ['\\', 'f']
  else if c.toNat <
    0x20 then ['\\', 'u', '0', '0', hexDigit (c.toNat / 16), hexDigit (c.toNat % 16)]
  else [c]

def quote (text : String) : List Char := '"' :: text.toList.flatMap escape ++ ['"']

def member (name : String) (value : List Char) : List Char := quote name ++ ':' :: ' ' :: value

def Answer.members (a : Answer) : List (List Char) :=
  [member "file" (quote a.file.spelling), member "name" (quote a.name)] ++
    (match a.line with
      | none => []
      | some line => [member "line" (toString line).toList]) ++
    [member "technical" (quote a.text.technical), member "simple" (quote a.text.simple)]

def spaces (n : Nat) : List Char := List.replicate n ' '

def enclose (opening closing : Char) (depth : Nat) : List (List Char) → List Char
  | [] => [opening, closing]
  | items =>
    let inner := items.map fun item => '\n' :: spaces (2 * (depth + 1)) ++ item
    opening :: [','].intercalate inner ++ '\n' :: spaces (2 * depth) ++ [closing]

def printAnswer (a : Answer) : List Char := enclose '{' '}' 2 (Answer.members a)

def print (p : Payload) : String :=
  String.ofList
    (enclose '{' '}' 0 [member "entries" (enclose '[' ']' 1 (p.answers.map printAnswer))])

end DocGap.Payload
