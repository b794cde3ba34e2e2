import DocGap.Json.Reader
import DocGap.Payload
import DocGap.Text.Blank
import DocGap.Text.Pieces

/-!
# Reading payloads

A payload is an object with the list `entries`, or a list whose only item is that list; without it
there are no answers. Members of other names are passed over. An answer is an object with the texts
`file` and `name`; it may have a `line` and the texts `technical` and `simple`. What else it has is
taken in and dropped. A payload may also stand in a fenced part of a longer text.
-/
namespace DocGap.Payload

open Json (Fault Read)

/-- What has been read of an answer. Texts of the explanation are kept as they come. -/
structure Draft where
  file : Option (List Char)
  name : Option (List Char)
  line : Option (Option Nat)
  technical : List Json.Value
  simple : List Json.Value
deriving DecidableEq, Repr

def Draft.start : Draft := ⟨none, none, none, [], []⟩

def textValue (cs : List Char) : Read (List Char) :=
  match Json.skipBlanks cs with
  | [] => .error .ended
  | '"' :: cs => Json.string .take cs
  | cs => .error (Json.shapeFault cs)

def lineValue (cs : List Char) : Read (Option Nat) :=
  match Json.skipBlanks cs with
  | [] => .error .ended
  | '[' :: _ => .error .shape
  | '{' :: _ => .error .shape
  | cs =>
    match Json.scalar .take cs with
    | .error fault => .error fault
    | .ok (.null, rest) => .ok (none, rest)
    | .ok (.number parts, rest) =>
      match parts.natural? with
      | some n => .ok (some n, rest)
      | none => .error .shape
    | .ok _ => .error .shape

def partText : List Json.Value → Except Fault String
  | [] => .ok ""
  | [.text chars] => .ok (String.ofList chars)
  | _ => .error .shape

def Draft.finish (d : Draft) : Except Fault Answer :=
  match d.file, d.name with
  | some file, some name => do
    let technical ← partText d.technical
    let simple ← partText d.simple
    .ok ⟨⟨String.ofList file⟩, String.ofList name, d.line.join, ⟨technical, simple⟩⟩
  | _, _ => .error .shape

def answerDepth : Nat := 3

def readMember (fuel : Nat) (d : Draft) (name : String) (cs : List Char) : Read Draft :=
  match name with
  | "file" =>
    if d.file.isSome then .error .shape
    else match Json.colon cs with
      | .error fault => .error fault
      | .ok cs => (textValue cs).map fun (text, rest) => ({ d with file := some text }, rest)
  | "name" =>
    if d.name.isSome then .error .shape
    else match Json.colon cs with
      | .error fault => .error fault
      | .ok cs => (textValue cs).map fun (text, rest) => ({ d with name := some text }, rest)
  | "line" =>
    if d.line.isSome then .error .shape
    else match Json.colon cs with
      | .error fault => .error fault
      | .ok cs => (lineValue cs).map fun (line, rest) => ({ d with line := some line }, rest)
  | _ =>
    match Json.colon cs with
    | .error fault => .error fault
    | .ok cs =>
      (Json.value .take fuel answerDepth cs).map fun (v, rest) =>
        if name = "technical" then ({ d with technical := v :: d.technical }, rest)
        else if name = "simple" then ({ d with simple := v :: d.simple }, rest)
        else (d, rest)

def readAnswer : Nat → Bool → Draft → List Char → Read Answer
  | 0, _, _, _ => .error .malformed
  | fuel + 1, first, d, cs =>
    match Json.nextMember .take first cs with
    | .error fault => .error fault
    | .ok (none, cs) => d.finish.map (·, cs)
    | .ok (some name, cs) =>
      match readMember fuel d (String.ofList name) cs with
      | .error fault => .error fault
      | .ok (d, cs) => readAnswer fuel false d cs

def readAnswers : Nat → Bool → List Char → Read (List Answer)
  | 0, _, _ => .error .malformed
  | fuel + 1, first, cs =>
    match Json.nextItem first cs with
    | .error fault => .error fault
    | .ok (false, cs) => .ok ([], cs)
    | .ok (true, '{' :: cs) =>
      match readAnswer fuel true .start cs with
      | .error fault => .error fault
      | .ok (answer, cs) =>
        (readAnswers fuel false cs).map fun (answers, rest) => (answer :: answers, rest)
    | .ok (true, cs) => .error (Json.shapeFault cs)

def answerList (fuel : Nat) (cs : List Char) : Read (List Answer) :=
  match Json.skipBlanks cs with
  | [] => .error .ended
  | '[' :: cs => readAnswers fuel true cs
  | cs => .error (Json.shapeFault cs)

def readObject : Nat → Bool → Option (List Answer) → List Char → Read (List Answer)
  | 0, _, _, _ => .error .malformed
  | fuel + 1, first, found, cs =>
    match Json.nextMember .take first cs with
    | .error fault => .error fault
    | .ok (none, cs) => .ok (found.getD [], cs)
    | .ok (some name, cs) =>
      if String.ofList name = "entries" then
        if found.isSome then .error .shape
        else match Json.colon cs with
          | .error fault => .error fault
          | .ok cs =>
            match answerList fuel cs with
            | .error fault => .error fault
            | .ok (answers, cs) => readObject fuel false (some answers) cs
      else match Json.colon cs with
        | .error fault => .error fault
        | .ok cs =>
          match Json.value .pass fuel 1 cs with
          | .error fault => .error fault
          | .ok (_, cs) => readObject fuel false found cs

/-- The rest of a payload written as a list, behind its opening bracket: it has at most one item. -/
def readList (fuel : Nat) (cs : List Char) : Read (List Answer) :=
  match Json.nextItem true cs with
  | .error fault => .error fault
  | .ok (false, cs) => .ok ([], cs)
  | .ok (true, cs) =>
    match answerList fuel cs with
    | .error fault => .error fault
    | .ok (answers, cs) =>
      match Json.skipBlanks cs with
      | [] => .error .ended
      | ']' :: cs => .ok (answers, cs)
      | _ => .error .malformed

def fuelFor (cs : List Char) : Nat := 2 * cs.length + 2

def ofDocument? (cs : List Char) : Except Fault Payload :=
  let fuel := fuelFor cs
  let found : Read (List Answer) := match Json.skipBlanks cs with
    | [] => .error .ended
    | '[' :: cs => readList fuel cs
    | '{' :: cs => readObject fuel true none cs
    | cs => .error (Json.shapeFault cs)
  match found with
  | .error fault => .error fault
  | .ok (answers, rest) =>
    if (Json.skipBlanks rest).isEmpty then .ok ⟨answers⟩ else .error .malformed

def fence : List Char := ['\x60', '\x60', '\x60']

def fenced? (cs : List Char) : Option (List Char) :=
  match Text.cutAt (fence ++ "json".toList) cs with
  | none => none
  | some (_, rest) => (Text.cutAt fence rest).map fun (inner, _) => Text.trim inner

/-- The payload that the text is, or else the one in its fenced part. -/
def read? (text : String) : Except Fault Payload :=
  match ofDocument? text.toList with
  | .ok payload => .ok payload
  | .error fault =>
    match fenced? text.toList with
    | none => .error fault
    | some inner => ofDocument? inner

end DocGap.Payload
