import DocGap.Text.Blank
import DocGap.Text.Offset
import DocGap.Text.Pieces

/-!
# Lists of names inside a match

Some matches name several elements: `a, b as c, type D` between braces, or one quoted path on each
line. An item is a part of the list as it stands there, together with its byte offset.
-/
namespace DocGap.NameList

structure Item where
  name : List Char
  offset : Nat
deriving DecidableEq, Repr

/-- Where a reader of the list stands with respect to comments. `starred` says that the last
character of an open comment was a star. -/
inductive Place where
  | code
  | lineComment
  | blockComment (starred : Bool)
deriving DecidableEq, Repr

/-- As many spaces as the character has bytes; a line feed stays. -/
def cover (c : Char) : List Char := if c = '\n' then ['\n'] else List.replicate c.utf8Size ' '

/-- The list with its comments covered by spaces, byte for byte. -/
def maskFrom : Place → List Char → List Char
  | _, [] => []
  | .code, '/' :: '/' :: cs => ' ' :: ' ' :: maskFrom .lineComment cs
  | .code, '/' :: '*' :: cs => ' ' :: ' ' :: maskFrom (.blockComment false) cs
  | .code, c :: cs => c :: maskFrom .code cs
  | .lineComment, c :: cs =>
    if c = '\n' then '\n' :: maskFrom .code cs else cover c ++ maskFrom .lineComment cs
  | .blockComment starred, c :: cs =>
    cover c ++
      if starred ∧ c = '/' then maskFrom .code cs else maskFrom (.blockComment (c = '*')) cs

def mask (list : List Char) : List Char := maskFrom .code list

def cutAtLast (mark : List Char) (cs : List Char) : Option (List Char × List Char) :=
  (Text.cutAt mark.reverse cs.reverse).map fun (after, before) => (before.reverse, after.reverse)

def skipBlanks (cs : List Char) : Nat × List Char :=
  (Text.byteLength (cs.takeWhile Text.isBlank), Text.trimStart cs)

def skipTypeWord (cs : List Char) : Nat × List Char :=
  if "type ".toList.isPrefixOf cs then
    let (blanks, rest) := skipBlanks (cs.drop 5)
    (5 + blanks, rest)
  else (0, cs)

/-- Where the name of a segment starts and what it is: behind the last ` as `, if there is one. -/
def nameOfSegment (segment : List Char) : Nat × List Char :=
  let (lead, rest) := skipBlanks segment
  let (typed, rest) := skipTypeWord rest
  let item := Text.trimEnd rest
  match cutAtLast " as ".toList item with
  | none => (lead + typed, item)
  | some (before, after) =>
    let (blanks, name) := skipBlanks after
    (lead + typed + Text.byteLength before + 4 + blanks, name)

def slice (list : List Char) (offset length : Nat) : List Char :=
  match Text.dropBytes offset list with
  | none => []
  | some rest => Text.takeBytes length rest

def namesFrom (list : List Char) (base offset : Nat) : List (List Char) → List Item
  | [] => []
  | segment :: rest =>
    let (lead, name) := nameOfSegment segment
    let more := namesFrom list base (offset + Text.byteLength segment + 1) rest
    if name.isEmpty then more
    else ⟨slice list (offset + lead) (Text.byteLength name), base + (offset + lead)⟩ :: more

/-- The names in a comma list that starts at byte `base` of the text; comments count as blanks. -/
def names (list : List Char) (base : Nat) : List Item :=
  namesFrom list base 0 (Text.pieces ',' (mask list))

def quotedPath? (line : List Char) : Option (Nat × List Char) :=
  match Text.cutAt ['"'] line with
  | none => none
  | some (before, after) =>
    match Text.cutAt ['"'] after with
    | none => none
    | some (path, _) => some (Text.byteLength before + 1, path)

def quotedPathsFrom (base : Nat) : List (List Char) → List Item
  | [] => []
  | line :: rest =>
    let more := quotedPathsFrom (base + Text.byteLength line + 1) rest
    match quotedPath? line with
    | none => more
    | some (lead, path) => ⟨path, base + lead⟩ :: more

def quotedPaths (list : List Char) (base : Nat) : List Item :=
  quotedPathsFrom base (Text.splitLines list)

end DocGap.NameList
