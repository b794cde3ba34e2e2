import DocGap.Toml.Quoted

/-!
# Reading TOML

A document is a list of lines, each of which is empty, opens a table or gives a key its value.
Comments may end a line. Inline tables and arrays may span lines and end with a comma, also around
an equals sign but not inside a dotted key. Lists of tables under a header in double brackets are
not read.
-/
namespace DocGap.Toml

def skipInline (cs : List Char) : List Char := cs.dropWhile isInlineBlank

/-- What follows blanks, line ends and comments. Nothing is returned for a comment with a control
character in it, or for a carriage return without a line feed. -/
def skipSpace : Bool → List Char → Option (List Char)
  | _, [] => some []
  | _, '\n' :: cs => skipSpace false cs
  | _, '\r' :: '\n' :: cs => skipSpace false cs
  | true, c :: cs => if isPrintable c then skipSpace true cs else none
  | false, c :: cs =>
    if c = '#' then skipSpace true cs
    else if isInlineBlank c then skipSpace false cs
    else if c = '\r' then none
    else some (c :: cs)

def endLine : Bool → List Char → Option (List Char)
  | _, [] => some []
  | _, '\n' :: cs => some cs
  | _, '\r' :: '\n' :: cs => some cs
  | true, c :: cs => if isPrintable c then endLine true cs else none
  | false, c :: cs =>
    if c = '#' then endLine true cs else if isInlineBlank c then endLine false cs else none

def isKeyChar (c : Char) : Bool := c.isAlphanum || c = '_' || c = '-'

def simpleKey? (cs : List Char) : Option (String × List Char) :=
  match cs with
  | '"' :: _ => (shortString? cs).map fun (text, rest) => (String.ofList text, rest)
  | '\'' :: _ => (shortString? cs).map fun (text, rest) => (String.ofList text, rest)
  | _ =>
    match cs.takeWhile isKeyChar with
    | [] => none
    | found => some (String.ofList found, cs.dropWhile isKeyChar)

/-- How many arrays and inline tables may be inside one another, and how many keys dots may join. -/
def maxDepth : Nat := 80

def keysUpTo : Nat → List Char → Option (List String × List Char)
  | 0, _ => none
  | most + 1, cs =>
    match simpleKey? (skipInline cs) with
    | none => none
    | some (key, rest) =>
      match skipInline rest with
      | '.' :: rest => (keysUpTo most rest).map fun (keys, rest) => (key :: keys, rest)
      | rest => some ([key], rest)

def dottedKey? (cs : List Char) : Option (List String × List Char) := keysUpTo maxDepth cs

def isBareChar (c : Char) : Bool :=
  c.isAlphanum || c = '_' || c = '-' || c = '+' || c = '.' || c = ':'

/-- The characters of a value without quotes. A date may be divided from its time by a space. -/
def bareChars (cs : List Char) : List Char × List Char :=
  let found := cs.takeWhile isBareChar
  let rest := cs.dropWhile isBareChar
  match rest with
  | ' ' :: c :: more =>
    if c.isDigit && afterDate? found = some [] then
      (found ++ ' ' :: (c :: more).takeWhile isBareChar, (c :: more).dropWhile isBareChar)
    else (found, rest)
  | _ => (found, rest)

def bareValue? (cs : List Char) : Option (Node × List Char) :=
  let (found, rest) := bareChars cs
  (bare? found).map (·, rest)

mutual

def value? : Nat → Nat → List Char → Option (Node × List Char)
  | 0, _, _ => none
  | fuel + 1, depth, cs =>
    match cs with
    | '"' :: _ => (string? cs).map fun (text, rest) => (.text (String.ofList text), rest)
    | '\'' :: _ => (string? cs).map fun (text, rest) => (.text (String.ofList text), rest)
    | '[' :: cs =>
      if depth = 0 then none
      else (items? fuel (depth - 1) cs).map fun (items, rest) => (.array items, rest)
    | '{' :: cs =>
      if depth = 0 then none
      else (members? fuel (depth - 1) [] cs).map fun (entries, rest) =>
        (.table .inline entries, rest)
    | cs => bareValue? cs

def items? : Nat → Nat → List Char → Option (List Node × List Char)
  | 0, _, _ => none
  | fuel + 1, depth, cs =>
    match skipSpace false cs with
    | none => none
    | some (']' :: cs) => some ([], cs)
    | some cs =>
      match value? fuel depth cs with
      | none => none
      | some (item, cs) =>
        match skipSpace false cs with
        | some (',' :: cs) => (items? fuel depth cs).map fun (items, rest) => (item :: items, rest)
        | some (']' :: cs) => some ([item], cs)
        | _ => none

def members? : Nat → Nat → Entries → List Char → Option (Entries × List Char)
  | 0, _, _, _ => none
  | fuel + 1, depth, entries, cs =>
    match skipSpace false cs with
    | none => none
    | some ('}' :: cs) => some (entries, cs)
    | some cs =>
      match member? fuel depth cs with
      | none => none
      | some (keys, node, cs) =>
        match entries.assign node keys, skipSpace false cs with
        | some entries, some (',' :: cs) => members? fuel depth entries cs
        | some entries, some ('}' :: cs) => some (entries, cs)
        | _, _ => none

def member? : Nat → Nat → List Char → Option (List String × Node × List Char)
  | 0, _, _ => none
  | fuel + 1, depth, cs =>
    match dottedKey? cs with
    | none => none
    | some (keys, cs) =>
      match skipSpace false cs with
      | some ('=' :: cs) =>
        match skipSpace false cs with
        | none => none
        | some cs => (value? fuel depth cs).map fun (node, rest) => (keys, node, rest)
      | _ => none

end

structure Progress where
  entries : Entries
  current : List String

def readHeader (p : Progress) (cs : List Char) : Option (Progress × List Char) :=
  match dottedKey? cs with
  | some (keys, ']' :: cs) =>
    match p.entries.openTable keys, endLine false cs with
    | some entries, some cs => some (⟨entries, keys⟩, cs)
    | _, _ => none
  | _ => none

def readEntry (fuel : Nat) (p : Progress) (cs : List Char) : Option (Progress × List Char) :=
  match dottedKey? cs with
  | some (keys, '=' :: cs) =>
    match value? fuel maxDepth (skipInline cs) with
    | none => none
    | some (node, cs) =>
      match p.entries.within (Entries.assign node keys) p.current, endLine false cs with
      | some entries, some cs => some (⟨entries, p.current⟩, cs)
      | _, _ => none
  | _ => none

def readLines : Nat → Progress → List Char → Option Entries
  | 0, _, _ => none
  | fuel + 1, p, cs =>
    match skipSpace false cs with
    | none => none
    | some [] => some p.entries
    | some ('[' :: cs) =>
      match readHeader p cs with
      | none => none
      | some (p, cs) => readLines fuel p cs
    | some cs =>
      match readEntry fuel p cs with
      | none => none
      | some (p, cs) => readLines fuel p cs

/-- The entries of a document. A byte order mark in front of it does not count. -/
def read? (text : String) : Option Entries :=
  let cs := match text.toList with
    | '\uFEFF' :: cs => cs
    | cs => cs
  readLines (3 * cs.length + 3) ⟨[], []⟩ cs

end DocGap.Toml
