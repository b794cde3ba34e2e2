import DocGap.Toml.Literal

/-!
# TOML strings

Strings stand in single or double quotes, on one line or, in three quotes, over several. Only double
quotes know escapes.
-/
namespace DocGap.Toml

def isPrintable (c : Char) : Bool := c = '\t' || (0x20 ≤ c.toNat && c.toNat ≠ 0x7F)

abbrev Quoted := Option (List Char × List Char)

def Quoted.prepend (c : Char) (q : Quoted) : Quoted := q.map fun (text, rest) => (c :: text, rest)

def simpleEscape? : Char → Option Char
  | 'b' => some '\x08'
  | 't' => some '\t'
  | 'n' => some '\n'
  | 'f' => some '\x0c'
  | 'r' => some '\r'
  | 'e' => some '\x1b'
  | '"' => some '"'
  | '\\' => some '\\'
  | _ => none

def numbered? (digits : List Char) : Option Char :=
  if digits.all isHexDigit then
    let n := digits.foldl (fun n c => n * 16 + hexValue c) 0
    if n.isValidChar then some (Char.ofNat n) else none
  else none

def literalText : List Char → Quoted
  | [] => none
  | '\'' :: cs => some ([], cs)
  | c :: cs => if isPrintable c then Quoted.prepend c (literalText cs) else none

def basicText : List Char → Quoted
  | [] => none
  | '"' :: cs => some ([], cs)
  | '\\' :: 'x' :: a :: b :: cs =>
    match numbered? [a, b] with
    | none => none
    | some e => Quoted.prepend e (basicText cs)
  | '\\' :: 'u' :: a :: b :: c :: d :: cs =>
    match numbered? [a, b, c, d] with
    | none => none
    | some e => Quoted.prepend e (basicText cs)
  | '\\' :: 'U' :: a :: b :: c :: d :: e :: f :: g :: h :: cs =>
    match numbered? [a, b, c, d, e, f, g, h] with
    | none => none
    | some e => Quoted.prepend e (basicText cs)
  | '\\' :: c :: cs =>
    match simpleEscape? c with
    | none => none
    | some e => Quoted.prepend e (basicText cs)
  | c :: cs => if isPrintable c && c ≠ '\\' then Quoted.prepend c (basicText cs) else none

/-- The rest of a string in three single quotes. Up to two quotes may stand before the
closing ones. -/
def longLiteralText : List Char → Quoted
  | [] => none
  | '\'' :: '\'' :: '\'' :: '\'' :: '\'' :: cs => some (['\'', '\''], cs)
  | '\'' :: '\'' :: '\'' :: '\'' :: cs => some (['\''], cs)
  | '\'' :: '\'' :: '\'' :: cs => some ([], cs)
  | '\r' :: '\n' :: cs => Quoted.prepend '\r' (Quoted.prepend '\n' (longLiteralText cs))
  | c :: cs => if isPrintable c || c = '\n' then Quoted.prepend c (longLiteralText cs) else none

def isInlineBlank (c : Char) : Bool := c = ' ' || c = '\t'

def endsLine (cs : List Char) : Bool :=
  match cs.dropWhile isInlineBlank with
  | '\n' :: _ => true
  | '\r' :: '\n' :: _ => true
  | _ => false

/-- The rest of a string in three double quotes. A backslash at the end of a line drops the line end
and the blanks that follow; `dropping` says that this is going on. -/
def longBasicText : Bool → List Char → Quoted
  | _, [] => none
  | _, '"' :: '"' :: '"' :: '"' :: '"' :: cs => some (['"', '"'], cs)
  | _, '"' :: '"' :: '"' :: '"' :: cs => some (['"'], cs)
  | _, '"' :: '"' :: '"' :: cs => some ([], cs)
  | dropping, '\r' :: '\n' :: cs =>
    if dropping then longBasicText true cs
    else Quoted.prepend '\r' (Quoted.prepend '\n' (longBasicText false cs))
  | _, '\\' :: 'x' :: a :: b :: cs =>
    match numbered? [a, b] with
    | none => none
    | some e => Quoted.prepend e (longBasicText false cs)
  | _, '\\' :: 'u' :: a :: b :: c :: d :: cs =>
    match numbered? [a, b, c, d] with
    | none => none
    | some e => Quoted.prepend e (longBasicText false cs)
  | _, '\\' :: 'U' :: a :: b :: c :: d :: e :: f :: g :: h :: cs =>
    match numbered? [a, b, c, d, e, f, g, h] with
    | none => none
    | some e => Quoted.prepend e (longBasicText false cs)
  | _, '\\' :: c :: cs =>
    match simpleEscape? c with
    | some e => Quoted.prepend e (longBasicText false cs)
    | none => if endsLine (c :: cs) then longBasicText true (c :: cs) else none
  | dropping, c :: cs =>
    if dropping && (isInlineBlank c || c = '\n') then longBasicText true cs
    else if (isPrintable c && c ≠ '\\') || c = '\n' then Quoted.prepend c (longBasicText false cs)
    else none

def dropLineEnd : List Char → List Char
  | '\n' :: cs => cs
  | '\r' :: '\n' :: cs => cs
  | cs => cs

def shortString? : List Char → Quoted
  | '"' :: cs => basicText cs
  | '\'' :: cs => literalText cs
  | _ => none

def string? : List Char → Quoted
  | '"' :: '"' :: '"' :: cs => longBasicText false (dropLineEnd cs)
  | '\'' :: '\'' :: '\'' :: cs => longLiteralText (dropLineEnd cs)
  | cs => shortString? cs

end DocGap.Toml
