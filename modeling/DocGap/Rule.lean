import DocGap.Element
import DocGap.Grammar
import DocGap.Pattern

/-!
# Rules

A rule says which stretches of a text declare elements of one kind. Each language has a list of
them; their order decides which of two findings with the same name on the same line is kept.
Identifiers are captured up to twice as long as a name may be, so that an overlong one is captured
whole and then refused. A gap of any length is a stretch: what follows it never starts with a gap,
so that giving some of it back is no use.
-/
namespace DocGap

inductive Capture where
  /-- The group is the name, and the element starts with the match. -/
  | single
  /-- The group is a comma list such as `a, b as c`. -/
  | nameList
  /-- The group has lines with a path in double quotes. -/
  | quotedPaths
deriving DecidableEq, Repr

structure Rule where
  kind : Kind
  capture : Capture
  pattern : Pattern
  refused : List String

namespace Rule

open Pattern

def controlKeywords : List String :=
  ["if", "for", "foreach", "while", "switch", "catch", "return", "sizeof", "else",
    "do", "try", "using",
   "lock", "fixed", "synchronized", "new", "delete", "throw", "case"]

def isGap (c : Char) : Bool := c = ' ' || c = '\t'

def isLineGap (c : Char) : Bool := isGap c || c = '\r' || c = '\n'

def gaps : Pattern := stretch isGap 0

def gaps1 : Pattern := stretch isGap 1

def lineGaps : Pattern := stretch isLineGap 0

def identifier : Pattern :=
  seq (one Grammar.isIdentifierStart) (run Grammar.isIdentifierPart 0 127)

def name : Pattern := group identifier

def atMost (n : Nat) (accept : Char → Bool) : Pattern := run accept 0 n

def some1 (n : Nat) (accept : Char → Bool) : Pattern := run accept 1 n

def modifier (text : String) : Pattern := opt (seq (word text) gaps1)

def isAnyQuote (c : Char) : Bool := c = '"' || c = '\''

def quotedPath : Pattern :=
  cat [one isAnyQuote, group (some1 256 (noneOf "'\"\n")), one isAnyQuote]

def isAlnumOr (more : String) (c : Char) : Bool := c.isAlphanum || anyOf more c

def simple (kind : Kind) (parts : List Pattern) : Rule := ⟨kind, .single, cat parts, []⟩

def callLike (parts : List Pattern) : Rule := ⟨.function, .single, cat parts, controlKeywords⟩

def bracketed (opening closing : Char) (n : Nat) (accept : Char → Bool) : Pattern :=
  cat [char opening, atMost n accept, char closing]

def arguments (n : Nat) : Pattern := bracketed '(' ')' n (noneOf "()")

def typeNote : Pattern := opt (seq (char ':') (atMost 128 (noneOf "=\n")))

def binding : List Pattern :=
  [wordEdge, words ["const", "let", "var"], gaps1, name, gaps, typeNote, char '=', gaps]

def javascript : List Rule :=
  [ simple .function
      [wordEdge, modifier "async", word "function",
        alt (cat [gaps, char '*', gaps]) gaps1, name, gaps,
       opt (seq (bracketed '<' '>' 128 (noneOf "<>\n")) gaps), char '('],
    simple .function (binding ++ [modifier "async", word "function", wordEdge]),
    simple .function
      (binding ++
        [opt (seq (word "async") gaps), alt (arguments 256) identifier, gaps, typeNote, word "=>"]),
    simple .function
      [wordEdge, name, gaps, char ':', gaps, modifier "async", word "function", wordEdge],
    simple .classType [wordEdge, word "class", gaps1, name],
    simple .importPath
      [wordEdge, word "import",
       choice
        [cat [gaps, atMost 256 (noneOf "'\";"), one (anyOf " \t\x7d\n"), word "from", gaps],
         cat [gaps1, word "from", gaps], gaps],
       quotedPath],
    simple .importPath
      [wordEdge, word "require", gaps, char '(', gaps, quotedPath, gaps, char ')'],
    simple .exportName
      [wordEdge, word "export", gaps1, modifier "default", modifier "declare", modifier "abstract",
       modifier "async",
       choice
        [seq (word "function") (opt (char '*')), word "class", word "const", word "let", word "var",
         word "interface", word "type", word "enum"],
       gaps1, name],
    ⟨.exportName, .nameList,
      cat
        [wordEdge, word "export", gaps, opt (seq (word "type") gaps), char '{',
         group (atMost 512 (noneOf "\x7b\x7d")), char '}'],
      []⟩ ]

def python : List Rule :=
  [ simple .function [lineStart, gaps, modifier "async", word "def", gaps1, name, gaps, char '('],
    simple .classType [lineStart, gaps, word "class", gaps1, name, gaps, one (anyOf "(:")],
    simple .importPath
      [lineStart, gaps, word "from", gaps1, group (some1 256 (isAlnumOr "_.")),
        gaps1, word "import",
       wordEdge],
    simple .importPath [lineStart, gaps, word "import", gaps1, group (some1 256 (isAlnumOr "_."))] ]

/-- A type, a name, parameters, an optional list of exceptions or a call of another constructor, and
the brace of the body. -/
def typedMethod : Rule :=
  callLike
    [lineStart, gaps, one (fun c => c.isAlpha || anyOf "_$@" c),
     atMost 191 (isAlnumOr "_$<>[],.?@ \t"), one isGap, name, gaps, arguments 512, lineGaps,
     opt
      (seq (word "throws") (alt (seq gaps1 (some1 256 (isAlnumOr "_$., \t"))) (stretch isGap 2))),
     opt (cat [char ':', gaps, words ["base", "this"], gaps, arguments 256, lineGaps]), char '{']

def java : List Rule :=
  [ typedMethod,
    simple .classType [wordEdge, words ["class", "interface", "enum", "record"], gaps1, name],
    simple .importPath
      [lineStart, gaps, word "import", gaps1, modifier "static",
        group (some1 256 (isAlnumOr "_$.*")), gaps,
       char ';'] ]

def csharp : List Rule :=
  [ typedMethod,
    simple .classType
      [wordEdge, words ["class", "interface", "struct", "record", "enum"], gaps1, name],
    simple .importPath
      [lineStart, gaps, word "using", gaps1, modifier "static",
        group (some1 256 (isAlnumOr "_.")), gaps,
       char ';'] ]

def headerFile : Rule :=
  simple .importPath
    [lineStart, gaps, char '#', gaps, word "include", gaps, one (anyOf "<\""),
     group (some1 256 (noneOf "<>\"\n")), one (anyOf ">\"")]

def c : List Rule :=
  [ callLike
      [lineStart, gaps, one (fun c => c.isAlpha || c = '_'), atMost 127 (isAlnumOr "_ \t*"),
       one (anyOf " \t*"), name, gaps, arguments 512, lineGaps, char '{'],
    headerFile ]

def qualifier (text : String) : Pattern := opt (seq (word text) lineGaps)

def cpp : List Rule :=
  [ callLike
      [lineStart, gaps, one (fun c => c.isAlpha || c = '_'), atMost 127 (isAlnumOr "_:<>, \t*&"),
       one (anyOf " \t*&"), upTo 4 (seq identifier (word "::")), name, gaps,
         arguments 512, lineGaps,
       qualifier "const", qualifier "noexcept", qualifier "override", char '{'],
    simple .classType [wordEdge, words ["class", "struct"], gaps1, name],
    headerFile ]

def php : List Rule :=
  [ simple .function
      [wordEdge, word "function", gaps1, opt (seq (char '&') gaps), name, gaps, char '('],
    simple .classType [wordEdge, words ["class", "interface", "trait", "enum"], gaps1, name],
    simple .importPath
      [lineStart, gaps, word "use", gaps1, group (some1 256 (isAlnumOr "_\\")), gaps,
       opt (cat [word "as", gaps1, identifier, gaps]), char ';'],
    simple .importPath
      [wordEdge, words ["require", "include"], opt (word "_once"), gaps,
       opt (seq (char '(') gaps), quotedPath] ]

def ruby : List Rule :=
  [ simple .function [lineStart, gaps, word "def", gaps1, opt (word "self."), name],
    simple .classType [lineStart, gaps, words ["class", "module"], gaps1, name],
    simple .importPath
      [lineStart, gaps, word "require", opt (word "_relative"),
        stretch (anyOf " \t(") 0, quotedPath] ]

def typeParameters : Pattern := bracketed '[' ']' 256 (noneOf "[]\n")

def go : List Rule :=
  [ simple .function
      [lineStart, word "func", gaps,
        opt (seq (bracketed '(' ')' 256 (noneOf "()\n")) gaps), name, gaps,
       opt (seq typeParameters gaps), char '('],
    simple .classType
      [lineStart, word "type", gaps1, name, alt (cat [gaps, typeParameters, gaps1]) gaps1,
       words ["struct", "interface"], wordEdge],
    simple .importPath
      [lineStart, word "import", gaps1, opt (seq (some1 64 (isAlnumOr "_.")) gaps1), char '"',
       group (some1 256 (noneOf "\"\n")), char '"'],
    ⟨.importPath, .quotedPaths,
      cat [lineStart, word "import", gaps, char '(', group (atMost 2048 (noneOf "()")), char ')'],
        []⟩ ]

def visibility : Pattern :=
  opt (cat [word "pub", opt (cat [char '(', some1 64 (isAlnumOr "_: "), char ')']), gaps1])

def rust : List Rule :=
  [ simple .function
      [lineStart, gaps, visibility,
       upTo 3
        (seq
          (choice
            [word "const", word "async", word "unsafe",
             seq (word "extern") (opt (cat [gaps1, char '"', some1 16 (isAlnumOr "-"), char '"']))])
          gaps1),
       word "fn", gaps1, name],
    simple .classType
      [lineStart, gaps, visibility, words ["struct", "enum", "trait", "union"], gaps1, name],
    simple .importPath
      [lineStart, gaps, visibility, word "use", gaps1, group (some1 256 (isAlnumOr "_:"))] ]

def table : Language → List Rule
  | .javascript => javascript
  | .typescript => javascript
  | .python => python
  | .java => java
  | .c => c
  | .cpp => cpp
  | .csharp => csharp
  | .php => php
  | .ruby => ruby
  | .go => go
  | .rust => rust

end Rule

end DocGap
