import DocGap.Gap
import DocGap.Payload.Printer

/-!
# Requests

A request shows every gap with the lines around it and ends with the payload to be filled in.
-/
namespace DocGap.Request

def linesBefore : Nat := 5

def linesFrom : Nat := 10

def lineLimit : Nat := 240

def shorten (line : List Char) : List Char :=
  (Text.dropEndWhile (· = '\r') line).take lineLimit

def context (lines : Array (List Char)) (line : Nat) : List Char :=
  let at0 := line - 1
  Text.joinLines ((lines.extract (at0 - linesBefore) (at0 + linesFrom)).toList.map shorten)

def missingText (g : Gap) : String :=
  if g.missingTechnical && g.missingSimple then "technical, simple"
  else if g.missingTechnical then "technical"
  else "simple"

def fence : String := "\x60\x60\x60"

def gapText (tag : String) (lines : Array (List Char)) (g : Gap) : String :=
  "### " ++ g.element.name ++ " (" ++ g.element.kind.tag ++ ") at line " ++
    toString g.element.line ++
    "\nMissing: " ++ missingText g ++ "\n" ++ fence ++ tag ++ "\n" ++
    String.ofList (context lines g.element.line) ++ "\n" ++ fence ++ "\n\n"

def fileText (f : FileGaps) : String :=
  let tag := (f.outline.language.map (·.tag)).getD ""
  let lines := (Text.splitLines f.outline.text.toList).toArray
  "## " ++ f.outline.path.spelling ++ "\n\n" ++ String.join (f.gaps.map (gapText tag lines))

def blankAnswer (path : Path) (g : Gap) : Answer :=
  ⟨path, g.element.name, some g.element.line, ⟨"", ""⟩⟩

def template (files : List FileGaps) : Payload :=
  ⟨files.flatMap fun f => f.gaps.map (blankAnswer f.outline.path)⟩

def header (files : List FileGaps) : String :=
  "NEANDOC DOCUMENTATION REQUEST\n\n" ++ toString (files.flatMap (·.gaps)).length ++
    " element(s) in " ++
    toString files.length ++ " file(s) need documentation. For each one, write a\n" ++
    "technical explanation for developers and a simple explanation using an\n" ++
    "everyday comparison.\n\n"

def answerFormat (files : List FileGaps) : String :=
  "## Answer format\n\n" ++
    "Answer with JSON only, filling in \"technical\" and \"simple\" for every entry:\n\n" ++
    fence ++ "json\n" ++ (template files).print ++ "\n" ++ fence ++ "\n"

def render (files : List FileGaps) : String :=
  let pending := files.filter (!·.isEmpty)
  if pending.isEmpty then "All functions and classes are documented.\n"
  else header pending ++ String.join (pending.map fileText) ++ answerFormat pending

end DocGap.Request
