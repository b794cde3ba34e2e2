import DocGap.Plan

/-!
# Previews

A preview shows what a batch would do to a file: every block with the lines around it, and every
insertion that would be left out.
-/
namespace DocGap

structure Preview where
  file : Path
  old : String
  result : String
  applied : List Plan.Applied
  skipped : List Plan.Skipped
deriving DecidableEq, Repr

namespace Preview

def contextLines : Nat := 2

def isNoop (p : Preview) : Bool := p.applied.isEmpty

def lineNumber (width n : Nat) : String :=
  let digits := toString n
  String.ofList (List.replicate (width - digits.length) ' ') ++ digits

def lineText (i : Nat) (inserted : Bool) (line : List Char) : String :=
  lineNumber 6 (i + 1) ++ (if inserted then " >>> " else "     ") ++
    String.ofList (Text.dropEndWhile (· = '\r') line) ++ "\n"

def targetText (t : Target) : String := t.name ++ " (" ++ t.kind.tag ++ ")"

def appliedText (lines : Array (List Char)) (a : Plan.Applied) : String :=
  let first := a.startLine - 1
  let last := min (first + a.lineCount) lines.size
  let start := first - contextLines
  let shown := (lines.extract start (last + contextLines)).toList
  "@@ " ++ targetText a.target ++ " before line " ++ toString a.insertionLine ++ "\n" ++
    String.join ((shown.zipIdx start).map fun (line, i) =>
      lineText i (decide (first ≤ i ∧ i < last)) line)

def skippedText (s : Plan.Skipped) : String :=
  "skipped " ++ targetText s.target ++ " at line " ++ toString s.insertionLine ++ ": " ++
    s.reason.message ++ "\n"

def render (p : Preview) : String :=
  p.file.spelling ++ ": " ++ toString p.applied.length ++ " insertion(s), " ++
    toString p.skipped.length ++ " skipped\n" ++
    String.join (p.applied.map (appliedText (Text.splitLines p.result.toList).toArray)) ++
    String.join (p.skipped.map skippedText)

end Preview

end DocGap
