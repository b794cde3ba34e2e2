import DocGap.Cli.Arguments
import DocGap.Cli.Paint
import DocGap.Collection
import DocGap.LineDiff
import DocGap.Pipeline
import DocGap.Settings.Discovery
import DocGap.Ticker

/-!
# The commands

A command line is carried out on a tree of files. It gives an exit code, two texts and the tree
afterwards.
-/
namespace DocGap.Cli

structure Output where
  code : Nat
  out : String
  err : String
deriving DecidableEq, Repr

def versionText : String := "neandoc 0.1.0\n"

/-- Nothing is said about a command line that makes no sense. -/
def usageError : Output := ⟨2, "", ""⟩

def setIn (text : String) : String :=
  String.join ((text.splitOn "\n").map fun line => "    " ++ line ++ "\n")

def settingsFailure (e : Settings.Error) : Output :=
  match e.cause? with
  | none => ⟨1, "", "Error: " ++ e.message⟩
  | some cause => ⟨1, "", "Error: " ++ e.message ++ "\n\nCaused by:\n" ++ setIn cause⟩

def mark (colours : Bool) (c : Colour) (sign : String) : String := Paint.paint colours c sign ++ " "

def cross (colours : Bool) : String := mark colours .red "✗"

def tick (colours : Bool) : String := mark colours .green "✓"

def painted (colours : Bool) (c : Colour) (n : Nat) : String := Paint.paint colours c (toString n)

/-! ### Analysis -/

def gapLine (g : Gap) : String :=
  "    line " ++ Preview.lineNumber 5 g.element.line ++ "  " ++ g.element.kind.tag ++ " " ++
    g.element.name ++ "\n"

def fileText (colours : Bool) (f : FileGaps) : String :=
  let path := f.outline.path.spelling
  if f.isEmpty then
    tick colours ++ path ++ ": " ++ toString f.examined ++ " element(s) documented\n"
  else
    cross colours ++ path ++ ": " ++ toString f.gaps.length ++ " of " ++ toString f.examined ++
      " element(s) need documentation\n" ++ String.join (f.gaps.map gapLine)

def summaryTitle (colours : Bool) : String := "\n" ++ Paint.paint colours .bold "Summary:" ++ "\n"

def total {α : Type} (xs : List α) (count : α → Nat) : Nat := xs.foldl (fun n x => n + count x) 0

def analysisSummary (colours : Bool) (gaps : List FileGaps) (failed : Nat) : String :=
  summaryTitle colours ++
    "  " ++ toString gaps.length ++ " file(s) scanned\n" ++
    "  " ++ toString (total gaps FileGaps.examined) ++ " element(s)\n" ++
    "  " ++ painted colours .yellow (total gaps (·.missingTechnical.length)) ++
      " missing technical explanation\n" ++
    "  " ++ painted colours .yellow (total gaps (·.missingSimple.length)) ++
      " missing simple explanation\n" ++
    "  " ++ painted colours .red failed ++ " failed\n"

def rule (colours : Bool) : String :=
  Paint.paint colours .dimmed (String.ofList (List.replicate 60 '=')) ++ "\n"

def requestText (colours : Bool) (gaps : List FileGaps) : String :=
  "\n" ++ rule colours ++ Request.render gaps ++ rule colours ++
    Paint.paint colours .cyan
      "Save the JSON answer to a file, then run: neandoc apply <paths> --payload <file>" ++ "\n"

def analyze (colours : Bool) (settings : Settings) (paths : List Path) (request : Bool) (t : Tree) :
    Output :=
  let analysis := Pipeline.analyze (.ofTree .nobody) (Collection.files t paths) t
  let gaps := analysis.gaps settings.analysisWindow
  let out := String.join (gaps.map (fileText colours)) ++
    analysisSummary colours gaps analysis.failures.length ++
    if request then requestText colours gaps else ""
  let err := String.join (analysis.failures.map fun e => cross colours ++ e.message ++ "\n")
  ⟨if analysis.failures.isEmpty then 0 else 1, out, err⟩

/-! ### Insertion -/

def diffText (colours : Bool) (path : Path) (old new : String) : String :=
  "\n" ++ Paint.paint colours .dimmed ("--- " ++ path.spelling ++ " (original)") ++ "\n" ++
    Paint.paint colours .dimmed ("+++ " ++ path.spelling ++ " (documented)") ++ "\n" ++
    String.join ((LineDiff.addedLines old new).map fun line =>
      Paint.paint colours .green ("+" ++ line))

def text? (t : Tree) (path : Path) : Option String :=
  (t.read path).toOption.bind fun bytes => (Text.decode bytes).toOption

def skippedLine (colours : Bool) (s : Plan.Skipped) : String :=
  "    " ++ mark colours .cyan "⊘" ++ s.target.name ++ " (" ++ s.reason.message ++ ")\n"

def outcomeText (colours diff : Bool) (before after : Tree) (o : Pipeline.Outcome) : String :=
  let path := o.path.spelling
  match o.status with
  | .unchanged => mark colours .yellow "⊙" ++ path ++ ": nothing to insert\n"
  | .applied report =>
    tick colours ++ path ++ ": inserted " ++ toString report.applied.length ++ " block(s)\n" ++
      String.join (report.skipped.map (skippedLine colours)) ++
      match diff && report.changed, text? before o.path, text? after o.path with
      | true, some old, some new => diffText colours o.path old new
      | _, _, _ => ""
  | .previewed preview =>
    tick colours ++ path ++ ": would insert " ++ toString preview.applied.length ++ " block(s)\n" ++
      if diff then diffText colours preview.file preview.old preview.result else preview.render
  | .failed _ => ""

def failureText (colours : Bool) (o : Pipeline.Outcome) : String :=
  match o.status with
  | .failed e => cross colours ++ o.path.spelling ++ ": " ++ e.message ++ "\n"
  | _ => ""

def insertedCount (o : Pipeline.Outcome) : Nat :=
  match o.status with
  | .applied report => report.applied.length
  | .previewed preview => preview.applied.length
  | _ => 0

def skippedCount (o : Pipeline.Outcome) : Nat :=
  match o.status with
  | .applied report => report.skipped.length
  | .previewed preview => preview.skipped.length
  | _ => 0

def isUnchanged (o : Pipeline.Outcome) : Bool :=
  match o.status with
  | .unchanged => true
  | _ => false

def insertionSummary (colours dryRun : Bool) (outcomes : List Pipeline.Outcome) : String :=
  summaryTitle colours ++
    "  " ++ painted colours .green (total outcomes insertedCount) ++
      (if dryRun then " to insert\n" else " inserted\n") ++
    "  " ++ painted colours .cyan (total outcomes skippedCount) ++ " skipped\n" ++
    "  " ++ painted colours .yellow (outcomes.countP isUnchanged) ++ " file(s) unchanged\n" ++
    "  " ++ painted colours .red (outcomes.countP (·.isFailure)) ++ " failed\n"

def dryRunTitle (colours : Bool) : String :=
  Paint.paint colours .cyan "[DRY RUN - showing what would be inserted]" ++ "\n"

def restrict (s : Settings) (onlyFunctions : Bool) : Settings :=
  { s with synthesis := { s.synthesis with
      functionsOnly := s.synthesis.functionsOnly || onlyFunctions } }

def apply (colours : Bool) (settings : Settings) (paths : List Path) (payload : Option Path)
    (dryRun diff onlyFunctions : Bool) (t : Tree) : Output × Tree :=
  let advisor := match payload with
    | some path => Advisor.file path
    | none => .nobody
  let mode := if dryRun then Pipeline.Mode.preview else .apply
  let (outcomes, after) := Pipeline.run (.ofTree advisor) (restrict settings onlyFunctions)
    mode (Collection.files t paths) t
  let out := (if dryRun then dryRunTitle colours else "") ++
    String.join (outcomes.map (outcomeText colours diff t after)) ++
    insertionSummary colours dryRun outcomes
  let err := String.join (outcomes.map (failureText colours))
  (⟨if outcomes.any (·.isFailure) then 1 else 0, out, err⟩, after)

/-! ### Watching -/

def watchTitle (colours : Bool) (paths interval : Nat) : String :=
  Paint.paint colours .cyan ("Watching " ++ toString paths ++ " path(s), scanning every " ++
    toString interval ++ " minute(s)") ++ "\n"

def scanText (colours : Bool) (settings : Settings) (paths : List Path) (t : Tree) (n : Nat) :
    String :=
  let gaps := (Pipeline.analyze (.ofTree .nobody) (Collection.files t paths) t).gaps
    settings.analysisWindow
  let missing := total gaps (·.gaps.length)
  if missing = 0 then tick colours ++ "scan " ++ toString n ++ ": all code is documented\n"
  else
    "\n" ++ cross colours ++ "scan " ++ toString n ++ ": " ++ toString missing ++
      " element(s) need documentation\n" ++ Request.render gaps

/-- All scans of a tree that does not change. A watch without a limit is followed for one scan. -/
def watch (colours : Bool) (settings : Settings) (paths : List Path) (interval : Nat)
    (maxRuns : Option Nat) (t : Tree) : Output :=
  let (scans, _) := Ticker.run (maxRuns.getD 1) ⟨false⟩
  ⟨0, watchTitle colours paths.length interval ++
    String.join (scans.map (scanText colours settings paths t)), ""⟩

/-! ### Command lines -/

def runCommand (colours : Bool) (settings : Settings) (t : Tree) : Command → Output × Tree
  | .analyze paths request => (analyze colours settings paths request t, t)
  | .apply paths payload dryRun diff onlyFunctions =>
    apply colours settings paths payload dryRun diff onlyFunctions t
  | .watch paths interval maxRuns => (watch colours settings paths interval maxRuns t, t)

def run (colours : Bool) (words : List String) (t : Tree) : Output × Tree :=
  match Arguments.read? words with
  | none => (usageError, t)
  | some .version => (⟨0, versionText, ""⟩, t)
  | some (.run named command) =>
    match Settings.discover t named t.homePath with
    | .error e => (settingsFailure e, t)
    | .ok settings => runCommand colours settings t command

end DocGap.Cli
