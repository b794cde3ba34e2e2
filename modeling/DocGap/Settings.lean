import DocGap.Mutation
import DocGap.Toml.Reader

/-!
# Settings

How large the windows are, what a backup is called, and how blocks are written. A section of the
settings is a table, or an array that gives its values in order. What is not given takes its
standard value; a key that does not exist is refused.
-/
namespace DocGap

structure Settings where
  analysisWindow : Nat
  mutation : Mutation.Options
  synthesis : Synthesis.Options
deriving DecidableEq, Repr

namespace Settings

def standard : Settings := ⟨Gap.defaultWindow, .standard, ⟨false, .english⟩⟩

def maxWindow : Nat := 1000

inductive Issue where
  | windowOutOfRange (field : String) (value : Nat)
  | suffixEmpty (suffix : String)
  | suffixWithoutDot (suffix : String)
  | suffixWithSeparator (suffix : String)
deriving DecidableEq, Repr

def Issue.message : Issue → String
  | windowOutOfRange field value =>
    "'" ++ field ++ "' must be between 1 and " ++ toString maxWindow ++ ", got " ++ toString value
  | suffixEmpty suffix => "backup suffix '" ++ suffix ++ "' must not be empty"
  | suffixWithoutDot suffix => "backup suffix '" ++ suffix ++ "' must start with '.'"
  | suffixWithSeparator suffix =>
    "backup suffix '" ++ suffix ++ "' must not contain a path separator"

def windowIssues (field : String) (value : Nat) : List Issue :=
  if 1 ≤ value ∧ value ≤ maxWindow then [] else [.windowOutOfRange field value]

def suffixIssues (suffix : String) : List Issue :=
  (match suffix.toList with
    | [] => [.suffixEmpty suffix]
    | c :: _ => if c = '.' then [] else [.suffixWithoutDot suffix]) ++
  if suffix.toList.any fun c => c = '/' || c = '\\' then [.suffixWithSeparator suffix] else []

def issues (s : Settings) : List Issue :=
  windowIssues "analysis.window" s.analysisWindow ++
    windowIssues "mutation.window" s.mutation.window ++ suffixIssues s.mutation.backupSuffix

def issuesText (found : List Issue) : String := "\n".intercalate (found.map Issue.message)

open Toml (Node Entries)

def fields? (keys : List String) : Option Node → Option (List (Option Node))
  | none => some (keys.map fun _ => none)
  | some (.table _ entries) =>
    if entries.all (keys.contains ·.1) then some (keys.map (Entries.get? entries)) else none
  | some (.array items) => some ((List.range keys.length).map (items[·]?))
  | some _ => none

def orStandard {α : Type} (standard : α) (read : Node → Option α) : Option Node → Option α
  | none => some standard
  | some node => read node

def natural? : Node → Option Nat
  | .integer n => if 0 ≤ n then some n.toNat else none
  | _ => none

def text? : Node → Option String
  | .text s => some s
  | _ => none

def boolean? : Node → Option Bool
  | .boolean b => some b
  | _ => none

def isEmptyNode : Node → Bool
  | .table _ entries => entries.isEmpty
  | .array items => items.isEmpty
  | _ => false

/-- A locale is given by its tag, or by a table with the tag as its only key and nothing in it. -/
def locale? : Node → Option Locale
  | .text tag => Locale.ofTag? tag
  | .table _ [(tag, node)] => if isEmptyNode node then Locale.ofTag? tag else none
  | _ => none

def ofEntries? (entries : Entries) : Option Settings := do
  let sections ← fields? ["analysis", "mutation", "synthesis"] (some (.table .header entries))
  match sections with
  | [analysis, mutation, synthesis] =>
    match ← fields? ["window"] analysis, ← fields? ["window", "backup_suffix"] mutation,
        ← fields? ["functions_only", "locale"] synthesis with
    | [analysisWindow], [window, suffix], [functionsOnly, locale] =>
      some
        { analysisWindow := ← orStandard Gap.defaultWindow natural? analysisWindow
          mutation :=
            ⟨← orStandard Gap.defaultWindow natural? window,
             ← orStandard Mutation.defaultBackupSuffix text? suffix⟩
          synthesis :=
            ⟨← orStandard false boolean? functionsOnly, ← orStandard .english locale? locale⟩ }
    | _, _, _ => none
  | _ => none

inductive Source where
  | inline
  | file (path : Path)
deriving DecidableEq, Repr

def Source.text : Source → String
  | inline => "inline neandoc config"
  | file path => path.spelling

def Source.path? : Source → Option Path
  | inline => none
  | file path => some path

/-- Why settings cannot be had. `reason` tells why a file is not read as text. -/
inductive Error where
  | read (path : Path) (reason : String)
  | parse (source : Source)
  | invalid (source : Source) (found : List Issue)
deriving DecidableEq, Repr

def Error.message : Error → String
  | read path reason => "cannot read " ++ path.spelling ++ ": " ++ reason
  | parse source => source.text ++ " is not valid neandoc TOML:"
  | invalid source found => source.text ++ " was rejected: " ++ issuesText found

def Error.cause? : Error → Option String
  | read _ reason => some reason
  | parse _ => none
  | invalid _ found => some (issuesText found)

def Error.path? : Error → Option Path
  | read path _ => some path
  | parse source => source.path?
  | invalid source _ => source.path?

def ofText (source : Source) (text : String) : Except Error Settings :=
  match (Toml.read? text).bind ofEntries? with
  | none => .error (.parse source)
  | some settings =>
    match settings.issues with
    | [] => .ok settings
    | found => .error (.invalid source found)

end Settings

end DocGap
