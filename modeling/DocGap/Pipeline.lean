import DocGap.Mutation
import DocGap.Payload.Reader
import DocGap.Request
import DocGap.Settings
import DocGap.SourceFile
import DocGap.Tree

/-!
# Batches of files

A batch is outlined as a whole before anything is written. Answers are asked for once, and only if
some file has a gap. Then the files are dealt with one after the other; a file that fails does not
stop the others, and a file that is named again is left alone.
-/
namespace DocGap

/-- What a batch is given: reading files and telling them apart, a disk to write to, and
someone to ask. -/
structure Access (σ : Type) where
  read : Path → σ → Except SystemError ByteArray
  place? : Path → σ → Option Tree.Place
  disk : Disk σ
  ask : List FileGaps → σ → Option Payload × σ

namespace Pipeline

inductive Mode where
  | apply | preview
deriving DecidableEq, Repr

inductive Error where
  | extract (cause : ExtractError)
  | mutation (cause : MutationError)
deriving DecidableEq, Repr

def Error.message : Error → String
  | extract cause => cause.message
  | mutation cause => cause.message

inductive Status where
  | unchanged
  | applied (report : Mutation.Report)
  | previewed (preview : Preview)
  | failed (error : Error)
deriving DecidableEq, Repr

structure Outcome where
  path : Path
  missing : Nat
  status : Status
deriving DecidableEq, Repr

def Outcome.isFailure (o : Outcome) : Bool :=
  match o.status with
  | .failed _ => true
  | _ => false

structure Analysis where
  outlines : List Outline
  failures : List ExtractError
deriving DecidableEq, Repr

variable {σ : Type}

def outline (access : Access σ) (s : σ) (path : Path) : Except ExtractError Outline :=
  Outline.ofFile path (access.read path s)

def analyze (access : Access σ) (paths : List Path) (s : σ) : Analysis :=
  let found := paths.map (outline access s)
  ⟨found.filterMap Except.toOption,
   found.filterMap fun
    | .ok _ => none
    | .error e => some e⟩

def Analysis.gaps (window : Nat) (a : Analysis) : List FileGaps :=
  a.outlines.map (.ofOutline window)

def key (access : Access σ) (s : σ) (path : Path) : Tree.Key := .of path (access.place? path s)

inductive Slot where
  | settled (outcome : Outcome)
  | pending (file : FileGaps)

def Slot.file? : Slot → Option FileGaps
  | settled _ => none
  | pending file => some file

def slot (access : Access σ) (window : Nat) (s : σ) (path : Path) : Slot :=
  match outline access s path with
  | .ok o => .pending (.ofOutline window o)
  | .error e => .settled ⟨path, 0, .failed (.extract e)⟩

/-- The slots of a batch; `seen` holds the files that came before. -/
def slots (access : Access σ) (window : Nat) (s : σ) (seen : List Tree.Key) : List Path → List Slot
  | [] => []
  | path :: rest =>
    let own := key access s path
    if seen.contains own then
      .settled ⟨path, 0, .unchanged⟩ :: slots access window s seen rest
    else slot access window s path :: slots access window s (own :: seen) rest

def fetch (access : Access σ) (files : List FileGaps) (s : σ) : Payload × σ :=
  match files.filter (!·.isEmpty) with
  | [] => (.empty, s)
  | waiting =>
    let (answer, s) := access.ask waiting s
    (answer.getD .empty, s)

def runFile (access : Access σ) (settings : Settings) (mode : Mode) (payload : Payload)
    (file : FileGaps) (s : σ) : Outcome × σ :=
  let path := file.outline.path
  let batch := Synthesis.insertions settings.synthesis payload file
  if batch.isEmpty then (⟨path, file.missingCount, .unchanged⟩, s)
  else match mode with
    | .apply =>
      match Mutation.apply access.disk settings.mutation path batch s with
      | (.ok report, s) => (⟨path, file.missingCount, .applied report⟩, s)
      | (.error e, s) => (⟨path, file.missingCount, .failed (.mutation e)⟩, s)
    | .preview =>
      match Mutation.preview access.disk settings.mutation path batch s with
      | (.ok preview, s) => (⟨path, file.missingCount, .previewed preview⟩, s)
      | (.error e, s) => (⟨path, file.missingCount, .failed (.mutation e)⟩, s)

def runSlots (access : Access σ) (settings : Settings) (mode : Mode) (payload : Payload) :
    List Slot → σ → List Outcome × σ
  | [], s => ([], s)
  | .settled outcome :: rest, s =>
    let (outcomes, s) := runSlots access settings mode payload rest s
    (outcome :: outcomes, s)
  | .pending file :: rest, s =>
    let (outcome, s) := runFile access settings mode payload file s
    let (outcomes, s) := runSlots access settings mode payload rest s
    (outcome :: outcomes, s)

/-- One outcome for every path, in order. -/
def run (access : Access σ) (settings : Settings) (mode : Mode) (paths : List Path) (s : σ) :
    List Outcome × σ :=
  let prepared := slots access settings.analysisWindow s [] paths
  let (payload, s) := fetch access (prepared.filterMap Slot.file?) s
  runSlots access settings mode payload prepared s

end Pipeline

inductive Advisor where
  | nobody
  | file (path : Path)
  | fixed (payload : Payload)

namespace Advisor

/-- A file that cannot be read, or that holds no payload, gives no answers. -/
def payload? (t : Tree) : Advisor → Option Payload
  | nobody => none
  | fixed payload => some payload
  | file path =>
    match t.read path with
    | .error _ => none
    | .ok bytes =>
      match Text.decode bytes with
      | .error _ => none
      | .ok text => (Payload.read? text).toOption

end Advisor

def Access.ofTree (advisor : Advisor) : Access Tree where
  read path t := t.read path
  place? path t := (t.resolve path).toOption
  disk := Tree.disk
  ask _ t := (advisor.payload? t, t)

end DocGap
