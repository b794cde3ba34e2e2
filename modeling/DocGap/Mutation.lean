import DocGap.Disk
import DocGap.Preview
import DocGap.Text.Decoding

/-!
# Attempts on a file

An attempt puts a batch of blocks into one file. It keeps a backup next to the file while it works.
If the batch names a line that does not exist, or the new content cannot be written, the old content
is put back from the backup and checked; the backup is kept if that does not succeed.
-/
namespace DocGap

namespace Mutation

inductive ReadFault where
  | disk (cause : DiskError)
  | undecodable (cause : Text.DecodingFault)
deriving DecidableEq, Repr

def ReadFault.message : ReadFault → String
  | disk cause => cause.message
  | undecodable cause => cause.message

inductive RestoreFault where
  | disk (cause : DiskError)
  | backupDiffers
  | restoredDiffers
deriving DecidableEq, Repr

def RestoreFault.message : RestoreFault → String
  | disk cause => cause.message
  | backupDiffers => "backup does not match the original content"
  | restoredDiffers => "restored file does not match the original content"

inductive Failure where
  | invalidInsertion (line lineCount : Nat)
  | commit (cause : DiskError)
deriving DecidableEq, Repr

def Failure.message (path : Path) : Failure → String
  | invalidInsertion line lineCount =>
    "insertion line " ++ toString line ++ " is outside " ++ path.spelling ++ " (" ++
      toString lineCount ++ " lines)"
  | commit cause => "failed to write " ++ path.spelling ++ ": " ++ cause.message

end Mutation

open Mutation in
inductive MutationError where
  | read (path : Path) (cause : ReadFault)
  | backup (path backup : Path) (cause : DiskError)
  /-- The old content is back in its place. -/
  | rolledBack (path : Path) (cause : Failure)
  /-- The file may hold anything; the backup is still there. -/
  | restoreFailed (path backup : Path) (cause : Failure) (fault : RestoreFault)
deriving DecidableEq, Repr

namespace MutationError

def path : MutationError → Path
  | read path _ => path
  | backup path _ _ => path
  | rolledBack path _ => path
  | restoreFailed path _ _ _ => path

def message : MutationError → String
  | read path cause => "failed to read " ++ path.spelling ++ ": " ++ cause.message
  | backup path copied cause =>
    "failed to back up " ++ path.spelling ++ " to " ++ copied.spelling ++ ": " ++ cause.message
  | rolledBack path cause => cause.message path
  | restoreFailed path kept cause fault =>
    "could not restore " ++ path.spelling ++ " from " ++ kept.spelling ++ " after error (" ++
      cause.message path ++ "): " ++ fault.message ++ "; the backup has been kept"

def state : MutationError → String
  | read _ _ | backup _ _ _ => "not started"
  | rolledBack _ _ => "restored"
  | restoreFailed _ _ _ _ => "restore failed"

def isCritical : MutationError → Bool
  | restoreFailed _ _ _ _ => true
  | _ => false

end MutationError

namespace Mutation

structure Report where
  file : Path
  applied : List Plan.Applied
  skipped : List Plan.Skipped
deriving DecidableEq, Repr

def Report.changed (r : Report) : Bool := !r.applied.isEmpty

def Report.state (_ : Report) : String := "cleaned up"

def defaultBackupSuffix : String := ".neandoc.backup"

structure Options where
  window : Nat
  backupSuffix : String
deriving DecidableEq, Repr

def Options.standard : Options := ⟨Gap.defaultWindow, defaultBackupSuffix⟩

def backupPath (options : Options) (path : Path) : Path := ⟨path.spelling ++ options.backupSuffix⟩

def styleFor (path : Path) : Comment.Style := .ofLanguage path.language?

def planFor (options : Options) (path : Path) (text : String) (batch : List Insertion) : Plan :=
  .ofBatch (styleFor path) options.window text batch

variable {σ : Type}

def readText (disk : Disk σ) (path : Path) (s : σ) : Except ReadFault (ByteArray × String) × σ :=
  match disk.read path s with
  | (.error e, s) => (.error (.disk e), s)
  | (.ok bytes, s) =>
    match Text.decode bytes with
    | .error fault => (.error (.undecodable fault), s)
    | .ok text => (.ok (bytes, text), s)

/-- Puts the content of the backup back and reads it again; both must be the old content. -/
def restore (disk : Disk σ) (path backup : Path) (old : ByteArray) (s : σ) :
    Except RestoreFault Unit × σ :=
  match disk.read backup s with
  | (.error e, s) => (.error (.disk e), s)
  | (.ok saved, s) =>
    if saved.data ≠ old.data then (.error .backupDiffers, s)
    else match disk.write path saved s with
      | (.error e, s) => (.error (.disk e), s)
      | (.ok (), s) =>
        match disk.read path s with
        | (.error e, s) => (.error (.disk e), s)
        | (.ok found, s) =>
          if found.data = old.data then (.ok (), s) else (.error .restoredDiffers, s)

def recover (disk : Disk σ) (path backup : Path) (old : ByteArray) (cause : Failure) (s : σ) :
    MutationError × σ :=
  match restore disk path backup old s with
  | (.ok (), s) => (.rolledBack path cause, (disk.remove backup s).2)
  | (.error fault, s) => (.restoreFailed path backup cause fault, s)

/-- Writes the plan, or goes back. Nothing is written if no block goes in. -/
def commit (disk : Disk σ) (path backup : Path) (old : ByteArray) (plan : Plan) (s : σ) :
    Except MutationError Report × σ :=
  match plan.outOfRange? with
  | some bad =>
    let (e, s) :=
      recover disk path backup old (.invalidInsertion bad.insertionLine plan.lineCount) s
    (.error e, s)
  | none =>
    let report : Report := ⟨path, plan.applied, plan.skipped⟩
    if plan.applied.isEmpty then (.ok report, (disk.remove backup s).2)
    else match disk.write path plan.content.toUTF8 s with
      | (.ok (), s) => (.ok report, (disk.remove backup s).2)
      | (.error e, s) =>
        let (e, s) := recover disk path backup old (.commit e) s
        (.error e, s)

/-- One attempt: read, back up, plan, write, remove the backup. -/
def apply (disk : Disk σ) (options : Options) (path : Path) (batch : List Insertion) (s : σ) :
    Except MutationError Report × σ :=
  let backup := backupPath options path
  match readText disk path s with
  | (.error cause, s) => (.error (.read path cause), s)
  | (.ok (old, text), s) =>
    match disk.copy path backup s with
    | (.error cause, s) => (.error (.backup path backup cause), s)
    | (.ok (), s) => commit disk path backup old (planFor options path text batch) s

def preview (disk : Disk σ) (options : Options) (path : Path) (batch : List Insertion) (s : σ) :
    Except MutationError Preview × σ :=
  match readText disk path s with
  | (.error cause, s) => (.error (.read path cause), s)
  | (.ok (_, text), s) =>
    let plan := planFor options path text batch
    (.ok ⟨path, text, plan.content, plan.applied, plan.skipped⟩, s)

end Mutation

end DocGap
