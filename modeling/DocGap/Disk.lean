import DocGap.Path

/-!
# Disks

What an attempt on a file needs of the place where files are kept: four calls, each of which may
fail.
-/
namespace DocGap

inductive SystemError where
  | noEntry | isDirectory | notDirectory | tooManyLinks
deriving DecidableEq, Repr

def SystemError.message : SystemError → String
  | noEntry => "No such file or directory (os error 2)"
  | isDirectory => "Is a directory (os error 21)"
  | notDirectory => "Not a directory (os error 20)"
  | tooManyLinks => "Too many levels of symbolic links (os error 40)"

inductive DiskError where
  | noSuchFile
  | system (cause : SystemError)
  | injected (message : String)
deriving DecidableEq, Repr

def DiskError.message : DiskError → String
  | noSuchFile => "no such file"
  | system cause => cause.message
  | injected message => message

/-- Calls on a disk whose state is of type `σ`. A copy and a write replace what is there, and a
write does so at once. -/
structure Disk (σ : Type) where
  read : Path → σ → Except DiskError ByteArray × σ
  copy : Path → Path → σ → Except DiskError Unit × σ
  write : Path → ByteArray → σ → Except DiskError Unit × σ
  remove : Path → σ → Except DiskError Unit × σ

end DocGap
