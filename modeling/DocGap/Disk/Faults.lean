import DocGap.Disk

/-!
# Faulty disks

A schedule of faults makes chosen calls of a disk go wrong: they fail, or they hand on one byte too
many. A write can also fail with its first half written. Every call is counted and recorded, the
faulty ones too.
-/
namespace DocGap

inductive CallKind where
  | read | copy | write | remove
deriving DecidableEq, Repr

inductive Call where
  | read (path : Path)
  | copy (source target : Path)
  | write (path : Path) (size : Nat)
  | remove (path : Path)
deriving DecidableEq, Repr

namespace Call

def kind : Call → CallKind
  | read _ => .read
  | copy _ _ => .copy
  | write _ _ => .write
  | remove _ => .remove

def text : Call → String
  | read path => "read " ++ path.spelling
  | copy source target => "copy " ++ source.spelling ++ " -> " ++ target.spelling
  | write path size => "write " ++ path.spelling ++ " (" ++ toString size ++ " bytes)"
  | remove path => "remove " ++ path.spelling

end Call

inductive Effect where
  | fail
  /-- The call succeeds with one more byte in what is read, copied or written. -/
  | flip
  /-- A write stores the first half of the bytes and fails. Any other call just fails. -/
  | torn
deriving DecidableEq, Repr

/-- The call of that kind with number `nth`, counted from one, goes wrong. -/
structure DiskFault where
  kind : CallKind
  nth : Nat
  effect : Effect
  message : String
deriving DecidableEq, Repr

structure Faulty (σ : Type) where
  state : σ
  calls : List Call

namespace Faulty

variable {σ : Type}

def start (state : σ) : Faulty σ := ⟨state, []⟩

def count (f : Faulty σ) (kind : CallKind) : Nat := f.calls.countP (·.kind = kind)

def record (f : Faulty σ) (call : Call) : Faulty σ := { f with calls := call :: f.calls }

/-- The fault that hits the next call of that kind: the first one in the schedule. -/
def fault? (schedule : List DiskFault) (f : Faulty σ) (kind : CallKind) : Option DiskFault :=
  schedule.find? fun fault => fault.kind = kind && fault.nth = f.count kind + 1

def extraByte : ByteArray := ⟨#[0x58]⟩

def firstHalf (bytes : ByteArray) : ByteArray := bytes.extract 0 (bytes.size / 2)

def lift {α : Type} (f : Faulty σ) (call : Call) (result : α × σ) : α × Faulty σ :=
  (result.1, { f.record call with state := result.2 })

def refuse {α : Type} (f : Faulty σ) (call : Call) (fault : DiskFault) :
    Except DiskError α × Faulty σ :=
  (.error (.injected fault.message), f.record call)

def readWith (disk : Disk σ) (fault : Option DiskFault) (p : Path) (f : Faulty σ) :
    Except DiskError ByteArray × Faulty σ :=
  match fault with
  | none => f.lift (.read p) (disk.read p f.state)
  | some fault =>
    if fault.effect = .flip then
      let (result, state) := disk.read p f.state
      f.lift (.read p) (result.map (· ++ extraByte), state)
    else f.refuse (.read p) fault

def copyAndExtend (disk : Disk σ) (source target : Path) (s : σ) : Except DiskError Unit × σ :=
  match disk.copy source target s with
  | (.error e, s) => (.error e, s)
  | (.ok (), s) =>
    match disk.read target s with
    | (.error e, s) => (.error e, s)
    | (.ok bytes, s) => disk.write target (bytes ++ extraByte) s

def copyWith (disk : Disk σ) (fault : Option DiskFault) (source target : Path) (f : Faulty σ) :
    Except DiskError Unit × Faulty σ :=
  match fault with
  | none => f.lift (.copy source target) (disk.copy source target f.state)
  | some fault =>
    if fault.effect = .flip then
      f.lift (.copy source target) (copyAndExtend disk source target f.state)
    else f.refuse (.copy source target) fault

def writeWith (disk : Disk σ) (fault : Option DiskFault) (p : Path)
    (bytes : ByteArray) (f : Faulty σ) :
    Except DiskError Unit × Faulty σ :=
  let call := Call.write p bytes.size
  match fault with
  | none => f.lift call (disk.write p bytes f.state)
  | some fault =>
    match fault.effect with
    | .flip => f.lift call (disk.write p (bytes ++ extraByte) f.state)
    | .fail => f.refuse call fault
    | .torn =>
      let (_, state) := disk.write p (firstHalf bytes) f.state
      f.lift call (.error (.injected fault.message), state)

def removeWith (disk : Disk σ) (fault : Option DiskFault) (p : Path) (f : Faulty σ) :
    Except DiskError Unit × Faulty σ :=
  match fault with
  | none => f.lift (.remove p) (disk.remove p f.state)
  | some fault =>
    if fault.effect = .flip then f.lift (.remove p) (disk.remove p f.state)
    else f.refuse (.remove p) fault

def disk (base : Disk σ) (schedule : List DiskFault) : Disk (Faulty σ) where
  read p f := readWith base (f.fault? schedule .read) p f
  copy source target f := copyWith base (f.fault? schedule .copy) source target f
  write p bytes f := writeWith base (f.fault? schedule .write) p bytes f
  remove p f := removeWith base (f.fault? schedule .remove) p f

end Faulty

end DocGap
