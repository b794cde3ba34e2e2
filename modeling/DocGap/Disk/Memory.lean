import DocGap.Disk

/-!
# A disk in memory

Files are kept under their paths. Calls on a path that holds no file fail.
-/
namespace DocGap

structure Memory where
  files : List (Path × ByteArray)

namespace Memory

def get? (m : Memory) (p : Path) : Option ByteArray := (m.files.find? (·.1 = p)).map (·.2)

def erase (m : Memory) (p : Path) : Memory := ⟨m.files.filter (·.1 ≠ p)⟩

def put (m : Memory) (p : Path) (bytes : ByteArray) : Memory := ⟨(m.erase p).files ++ [(p, bytes)]⟩

def disk : Disk Memory where
  read p m := match m.get? p with
    | some bytes => (.ok bytes, m)
    | none => (.error .noSuchFile, m)
  copy source target m := match m.get? source with
    | some bytes => (.ok (), m.put target bytes)
    | none => (.error .noSuchFile, m)
  write p bytes m := (.ok (), m.put p bytes)
  remove p m := match m.get? p with
    | some _ => (.ok (), m.erase p)
    | none => (.error .noSuchFile, m)

@[simp] theorem get?_erase_self (m : Memory) (p : Path) : (m.erase p).get? p = none := by
  simp [get?, erase]

theorem get?_erase_of_ne (m : Memory) {p q : Path} (h : q ≠ p) : (m.erase p).get? q = m.get? q := by
  simp only [get?, erase, List.find?_filter]
  congr 2
  funext entry
  by_cases hq : entry.1 = q <;> simp [hq, h]

@[simp] theorem get?_put_self (m : Memory) (p : Path) (bytes : ByteArray) :
    (m.put p bytes).get? p = some bytes := by
  have := get?_erase_self m p
  simp only [get?, Option.map_eq_none_iff] at this
  simp [get?, put, List.find?_append, this]

theorem get?_put_of_ne (m : Memory) {p q : Path} (bytes : ByteArray) (h : q ≠ p) :
    (m.put p bytes).get? q = m.get? q := by
  rw [← get?_erase_of_ne m h]
  simp [get?, put, List.find?_append, Ne.symm h]

end Memory

end DocGap
