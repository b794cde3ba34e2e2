import DocGap.Disk.Faults
import DocGap.Disk.Memory

/-!
# Calls of a faulty memory

What one call does to a memory under a schedule of faults. Every call is recorded. A call that
reports success has done its work with the bytes it was given, or with one byte more if the schedule
flips it. A call that reports an error has done nothing, except that a write may have left any bytes
at its own path.
-/
namespace DocGap

namespace Memory

theorem erase_put (m : Memory) (p : Path) (bytes : ByteArray) :
    (m.put p bytes).erase p = m.erase p := by
  simp [put, erase, List.filter_filter]

theorem put_put (m : Memory) (p : Path) (first second : ByteArray) :
    (m.put p first).put p second = m.put p second := by
  rw [put, erase_put, put]

end Memory

namespace Faulty

variable {σ : Type}

def flips (schedule : List DiskFault) (f : Faulty σ) (kind : CallKind) : Bool :=
  (f.fault? schedule kind).any (·.effect = .flip)

def handed (schedule : List DiskFault) (f : Faulty σ) (kind : CallKind)
    (bytes : ByteArray) : ByteArray :=
  if f.flips schedule kind then bytes ++ extraByte else bytes

@[simp] theorem state_record (f : Faulty σ) (call : Call) : (f.record call).state = f.state := rfl

@[simp] theorem calls_record (f : Faulty σ) (call : Call) :
    (f.record call).calls = call :: f.calls := rfl

theorem flips_of_calls (schedule : List DiskFault) (kind : CallKind) {f g : Faulty σ} {call : Call}
    (hcalls : g.calls = call :: f.calls) (h : call.kind ≠ kind) :
    g.flips schedule kind = f.flips schedule kind := by
  have hcount : g.count kind = f.count kind := by simp [count, hcalls, h]
  simp only [flips, fault?, hcount]

theorem handed_of_flips_eq_false {schedule : List DiskFault} {f : Faulty σ} {kind : CallKind}
    (h : f.flips schedule kind = false) (bytes : ByteArray) :
    f.handed schedule kind bytes = bytes := by
  simp [handed, h]

theorem flips_eq_false_of_forall {schedule : List DiskFault}
    (h : ∀ fault ∈ schedule, fault.effect ≠ .flip)
    (f : Faulty σ) (kind : CallKind) : f.flips schedule kind = false := by
  rw [flips, Option.any_eq_false]
  intro fault hfault
  have hmem := List.mem_of_find?_eq_some hfault
  simpa using h fault hmem

/-- The effect of the fault that hits the `n`th call of that kind from now on. -/
def hit (schedule : List DiskFault) (f : Faulty σ) (kind : CallKind) (n : Nat) : Option Effect :=
  (schedule.find? fun fault => fault.kind = kind && fault.nth = f.count kind + n).map (·.effect)

theorem hit_of_calls (schedule : List DiskFault) {f g : Faulty σ} (made : List Call)
    (h : g.calls = made ++ f.calls) (kind : CallKind) (n : Nat) :
    g.hit schedule kind n = f.hit schedule kind (made.countP (·.kind = kind) + n) := by
  have hcount : g.count kind + n = f.count kind + (made.countP (·.kind = kind) + n) := by
    rw [count, h, List.countP_append, count]
    omega
  rw [hit, hcount, hit]

theorem hit_ne_flip {schedule : List DiskFault} (h : ∀ fault ∈ schedule, fault.effect ≠ .flip)
    (f : Faulty σ) (kind : CallKind) (n : Nat) : f.hit schedule kind n ≠ some .flip := by
  intro hhit
  obtain ⟨fault, hfault, hflip⟩ := Option.map_eq_some_iff.1 hhit
  exact h fault (List.mem_of_find?_eq_some hfault) hflip

def leaves (before bytes : ByteArray) : Option Effect → ByteArray
  | none => bytes
  | some .flip => bytes ++ extraByte
  | some .torn => firstHalf bytes
  | some .fail => before

theorem handed_eq_of_handed_handed {schedule : List DiskFault} {f g : Faulty σ} {k l : CallKind}
    {bytes : ByteArray} (h : f.handed schedule k (g.handed schedule l bytes) = bytes) :
    g.handed schedule l bytes = bytes := by
  by_cases hg : g.flips schedule l
  · -- flips only add bytes, so that the second call cannot make up for the first
    have hx : extraByte.size = 1 := rfl
    have hs := congrArg ByteArray.size h
    by_cases hf : f.flips schedule
      k <;> simp only [handed, hg, hf, ↓reduceIte, ByteArray.size_append, hx,
      Bool.false_eq_true] at hs <;> omega
  · simp [handed, hg]

variable {schedule : List DiskFault} {f g : Faulty Memory}

theorem read_inv {p : Path} {r : Except DiskError ByteArray}
    (h : (disk Memory.disk schedule).read p f = (r, g)) :
    g = f.record (.read p) ∧
      ∀ bytes, r = .ok bytes → ∃ kept, f.state.get? p = some kept ∧
        bytes = f.handed schedule .read kept := by
  simp only [disk, readWith, Memory.disk] at h
  cases hf : f.fault? schedule .read with
  | none =>
    cases hk : f.state.get? p with
    | none =>
      simp only [hf, hk, lift, Prod.mk.injEq] at h
      obtain ⟨rfl, rfl⟩ := h
      exact ⟨rfl, by simp⟩
    | some kept =>
      simp only [hf, hk, lift, Prod.mk.injEq] at h
      obtain ⟨rfl, rfl⟩ := h
      exact ⟨rfl, fun bytes hb => ⟨kept, rfl, by simpa [handed, flips, hf, eq_comm] using hb⟩⟩
  | some fault =>
    by_cases he : fault.effect = .flip
    · cases hk : f.state.get? p with
      | none =>
        simp only [hf, he, hk, lift, Except.map, ↓reduceIte, Prod.mk.injEq] at h
        obtain ⟨rfl, rfl⟩ := h
        exact ⟨rfl, by simp⟩
      | some kept =>
        simp only [hf, he, hk, lift, Except.map, ↓reduceIte, Prod.mk.injEq] at h
        obtain ⟨rfl, rfl⟩ := h
        exact ⟨rfl, fun bytes hb => ⟨kept, rfl, by simpa [handed, flips, hf, he, eq_comm] using hb⟩⟩
    · simp only [hf, he, refuse, ↓reduceIte, Prod.mk.injEq] at h
      obtain ⟨rfl, rfl⟩ := h
      exact ⟨rfl, by simp⟩

theorem copy_inv {source target : Path} {r : Except DiskError Unit}
    (h : (disk Memory.disk schedule).copy source target f = (r, g)) :
    g.calls = .copy source target :: f.calls ∧
      ((∃ e, r = .error e ∧ g.state = f.state) ∨
        r = .ok () ∧ ∃ bytes, f.state.get? source = some bytes ∧
          g.state = f.state.put target (f.handed schedule .copy bytes)) := by
  simp only [disk, copyWith, Memory.disk] at h
  cases hf : f.fault? schedule .copy with
  | none =>
    cases hs : f.state.get? source with
    | none =>
      simp only [hf, hs, lift, Prod.mk.injEq] at h
      obtain ⟨rfl, rfl⟩ := h
      exact ⟨rfl, .inl ⟨_, rfl, rfl⟩⟩
    | some bytes =>
      simp only [hf, hs, lift, Prod.mk.injEq] at h
      obtain ⟨rfl, rfl⟩ := h
      exact ⟨rfl, .inr ⟨rfl, bytes, rfl, by simp [handed, flips, hf]⟩⟩
  | some fault =>
    by_cases he : fault.effect = .flip
    · cases hs : f.state.get? source with
      | none =>
        simp only [hf, he, hs, copyAndExtend, lift, ↓reduceIte, Prod.mk.injEq] at h
        obtain ⟨rfl, rfl⟩ := h
        exact ⟨rfl, .inl ⟨_, rfl, rfl⟩⟩
      | some bytes =>
        simp only [hf, he, hs, copyAndExtend, lift, ↓reduceIte,
          Memory.get?_put_self, Memory.put_put,
          Prod.mk.injEq] at h
        obtain ⟨rfl, rfl⟩ := h
        exact ⟨rfl, .inr ⟨rfl, bytes, rfl, by simp [handed, flips, hf, he]⟩⟩
    · simp only [hf, he, refuse, ↓reduceIte, Prod.mk.injEq] at h
      obtain ⟨rfl, rfl⟩ := h
      exact ⟨rfl, .inl ⟨_, rfl, rfl⟩⟩

theorem write_inv {p : Path} {bytes : ByteArray} {r : Except DiskError Unit}
    (h : (disk Memory.disk schedule).write p bytes f = (r, g)) :
    g.calls = .write p bytes.size :: f.calls ∧
      (r = .ok () → g.state = f.state.put p (f.handed schedule .write bytes)) ∧
      ∀ q, q ≠ p → g.state.get? q = f.state.get? q := by
  simp only [disk, writeWith, Memory.disk] at h
  cases hf : f.fault? schedule .write with
  | none =>
    simp only [hf, lift, Prod.mk.injEq] at h
    obtain ⟨rfl, rfl⟩ := h
    exact ⟨rfl, fun _ => by simp [handed, flips, hf], fun q hq => Memory.get?_put_of_ne _ _ hq⟩
  | some fault =>
    cases he : fault.effect with
    | flip =>
      simp only [hf, he, lift, Prod.mk.injEq] at h
      obtain ⟨rfl, rfl⟩ := h
      exact ⟨rfl, fun _ => by simp [handed, flips, hf, he], fun q hq =>
        Memory.get?_put_of_ne _ _ hq⟩
    | fail =>
      simp only [hf, he, refuse, Prod.mk.injEq] at h
      obtain ⟨rfl, rfl⟩ := h
      exact ⟨rfl, by simp, fun _ _ => rfl⟩
    | torn =>
      simp only [hf, he, lift, Prod.mk.injEq] at h
      obtain ⟨rfl, rfl⟩ := h
      exact ⟨rfl, by simp, fun q hq => Memory.get?_put_of_ne _ _ hq⟩

theorem remove_cases {p : Path} {r : Except DiskError Unit}
    (h : (disk Memory.disk schedule).remove p f = (r, g)) :
    g.calls = .remove p :: f.calls ∧ (g.state = f.state ∨ g.state = f.state.erase p) := by
  have hremove {k : Faulty Memory} {s : Except DiskError Unit}
      (hk : f.lift (.remove p) (Memory.disk.remove p f.state) = (s, k)) :
      k.calls = .remove p :: f.calls ∧ (k.state = f.state ∨ k.state = f.state.erase p) := by
    cases hp : f.state.get? p <;> simp only [Memory.disk, hp, lift, Prod.mk.injEq] at hk <;>
      obtain ⟨rfl, rfl⟩ := hk
    · exact ⟨rfl, .inl rfl⟩
    · exact ⟨rfl, .inr rfl⟩
  simp only [disk, removeWith] at h
  cases hf : f.fault? schedule .remove with
  | none => exact hremove (by simpa only [hf] using h)
  | some fault =>
    by_cases he : fault.effect = .flip
    · exact hremove (by simpa only [hf, he, ↓reduceIte] using h)
    · simp only [hf, he, refuse, ↓reduceIte, Prod.mk.injEq] at h
      obtain ⟨rfl, rfl⟩ := h
      exact ⟨rfl, .inl rfl⟩

theorem read_of_hit {p : Path} {r : Except DiskError ByteArray} {bytes : ByteArray}
    (h : (disk Memory.disk schedule).read p f = (r, g)) (hbytes : f.state.get? p = some bytes)
    (hflip : f.hit schedule .read 1 ≠ some .flip) :
    r = .ok bytes ↔ f.hit schedule .read 1 = none := by
  simp only [disk, readWith, Memory.disk] at h
  cases hf : f.fault? schedule .read with
  | none =>
    simp only [hf, hbytes, lift, Prod.mk.injEq] at h
    exact iff_of_true h.1.symm (congrArg (Option.map _) hf)
  | some fault =>
    have hhit : f.hit schedule .read 1 = some fault.effect := congrArg (Option.map _) hf
    have hrefused : fault.effect ≠ .flip := fun he => hflip (hhit.trans (congrArg some he))
    simp only [hf, hrefused, refuse, ↓reduceIte, Prod.mk.injEq] at h
    rw [hhit, ← h.1]
    exact iff_of_false nofun nofun

theorem write_of_hit {p : Path} {r : Except DiskError Unit} {before bytes : ByteArray}
    (h : (disk Memory.disk schedule).write p bytes f = (r, g))
    (hbefore : f.state.get? p = some before) :
    g.state.get? p = some (leaves before bytes (f.hit schedule .write 1)) ∧
      (f.hit schedule .write 1 = none → r = .ok ()) := by
  simp only [disk, writeWith, Memory.disk] at h
  cases hf : f.fault? schedule .write with
  | none =>
    have hhit : f.hit schedule .write 1 = none := congrArg (Option.map _) hf
    simp only [hf, lift, Prod.mk.injEq] at h
    obtain ⟨rfl, rfl⟩ := h
    rw [hhit]
    exact ⟨Memory.get?_put_self _ _ _, fun _ => rfl⟩
  | some fault =>
    have hhit : f.hit schedule .write 1 = some fault.effect := congrArg (Option.map _) hf
    rw [hhit]
    refine ⟨?_, nofun⟩
    cases he : fault.effect with
    | flip =>
      simp only [hf, he, lift, Prod.mk.injEq] at h
      rw [← h.2]
      exact Memory.get?_put_self _ _ _
    | fail =>
      simp only [hf, he, refuse, Prod.mk.injEq] at h
      rw [← h.2]
      exact hbefore
    | torn =>
      simp only [hf, he, lift, Prod.mk.injEq] at h
      rw [← h.2]
      exact Memory.get?_put_self _ _ _

theorem remove_of_hit {p : Path} {r : Except DiskError Unit} {bytes : ByteArray}
    (h : (disk Memory.disk schedule).remove p f = (r, g)) (hbytes : f.state.get? p = some bytes)
    (hflip : f.hit schedule .remove 1 ≠ some .flip) :
    g.state.get? p = some bytes ↔ f.hit schedule .remove 1 ≠ none := by
  simp only [disk, removeWith, Memory.disk] at h
  cases hf : f.fault? schedule .remove with
  | none =>
    have hhit : f.hit schedule .remove 1 = none := congrArg (Option.map _) hf
    simp only [hf, hbytes, lift, Prod.mk.injEq] at h
    rw [← h.2, hhit, Memory.get?_erase_self]
    exact iff_of_false nofun fun hne => hne rfl
  | some fault =>
    have hhit : f.hit schedule .remove 1 = some fault.effect := congrArg (Option.map _) hf
    have hrefused : fault.effect ≠ .flip := fun he => hflip (hhit.trans (congrArg some he))
    simp only [hf, hrefused, refuse, ↓reduceIte, Prod.mk.injEq] at h
    rw [← h.2, hhit]
    exact iff_of_true hbytes nofun

theorem remove_inv {p : Path} {r : Except DiskError Unit}
    (h : (disk Memory.disk schedule).remove p f = (r, g)) :
    g.calls = .remove p :: f.calls ∧ ∀ q, q ≠ p → g.state.get? q = f.state.get? q := by
  obtain ⟨hcalls, hsame | herased⟩ := remove_cases h
  · exact ⟨hcalls, fun q _ => by rw [hsame]⟩
  · exact ⟨hcalls, fun q hq => by rw [herased, Memory.get?_erase_of_ne _ hq]⟩

end Faulty

end DocGap
