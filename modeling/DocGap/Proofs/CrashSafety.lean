import DocGap.Proofs.Attempt

/-!
# Crash safety

A journal keeps the state behind every call of a disk. An attempt on a journaled disk goes as it
goes on the disk itself, since the functions of an attempt see nothing of a disk but the answers to
its calls. So what holds of all states of the journal holds wherever an attempt could be
interrupted.
-/
namespace DocGap

def Alike {α σ τ : Type} (R : σ → τ → Prop) (x : α × σ) (y : α × τ) : Prop :=
  ∃ r s t, x = (r, s) ∧ y = (r, t) ∧ R s t

/-- The calls of two disks have the same answers and keep their states related. -/
structure Disk.Related {σ τ : Type} (R : σ → τ → Prop) (d : Disk σ) (e : Disk τ) : Prop where
  read (p : Path) {s : σ} {t : τ} : R s t → Alike R (d.read p s) (e.read p t)
  copy (p q : Path) {s : σ} {t : τ} : R s t → Alike R (d.copy p q s) (e.copy p q t)
  write (p : Path) (bytes : ByteArray) {s : σ} {t : τ} :
    R s t → Alike R (d.write p bytes s) (e.write p bytes t)
  remove (p : Path) {s : σ} {t : τ} : R s t → Alike R (d.remove p s) (e.remove p t)

namespace Mutation

section Related

variable {σ τ : Type} {R : σ → τ → Prop} {d : Disk σ} {e : Disk τ} {s : σ} {t : τ}

theorem restore_related (hd : d.Related R e) (path backup : Path) (old : ByteArray) (h : R s t) :
    Alike R (restore d path backup old s) (restore e path backup old t) := by
  unfold restore
  obtain ⟨saved, s₁, t₁, hs, ht, h⟩ := hd.read backup h
  rw [hs, ht]
  cases saved with
  | error cause => exact ⟨_, s₁, t₁, rfl, rfl, h⟩
  | ok saved =>
    dsimp only
    split
    · exact ⟨_, s₁, t₁, rfl, rfl, h⟩
    · obtain ⟨w, s₂, t₂, hs, ht, h⟩ := hd.write path saved h
      rw [hs, ht]
      cases w with
      | error cause => exact ⟨_, s₂, t₂, rfl, rfl, h⟩
      | ok u =>
        obtain ⟨found, s₃, t₃, hs, ht, h⟩ := hd.read path h
        dsimp only
        rw [hs, ht]
        cases found with
        | error cause => exact ⟨_, s₃, t₃, rfl, rfl, h⟩
        | ok found =>
          dsimp only
          split <;> exact ⟨_, s₃, t₃, rfl, rfl, h⟩

theorem recover_related (hd : d.Related R e) (path backup : Path)
    (old : ByteArray) (cause : Failure)
    (h : R s t) : Alike R (recover d path backup old cause s)
    (recover e path backup old cause t) := by
  unfold recover
  obtain ⟨r, s₁, t₁, hs, ht, h⟩ := restore_related hd path backup old h
  rw [hs, ht]
  cases r with
  | error fault => exact ⟨_, s₁, t₁, rfl, rfl, h⟩
  | ok u =>
    obtain ⟨r, s₂, t₂, hs, ht, h⟩ := hd.remove backup h
    dsimp only
    rw [hs, ht]
    exact ⟨_, s₂, t₂, rfl, rfl, h⟩

theorem commit_related (hd : d.Related R e) (path backup : Path) (old : ByteArray) (plan : Plan)
    (h : R s t) : Alike R (commit d path backup old plan s) (commit e path backup old plan t) := by
  unfold commit
  split
  · next bad hbad =>
    obtain ⟨r, s₁, t₁, hs, ht, h⟩ :=
      recover_related hd path backup old (.invalidInsertion bad.insertionLine plan.lineCount) h
    rw [hs, ht]
    exact ⟨_, s₁, t₁, rfl, rfl, h⟩
  · dsimp only
    split
    · obtain ⟨r, s₁, t₁, hs, ht, h⟩ := hd.remove backup h
      rw [hs, ht]
      exact ⟨_, s₁, t₁, rfl, rfl, h⟩
    · obtain ⟨w, s₁, t₁, hs, ht, h⟩ := hd.write path plan.content.toUTF8 h
      rw [hs, ht]
      cases w with
      | ok u =>
        obtain ⟨r, s₂, t₂, hs, ht, h⟩ := hd.remove backup h
        dsimp only
        rw [hs, ht]
        exact ⟨_, s₂, t₂, rfl, rfl, h⟩
      | error cause =>
        obtain ⟨r, s₂, t₂, hs, ht, h⟩ := recover_related hd path backup old (.commit cause) h
        dsimp only
        rw [hs, ht]
        exact ⟨_, s₂, t₂, rfl, rfl, h⟩

theorem apply_related (hd : d.Related R e) (options : Options) (path : Path)
    (batch : List Insertion)
    (h : R s t) : Alike R (apply d options path batch s) (apply e options path batch t) := by
  unfold apply readText
  dsimp only
  obtain ⟨old, s₁, t₁, hs, ht, h⟩ := hd.read path h
  rw [hs, ht]
  cases old with
  | error cause => exact ⟨_, s₁, t₁, rfl, rfl, h⟩
  | ok old =>
    dsimp only
    cases Text.decode old with
    | error fault => exact ⟨_, s₁, t₁, rfl, rfl, h⟩
    | ok text =>
      obtain ⟨c, s₂, t₂, hs, ht, h⟩ := hd.copy path (backupPath options path) h
      dsimp only
      rw [hs, ht]
      cases c with
      | error cause => exact ⟨_, s₂, t₂, rfl, rfl, h⟩
      | ok u =>
        exact commit_related hd path (backupPath options path) old
          (planFor options path text batch) h

end Related

end Mutation

/-- A state of a disk, and the states behind all calls made so far, the latest first. -/
structure Journal (σ : Type) where
  state : σ
  past : List σ

namespace Journal

variable {σ : Type}

def start (s : σ) : Journal σ := ⟨s, []⟩

def push (j : Journal σ) (s : σ) : Journal σ := ⟨s, s :: j.past⟩

def logged {α : Type} (j : Journal σ) (out : α × σ) : α × Journal σ := (out.1, j.push out.2)

def disk (base : Disk σ) : Disk (Journal σ) where
  read p j := j.logged (base.read p j.state)
  copy p q j := j.logged (base.copy p q j.state)
  write p bytes j := j.logged (base.write p bytes j.state)
  remove p j := j.logged (base.remove p j.state)

def Always (P : σ → Prop) (j : Journal σ) : Prop := ∀ s ∈ j.past, P s

theorem logged_inv {α : Type} {j k : Journal σ} {out : α × σ} {r : α} (h : j.logged out = (r, k)) :
    out = (r, k.state) ∧ k = j.push k.state := by
  obtain ⟨rfl, rfl⟩ := Prod.mk.inj h
  exact ⟨rfl, rfl⟩

theorem Always.push {P : σ → Prop} {j k : Journal σ} (hj : j.Always P) (hk : k = j.push k.state)
    (hs : P k.state) : k.Always P := by
  rw [hk]
  intro s hs'
  rcases List.mem_cons.1 hs' with rfl | hs'
  · exact hs
  · exact hj s hs'

theorem related (base : Disk σ) : base.Related (fun s j => j.state = s) (disk base) where
  read p s j h := by subst h; exact ⟨_, _, _, rfl, rfl, rfl⟩
  copy p q s j h := by subst h; exact ⟨_, _, _, rfl, rfl, rfl⟩
  write p bytes s j h := by subst h; exact ⟨_, _, _, rfl, rfl, rfl⟩
  remove p s j h := by subst h; exact ⟨_, _, _, rfl, rfl, rfl⟩

theorem related_count (schedule : List DiskFault) (n : Nat) :
    (Faulty.disk Memory.disk schedule).Related
      (fun f j => j.state = f ∧ j.past.length + n = f.calls.length)
      (disk (Faulty.disk Memory.disk schedule)) where
  read p f j h := by
    obtain ⟨rfl, hn⟩ := h
    rcases hread : (Faulty.disk Memory.disk schedule).read p j.state with ⟨r, g⟩
    obtain ⟨rfl, -⟩ := Faulty.read_inv hread
    exact ⟨r, _, j.push _, rfl, congrArg j.logged hread, rfl, by simp [push]; omega⟩
  copy p q f j h := by
    obtain ⟨rfl, hn⟩ := h
    rcases hcopy : (Faulty.disk Memory.disk schedule).copy p q j.state with ⟨r, g⟩
    obtain ⟨hcalls, -⟩ := Faulty.copy_inv hcopy
    exact ⟨r, g, j.push g, rfl, congrArg j.logged hcopy, rfl, by simp [push, hcalls]; omega⟩
  write p bytes f j h := by
    obtain ⟨rfl, hn⟩ := h
    rcases hwrite : (Faulty.disk Memory.disk schedule).write p bytes j.state with ⟨r, g⟩
    obtain ⟨hcalls, -⟩ := Faulty.write_inv hwrite
    exact ⟨r, g, j.push g, rfl, congrArg j.logged hwrite, rfl, by simp [push, hcalls]; omega⟩
  remove p f j h := by
    obtain ⟨rfl, hn⟩ := h
    rcases hremove : (Faulty.disk Memory.disk schedule).remove p j.state with ⟨r, g⟩
    obtain ⟨hcalls, -⟩ := Faulty.remove_inv hremove
    exact ⟨r, g, j.push g, rfl, congrArg j.logged hremove, rfl, by simp [push, hcalls]; omega⟩

end Journal

namespace Mutation

section Always

variable {schedule : List DiskFault} {path backup : Path} {old : ByteArray}
  {P : Faulty Memory → Prop}
  {j k : Journal (Faulty Memory)}

theorem restore_always {r : Except RestoreFault Unit} (hne : backup ≠ path)
    (hkept : ∀ g, g.state.get? backup = some old → P g)
    (hbackup : j.state.state.get? backup = some old)
    (hj : j.Always P)
    (h : restore (Journal.disk (Faulty.disk Memory.disk schedule)) path backup old j = (r, k)) :
    k.Always P := by
  obtain rfl : (restore (Journal.disk (Faulty.disk Memory.disk schedule)) path backup old j).2 =
    k := by
    rw [h]
  -- while the old content is being put back, the backup stays what it is
  refine (restore_invariant (I := fun k : Journal (Faulty Memory) =>
    k.state.state.get? backup = some old ∧ k.Always P) ?_ ?_ backup old ⟨hbackup, hj⟩).2
  · intro p k ⟨hb, hk⟩
    rcases hread : (Journal.disk (Faulty.disk Memory.disk schedule)).read p k with ⟨r, l⟩
    obtain ⟨hcall, hpush⟩ := Journal.logged_inv hread
    obtain ⟨hl, -⟩ := Faulty.read_inv hcall
    have hb : l.state.state.get? backup = some old := by rw [hl]; exact hb
    exact ⟨hb, hk.push hpush (hkept _ hb)⟩
  · intro bytes k ⟨hb, hk⟩
    rcases hwrite : (Journal.disk (Faulty.disk Memory.disk schedule)).write path bytes k with ⟨r, l⟩
    obtain ⟨hcall, hpush⟩ := Journal.logged_inv hwrite
    obtain ⟨-, -, hkeep⟩ := Faulty.write_inv hcall
    have hb := (hkeep backup hne).trans hb
    exact ⟨hb, hk.push hpush (hkept _ hb)⟩

theorem remove_always {bytes : ByteArray} (hne : backup ≠ path)
    (hP : ∀ g, g.state.get? path = some bytes → P g) (hpath : j.state.state.get? path = some bytes)
    (hj : j.Always P) :
    ((Journal.disk (Faulty.disk Memory.disk schedule)).remove backup j).2.Always P := by
  rcases hremove : (Journal.disk (Faulty.disk Memory.disk schedule)).remove backup j with ⟨r, l⟩
  obtain ⟨hcall, hpush⟩ := Journal.logged_inv hremove
  obtain ⟨-, hremoved⟩ := Faulty.remove_inv hcall
  exact hj.push hpush (hP _ ((hremoved path hne.symm).trans hpath))

theorem recover_always {cause : Failure} {e : MutationError} (hne : backup ≠ path)
    (hkept : ∀ g, g.state.get? backup = some old → P g)
    (hback : ∀ g, g.state.get? path = some old → P g)
    (hbackup : j.state.state.get? backup = some old) (hj : j.Always P)
    (h : recover (Journal.disk (Faulty.disk Memory.disk schedule)) path backup old
      cause j = (e, k)) :
    k.Always P := by
  unfold recover at h
  split at h
  · next s hrestore =>
    have hs := restore_always hne hkept hbackup hj hrestore
    obtain ⟨r, t, u, hplain, hlogged, rfl⟩ :=
      restore_related (Journal.related (Faulty.disk Memory.disk schedule)) path backup old
        (rfl : j.state = j.state)
    obtain ⟨rfl, rfl⟩ := Prod.mk.inj (hlogged.symm.trans hrestore)
    obtain ⟨rfl, rfl⟩ := Prod.mk.inj h
    exact remove_always hne hback (restore_ok hplain) hs
  · next fault s hrestore =>
    obtain ⟨rfl, rfl⟩ := Prod.mk.inj h
    exact restore_always hne hkept hbackup hj hrestore

theorem commit_always {plan : Plan} {r : Except MutationError Report} (hne : backup ≠ path)
    (hflips : ∀ fault ∈ schedule, fault.effect ≠ .flip)
    (hkept : ∀ g, g.state.get? backup = some old → P g)
    (hback : ∀ g, g.state.get? path = some old → P g)
    (hnew : ∀ g, g.state.get? path = some plan.content.toUTF8 → P g)
    (hbackup : j.state.state.get? backup = some old) (hpath : j.state.state.get? path = some old)
    (hj : j.Always P)
    (h : commit (Journal.disk (Faulty.disk Memory.disk schedule)) path backup old plan j = (r, k)) :
    k.Always P := by
  unfold commit at h
  split at h
  · next bad hbad =>
    obtain ⟨rfl, rfl⟩ := Prod.mk.inj h
    exact recover_always hne hkept hback hbackup hj rfl
  · split at h
    · obtain ⟨rfl, rfl⟩ := Prod.mk.inj h
      exact remove_always hne hback hpath hj
    · split at h
      · next s hwrite =>
        obtain ⟨hcall, hpush⟩ := Journal.logged_inv hwrite
        obtain ⟨-, hput, -⟩ := Faulty.write_inv hcall
        have hs : s.state.state.get? path = some plan.content.toUTF8 := by
          rw [hput rfl, Memory.get?_put_self,
            Faulty.handed_of_flips_eq_false (Faulty.flips_eq_false_of_forall hflips _ _)]
        obtain ⟨rfl, rfl⟩ := Prod.mk.inj h
        exact remove_always hne hnew hs (hj.push hpush (hnew _ hs))
      · next e s hwrite =>
        obtain ⟨hcall, hpush⟩ := Journal.logged_inv hwrite
        obtain ⟨-, -, hkeep⟩ := Faulty.write_inv hcall
        have hs := (hkeep backup hne).trans hbackup
        obtain ⟨rfl, rfl⟩ := Prod.mk.inj h
        exact recover_always hne hkept hback hs (hj.push hpush (hkept _ hs)) rfl

theorem readText_journal {r : Except ReadFault (ByteArray × String)}
    (h : readText (Journal.disk (Faulty.disk Memory.disk schedule)) path j = (r, k)) :
    readText (Faulty.disk Memory.disk schedule) path j.state = (r, k.state) ∧
      k = j.push k.state := by
  unfold readText at h ⊢
  split at h
  · next e s hread =>
    obtain ⟨hcall, hpush⟩ := Journal.logged_inv hread
    obtain ⟨rfl, rfl⟩ := Prod.mk.inj h
    exact ⟨by rw [hcall], hpush⟩
  · next bytes s hread =>
    obtain ⟨hcall, hpush⟩ := Journal.logged_inv hread
    rw [hcall]
    split at h <;> next hdecode =>
      obtain ⟨rfl, rfl⟩ := Prod.mk.inj h
      exact ⟨by simp only [hdecode], hpush⟩

end Always

/-- The old content can be found, or the new one is complete. -/
def Recoverable (options : Options) (path : Path) (batch : List Insertion) (old : ByteArray)
    (m : Memory) : Prop :=
  m.get? path = some old ∨
  (∃ text, Text.decode old = .ok text ∧
    m.get? path = some (planFor options path text batch).content.toUTF8) ∨
  m.get? (backupPath options path) = some old

theorem apply_always {schedule : List DiskFault} {options : Options} {path : Path}
    {batch : List Insertion}
    {old : ByteArray} {j : Journal (Faulty Memory)} (hne : backupPath options path ≠ path)
    (hflips : ∀ fault ∈ schedule, fault.effect ≠ .flip) (hold : j.state.state.get? path = some old)
    (hj : j.Always fun g => Recoverable options path batch old g.state) :
    (apply (Journal.disk (Faulty.disk Memory.disk schedule)) options path batch j).2.Always
      fun g => Recoverable options path batch old g.state := by
  have hhanded (f : Faulty Memory) (kind : CallKind) (bytes : ByteArray) :
      f.handed schedule kind bytes = bytes :=
    Faulty.handed_of_flips_eq_false (Faulty.flips_eq_false_of_forall hflips f kind) bytes
  unfold apply
  dsimp only
  split
  · next cause s hread =>
    obtain ⟨hcall, hpush⟩ := readText_journal hread
    obtain ⟨hs, -⟩ := readText_inv hcall
    exact hj.push hpush (.inl (by rw [hs]; exact hold))
  · next bytes text s hread =>
    obtain ⟨hcall, hpush⟩ := readText_journal hread
    obtain ⟨hs, hbytes⟩ := readText_inv hcall
    have hpath : s.state.state.get? path = some old := by rw [hs]; exact hold
    have hj := hj.push hpush (.inl hpath)
    obtain ⟨hdecode, kept, hkept, rfl⟩ := hbytes bytes text rfl
    obtain rfl : kept = old := Option.some.inj (hkept.symm.trans hold)
    rw [hhanded] at hdecode ⊢
    split
    · next cause t hcopy =>
      obtain ⟨hcall, hpush⟩ := Journal.logged_inv hcopy
      obtain ⟨-, ⟨e, -, ht⟩ | ⟨hok, -⟩⟩ := Faulty.copy_inv hcall
      · exact hj.push hpush (.inl (by rw [ht]; exact hpath))
      · cases hok
    · next t hcopy =>
      obtain ⟨hcall, hpush⟩ := Journal.logged_inv hcopy
      obtain ⟨-, ⟨e, he, -⟩ | ⟨-, bytes, hbytes, ht⟩⟩ := Faulty.copy_inv hcall
      · cases he
      · obtain rfl : bytes = kept := Option.some.inj (hbytes.symm.trans hpath)
        rw [hhanded] at ht
        have hpath : t.state.state.get? path = some bytes := by
          rw [ht, Memory.get?_put_of_ne _ _ hne.symm, hpath]
        have hbackup : t.state.state.get? (backupPath options path) = some bytes := by
          rw [ht, Memory.get?_put_self]
        exact commit_always hne hflips (fun g hg => .inr (.inr hg)) (fun g hg => .inl hg)
          (fun g hg => .inr (.inl ⟨text, hdecode, hg⟩)) hbackup hpath
          (hj.push hpush (.inl hpath)) rfl

/-- Crash safety. If the faults only fail and tear, then behind every single call of an attempt the
file holds the old content or all of the planned content, or the backup holds the old content. The
journal is that of the attempt itself: it has the same result and the same last state, and one state
for every call. -/
theorem apply_crash_safe (schedule : List DiskFault) (options : Options) (path : Path)
    (batch : List Insertion) (f : Faulty Memory) {old : ByteArray}
    (hsuffix : options.backupSuffix ≠ "")
    (hflips : ∀ fault ∈ schedule, fault.effect ≠ .flip) (hold : f.state.get? path = some old) :
    let plain := apply (Faulty.disk Memory.disk schedule) options path batch f
    let logged := apply (Journal.disk (Faulty.disk Memory.disk schedule)) options
      path batch (.start f)
    logged.1 = plain.1 ∧ logged.2.state = plain.2 ∧
    logged.2.past.length + f.calls.length = plain.2.calls.length ∧
    logged.2.Always fun g => Recoverable options path batch old g.state := by
  intro plain logged
  have hne : backupPath options path ≠ path := backupPath_ne hsuffix path
  obtain ⟨r, g, j, hplain, hlogged, rfl, hcount⟩ :=
    apply_related (Journal.related_count schedule f.calls.length) options path batch (s := f)
      (t := .start f) ⟨rfl, by simp [Journal.start]⟩
  refine ⟨?_, ?_, ?_, ?_⟩
  · rw [show plain = _ from hplain, show logged = _ from hlogged]
  · rw [show plain = _ from hplain, show logged = _ from hlogged]
  · rw [show plain = _ from hplain, show logged = _ from hlogged]
    exact hcount
  · exact apply_always hne hflips hold (by simp [Journal.Always, Journal.start])

theorem apply_tornWrite_crash_safe :
    Options.standard.backupSuffix ≠ "" ∧ (∀ fault ∈ tornWrite, fault.effect ≠ .flip) ∧
      (Faulty.start oneFile).state.get? ⟨"a.js"⟩ = some "x\n".toUTF8 ∧
        (apply (Journal.disk (Faulty.disk Memory.disk tornWrite)) .standard ⟨"a.js"⟩ oneBlock
          (.start (.start oneFile))).2.Always
            fun g => Recoverable .standard ⟨"a.js"⟩ oneBlock "x\n".toUTF8 g.state := by
  have hsuffix : Options.standard.backupSuffix ≠ "" := by decide
  have hflips : ∀ fault ∈ tornWrite, fault.effect ≠ .flip := by decide
  have hold : (Faulty.start oneFile).state.get? ⟨"a.js"⟩ = some "x\n".toUTF8 := rfl
  exact ⟨hsuffix, hflips, hold,
    (apply_crash_safe tornWrite .standard ⟨"a.js"⟩ oneBlock
    (.start oneFile) hsuffix hflips hold).2.2.2⟩

end Mutation

end DocGap
