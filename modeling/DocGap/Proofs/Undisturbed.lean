import DocGap.Proofs.Attempt
import DocGap.Proofs.Refusals

/-!
# Undisturbed attempts

On a disk that does what it is told, an attempt ends in one of two ways: the batch names a line that
does not exist, and the file is as it was; or the file holds the planned content. In both cases the
backup is gone. So a preview, which only reads, tells all that an attempt on a memory without faults
will do.
-/
namespace DocGap

/-- A disk that does what it is told about a file and its backup, as long as its states are good.
The bytes that it holds for the two are `file` and `saved`. -/
structure Disk.Obeys {σ : Type} (d : Disk σ) (path backup : Path) (Good : σ → Prop)
    (file saved : σ → Option ByteArray) : Prop where
  read_file {s : σ} {bytes : ByteArray} : Good s → file s = some bytes →
    d.read path s = (.ok bytes, s)
  read_saved {s : σ} {bytes : ByteArray} : Good s → saved s = some bytes →
    d.read backup s = (.ok bytes, s)
  write {s : σ} (bytes : ByteArray) : Good s →
    ∃ t, d.write path bytes s = (.ok (), t) ∧ Good t ∧ file t = some bytes ∧ saved t = saved s
  remove {s : σ} {bytes : ByteArray} : Good s → saved s = some bytes →
    ∃ t, d.remove backup s = (.ok (), t) ∧ Good t ∧ file t = file s ∧ saved t = none

namespace Mutation

def verdict (path : Path) (plan : Plan) : Except MutationError Report :=
  match plan.outOfRange? with
  | some bad => .error (.rolledBack path (.invalidInsertion bad.insertionLine plan.lineCount))
  | none => .ok ⟨path, plan.applied, plan.skipped⟩

def bytesAfter (old : ByteArray) (plan : Plan) : ByteArray :=
  if plan.outOfRange?.isSome || plan.applied.isEmpty then old else plan.content.toUTF8

section Obeys

variable {σ : Type} {d : Disk σ} {path backup : Path} {Good : σ → Prop}
  {file saved : σ → Option ByteArray}
  {s : σ} {old : ByteArray}

theorem restore_obeys (hd : d.Obeys path backup Good file saved) (hs : Good s)
    (hsaved : saved s = some old) :
    ∃ t, restore d path backup old s = (.ok (), t) ∧ Good t ∧ file t = some old ∧
      saved t = some old := by
  obtain ⟨t, hwrite, ht, hfile, hkept⟩ := hd.write old hs
  refine ⟨t, ?_, ht, hfile, hkept.trans hsaved⟩
  simp only [restore, hd.read_saved hs hsaved, hwrite, hd.read_file ht hfile, ne_eq,
    not_true_eq_false, if_false,
    if_true]

theorem recover_obeys (hd : d.Obeys path backup Good file saved) (hs : Good s)
    (hsaved : saved s = some old)
    (cause : Failure) :
    ∃ t, recover d path backup old cause s = (.rolledBack path cause, t) ∧ Good t ∧
      file t = some old ∧
      saved t = none := by
  obtain ⟨t, hrestore, ht, hfile, hkept⟩ := restore_obeys hd hs hsaved
  obtain ⟨u, hremove, hu, hsame, hgone⟩ := hd.remove ht hkept
  refine ⟨u, ?_, hu, hsame.trans hfile, hgone⟩
  simp only [recover, hrestore, hremove]

theorem commit_obeys (hd : d.Obeys path backup Good file saved) (hs : Good s)
    (hfile : file s = some old)
    (hsaved : saved s = some old) (plan : Plan) :
    ∃ t, commit d path backup old plan s = (verdict path plan, t) ∧ Good t ∧
      file t = some (bytesAfter old plan) ∧ saved t = none := by
  cases hbad : plan.outOfRange? with
  | some bad =>
    obtain ⟨t, hrecover, ht, hback, hgone⟩ :=
      recover_obeys hd hs hsaved (.invalidInsertion bad.insertionLine plan.lineCount)
    refine ⟨t, ?_, ht, ?_, hgone⟩
    · simp only [commit, verdict, hbad, hrecover]
    · simpa [bytesAfter, hbad] using hback
  | none =>
    by_cases hnothing : plan.applied.isEmpty = true
    · obtain ⟨t, hremove, ht, hsame, hgone⟩ := hd.remove hs hsaved
      refine ⟨t, ?_, ht, ?_, hgone⟩
      · simp only [commit, verdict, hbad, hnothing, if_true, hremove]
      · simpa [bytesAfter, hnothing] using hsame.trans hfile
    · obtain ⟨t, hwrite, ht, hnew, hkept⟩ := hd.write plan.content.toUTF8 hs
      obtain ⟨u, hremove, hu, hsame, hgone⟩ := hd.remove ht (hkept.trans hsaved)
      refine ⟨u, ?_, hu, ?_, hgone⟩
      · simp only [commit, verdict, hbad, if_neg hnothing, hwrite, hremove]
      · simpa [bytesAfter, hbad, hnothing] using hsame.trans hnew

theorem apply_obeys {options : Options}
    (hd : d.Obeys path (backupPath options path) Good file saved) {t : σ}
    {text : String} (hread : readText d path s = (.ok (old, text), s))
    (hcopy : d.copy path (backupPath options path) s = (.ok (), t)) (ht : Good t)
    (hfile : file t = some old)
    (hsaved : saved t = some old) (batch : List Insertion) :
    ∃ u, apply d options path batch s =
      (verdict path (planFor options path text batch), u) ∧ Good u ∧
      file u = some (bytesAfter old (planFor options path text batch)) ∧ saved u = none := by
  obtain ⟨u, hcommit, hu⟩ := commit_obeys hd ht hfile hsaved (planFor options path text batch)
  refine ⟨u, ?_, hu⟩
  simp only [apply, hread, hcopy, hcommit]

end Obeys

end Mutation

theorem Text.toUTF8_of_decode {bytes : ByteArray} {text : String}
    (h : Text.decode bytes = .ok text) :
    text.toUTF8 = bytes := by
  unfold Text.decode String.fromUTF8? at h
  split at h
  · next found hfound =>
    cases h
    split at hfound
    · cases hfound
      rfl
    · cases hfound
  · cases h

namespace Mutation

theorem outOfRange?_planFor (options : Options) (path : Path) (text : String)
    (batch : List Insertion) :
    (planFor options path text batch).outOfRange? =
      (batch.find? (Plan.outside (Plan.countLines (Plan.linesOf text)))).map
        fun i => .of i (.outOfRange (Plan.countLines (Plan.linesOf text))) :=
  Plan.outOfRange?_ofBatch _ _ _ _

theorem bytesAfter_planFor {options : Options} {path : Path} {old : ByteArray} {text : String}
    {batch : List Insertion} (htext : Text.decode old = .ok text)
    (hrange : (planFor options path text batch).outOfRange? = none) :
    bytesAfter old (planFor options path text batch) =
      (planFor options path text batch).content.toUTF8 := by
  by_cases hnothing : (planFor options path text batch).applied.isEmpty = true
  · have hsame : (planFor options path text batch).content = text :=
      (Plan.content_eq_iff _ _ _ _).2
        ((Plan.applied_eq_nil_iff _ _ _ _).1 (List.isEmpty_iff.1 hnothing))
    rw [bytesAfter, if_pos (by simp [hnothing]), hsame, Text.toUTF8_of_decode htext]
  · rw [bytesAfter, if_neg (by simpa [hrange] using hnothing)]

theorem memory_obeys {path backup : Path} (hne : backup ≠ path) (m : Memory) :
    Memory.disk.Obeys path backup (SameElsewhere path backup m) (·.get? path) (·.get? backup) where
  read_file := by
    intro s bytes _ hfile
    simp only [Memory.disk, hfile]
  read_saved := by
    intro s bytes _ hsaved
    simp only [Memory.disk, hsaved]
  write := by
    intro s bytes hs
    refine ⟨s.put path bytes, rfl, fun q hpath hbackup => ?_, Memory.get?_put_self _ _ _,
      Memory.get?_put_of_ne _ _ hne⟩
    rw [Memory.get?_put_of_ne _ _ hpath, hs q hpath hbackup]
  remove := by
    intro s bytes hs hsaved
    refine ⟨s.erase backup, by simp only [Memory.disk, hsaved], fun q hpath hbackup => ?_,
      Memory.get?_erase_of_ne _ hne.symm, Memory.get?_erase_self _ _⟩
    rw [Memory.get?_erase_of_ne _ hbackup, hs q hpath hbackup]

theorem readText_memory {path : Path} {m n : Memory} {r : Except ReadFault (ByteArray × String)}
    (h : readText Memory.disk path m = (r, n)) :
    n = m ∧ ∀ old text, r = .ok (old, text) →
      m.get? path = some old ∧ Text.decode old = .ok text := by
  cases hold : m.get? path with
  | none =>
    simp only [readText, Memory.disk, hold, Prod.mk.injEq] at h
    obtain ⟨rfl, rfl⟩ := h
    exact ⟨rfl, by simp⟩
  | some bytes =>
    cases hdecode : Text.decode bytes with
    | error fault =>
      simp only [readText, Memory.disk, hold, hdecode, Prod.mk.injEq] at h
      obtain ⟨rfl, rfl⟩ := h
      exact ⟨rfl, by simp⟩
    | ok text =>
      simp only [readText, Memory.disk, hold, hdecode, Prod.mk.injEq] at h
      obtain ⟨rfl, rfl⟩ := h
      refine ⟨rfl, fun old text' heq => ?_⟩
      obtain ⟨rfl, rfl⟩ := Prod.mk.inj (Except.ok.inj heq)
      exact ⟨rfl, hdecode⟩

theorem apply_memory {options : Options} {path : Path} {m : Memory}
    {old : ByteArray} {text : String}
    (hne : backupPath options path ≠ path)
    (hread : readText Memory.disk path m = (.ok (old, text), m))
    (batch : List Insertion) :
    ∃ n, apply Memory.disk options path batch m =
      (verdict path (planFor options path text batch), n) ∧
      SameElsewhere path (backupPath options path) m n ∧
      n.get? path = some (bytesAfter old (planFor options path text batch)) ∧
      n.get? (backupPath options path) = none := by
  obtain ⟨hold, -⟩ := (readText_memory hread).2 old text rfl
  refine apply_obeys (memory_obeys hne m) hread
    (t := m.put (backupPath options path) old) ?_ ?_ ?_ ?_ batch
  · simp only [Memory.disk, hold]
  · intro q _ hbackup
    exact Memory.get?_put_of_ne _ _ hbackup
  · rw [Memory.get?_put_of_ne _ _ hne.symm, hold]
  · exact Memory.get?_put_self _ _ _

/-- A preview tells what an attempt does, and changes nothing. Both fail to read in the same cases.
If all lines of the batch exist, the attempt has the records of the preview, and the file holds its
result; else the attempt names the first insertion of the batch that the preview leaves out for its
line, and the file is as it was. -/
theorem preview_foretells_apply (options : Options) (path : Path)
    (batch : List Insertion) (m : Memory)
    (hsuffix : options.backupSuffix ≠ "") :
    let backup := backupPath options path
    let shown := preview Memory.disk options path batch m
    let done := apply Memory.disk options path batch m
    shown.2 = m ∧
    (∀ cause, shown.1 = .error (.read path cause) ↔ done.1 = .error (.read path cause)) ∧
    match shown.1 with
    | .error e => (∃ cause, e = .read path cause) ∧ done = (.error e, m)
    | .ok p =>
      m.get? path = some p.old.toUTF8 ∧ SameElsewhere path backup m done.2 ∧
        done.2.get? backup = none ∧
      match p.skipped.find? (·.reason.isOutOfRange) with
      | none => done.1 = .ok ⟨path, p.applied, p.skipped⟩ ∧ done.2.get? path = some p.result.toUTF8
      | some bad =>
        let count := Plan.countLines (Plan.linesOf p.old)
        (∃ i, batch.find? (Plan.outside count) = some i ∧ bad = .of i (.outOfRange count) ∧
          done.1 = .error (.rolledBack path (.invalidInsertion i.insertionLine count))) ∧
        done.2.get? path = m.get? path := by
  intro backup shown done
  rcases hread : readText Memory.disk path m with ⟨r, n⟩
  obtain ⟨rfl, hfound⟩ := readText_memory hread
  cases r with
  | error cause =>
    have hshown : shown = (.error (.read path cause), n) := by simp only [shown, preview, hread]
    have hdone : done = (.error (.read path cause), n) := by simp only [done, apply, hread]
    rw [hshown, hdone]
    exact ⟨rfl, fun _ => by simp, ⟨cause, rfl⟩, rfl⟩
  | ok found =>
    obtain ⟨old, text⟩ := found
    obtain ⟨hold, htext⟩ := hfound old text rfl
    obtain ⟨m', hdone, hsame, hfile, hgone⟩ := apply_memory (backupPath_ne hsuffix path) hread batch
    have hshown : shown = (.ok ⟨path, text, (planFor options path text batch).content,
        (planFor options path text batch).applied, (planFor options path text batch).skipped⟩,
          n) := by
      simp only [shown, preview, hread]
    have hfirst := outOfRange?_planFor options path text batch
    rw [hshown, show done = _ from hdone, hold]
    refine ⟨rfl, fun cause => ?_, by rw [Text.toUTF8_of_decode htext], hsame, hgone, ?_⟩
    · unfold verdict
      split <;> simp
    · change match (planFor options path text batch).outOfRange? with | none => _ | some bad => _
      cases hrange : (planFor options path text batch).outOfRange? with
      | none =>
        refine ⟨by simp only [verdict, hrange], ?_⟩
        rw [hfile, bytesAfter_planFor htext hrange]
      | some bad =>
        rw [hrange] at hfirst
        obtain ⟨i, hi, rfl⟩ := Option.map_eq_some_iff.1 hfirst.symm
        refine ⟨⟨i, hi, rfl, by simp only [verdict, hrange]; rfl⟩, ?_⟩
        rw [hfile, bytesAfter, if_pos (by simp [hrange])]

section Outside

def outsideBatch : List Insertion :=
  [⟨⟨"f", .function, 2⟩, 1, "/** f */"⟩, ⟨⟨"g", .function, 4⟩, 3, "/** g */"⟩,
    ⟨⟨"k", .function, 1⟩, 0, "/** k */"⟩,
    ⟨⟨"h", .function, 9⟩, 8, "/** h */"⟩]

theorem find?_outsideBatch :
    outsideBatch.find? (Plan.outside (Plan.countLines (Plan.linesOf "x\n"))) =
      some ⟨⟨"g", .function, 4⟩, 3, "/** g */"⟩ := by
  decide

theorem outsideBatch_foretold :
    Options.standard.backupSuffix ≠ "" ∧
    (apply Memory.disk .standard ⟨"a.js"⟩ outsideBatch oneFile).1 =
      .error (.rolledBack ⟨"a.js"⟩ (.invalidInsertion 3 1)) ∧
    (apply Memory.disk .standard ⟨"a.js"⟩ outsideBatch oneFile).2.get? ⟨"a.js"⟩ =
      oneFile.get? ⟨"a.js"⟩ := by
  have hsuffix : Options.standard.backupSuffix ≠ "" := by decide
  have hshown : (preview Memory.disk .standard ⟨"a.js"⟩ outsideBatch oneFile).1 =
      .ok ⟨⟨"a.js"⟩, "x\n", (planFor .standard ⟨"a.js"⟩ "x\n" outsideBatch).content,
        (planFor .standard ⟨"a.js"⟩ "x\n" outsideBatch).applied,
        (planFor .standard ⟨"a.js"⟩ "x\n" outsideBatch).skipped⟩ := rfl
  have hfirst := outOfRange?_planFor .standard ⟨"a.js"⟩ "x\n" outsideBatch
  rw [find?_outsideBatch, Plan.outOfRange?] at hfirst
  have hforetold := (preview_foretells_apply .standard ⟨"a.js"⟩ outsideBatch oneFile hsuffix).2.2
  simp only [hshown, hfirst, Option.map_some] at hforetold
  obtain ⟨-, -, -, ⟨i, hi, -, hdone⟩, hfile⟩ := hforetold
  obtain rfl := Option.some.inj (hi.symm.trans find?_outsideBatch)
  exact ⟨hsuffix, hdone, hfile⟩

end Outside

end Mutation

end DocGap
