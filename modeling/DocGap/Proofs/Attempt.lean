import DocGap.Mutation
import DocGap.Proofs.FaultyMemory

/-!
# How an attempt ends

The ways in which an attempt on a file of a faulty memory can end, and what each of them leaves
behind. An attempt either does not begin, or brings the old content back, or keeps the backup, or
succeeds. Nothing but the file and its backup is ever touched.
-/
namespace DocGap

def Faulty.NoneRemoved {σ : Type} (f g : Faulty σ) : Prop :=
  ∃ made, g.calls = made ++ f.calls ∧ ∀ c ∈ made, c.kind ≠ .remove

theorem Faulty.NoneRemoved.refl {σ : Type} (f : Faulty σ) : f.NoneRemoved f :=
  ⟨[], rfl, by simp⟩

theorem Faulty.NoneRemoved.one {σ : Type} {f g : Faulty σ} {call : Call}
    (hcalls : g.calls = call :: f.calls) (hkind : call.kind ≠ .remove) : f.NoneRemoved g :=
  ⟨[call], hcalls, by simpa using hkind⟩

theorem Faulty.NoneRemoved.trans {σ : Type} {f g h : Faulty σ} (hfg : f.NoneRemoved g)
    (hgh : g.NoneRemoved h) : f.NoneRemoved h := by
  obtain ⟨first, hfirst, hnone⟩ := hfg
  obtain ⟨second, hsecond, hnone'⟩ := hgh
  refine ⟨second ++ first, by rw [hsecond, hfirst, List.append_assoc], ?_⟩
  intro c hc
  rcases List.mem_append.1 hc with hc | hc
  · exact hnone' c hc
  · exact hnone c hc

namespace Mutation

theorem backupPath_ne {options : Options} (h : options.backupSuffix ≠ "") (path : Path) :
    backupPath options path ≠ path := by
  intro he
  have hs := congrArg (fun p : Path => p.spelling.length) he
  simp only [backupPath, String.length_append] at hs
  have hlen : options.backupSuffix.length ≠ 0 := by simpa [String.length_eq_zero_iff] using h
  omega

def SameElsewhere (path backup : Path) (m n : Memory) : Prop :=
  ∀ q, q ≠ path → q ≠ backup → n.get? q = m.get? q

theorem restore_invariant {σ : Type} {d : Disk σ} {path : Path} {I : σ → Prop}
    (hread : ∀ p s, I s → I (d.read p s).2) (hwrite : ∀ bytes s, I s → I (d.write path bytes s).2)
    (backup : Path) (old : ByteArray) {s : σ} (hs : I s) : I (restore d path backup old s).2 := by
  unfold restore
  have h₁ := hread backup s hs
  rcases hfirst : d.read backup s with ⟨_ | saved, s₁⟩ <;> rw [hfirst] at h₁
  · exact h₁
  · dsimp only
    split
    · exact h₁
    · have h₂ := hwrite saved s₁ h₁
      rcases hput : d.write path saved s₁ with ⟨_ | u, s₂⟩ <;> rw [hput] at h₂
      · exact h₂
      · have h₃ := hread path s₂ h₂
        dsimp only
        rcases hlast : d.read path s₂ with ⟨_ | found, s₃⟩ <;> rw [hlast] at h₃
        · exact h₃
        · dsimp only
          split <;> exact h₃

section Faults

variable {schedule : List DiskFault} {path backup : Path} {old : ByteArray} {f g : Faulty Memory}

theorem restore_frame {r : Except RestoreFault Unit}
    (h : restore (Faulty.disk Memory.disk schedule) path backup old f = (r, g)) :
    (∀ q, q ≠ path → g.state.get? q = f.state.get? q) ∧ f.NoneRemoved g := by
  obtain rfl : (restore (Faulty.disk Memory.disk schedule) path backup old f).2 = g := by rw [h]
  apply restore_invariant (I := fun g =>
    (∀ q, q ≠ path → g.state.get? q = f.state.get? q) ∧ f.NoneRemoved g)
  · intro p s ⟨hkeep, hnone⟩
    rcases hread : (Faulty.disk Memory.disk schedule).read p s with ⟨r, t⟩
    obtain ⟨rfl, -⟩ := Faulty.read_inv hread
    exact ⟨hkeep, hnone.trans (.one rfl (by simp [Call.kind]))⟩
  · intro bytes s ⟨hkeep, hnone⟩
    rcases hwrite : (Faulty.disk Memory.disk schedule).write path bytes s with ⟨r, t⟩
    obtain ⟨hcalls, -, hsame⟩ := Faulty.write_inv hwrite
    exact ⟨fun q hq =>
      (hsame q hq).trans (hkeep q hq), hnone.trans (.one hcalls (by simp [Call.kind]))⟩
  · exact ⟨fun _ _ => rfl, .refl f⟩

theorem restore_ok
    (h : restore (Faulty.disk Memory.disk schedule) path backup old f = (.ok (), g)) :
    g.state.get? path = some old := by
  unfold restore at h
  split at h
  · cases h
  · next saved s hread =>
    split at h
    · cases h
    · next hsaved =>
      obtain rfl : saved = old := ByteArray.ext (Decidable.not_not.1 hsaved)
      split at h
      · cases h
      · next t hwrite =>
        obtain ⟨-, hput, -⟩ := Faulty.write_inv hwrite
        split at h
        · cases h
        · next found u hlast =>
          obtain ⟨rfl, hfound⟩ := Faulty.read_inv hlast
          obtain ⟨kept, hkept, hsame⟩ := hfound found rfl
          split at h
          · next hf =>
            obtain ⟨-, rfl⟩ := Prod.mk.inj h
            rw [hput rfl, Memory.get?_put_self, Option.some.injEq] at hkept
            -- the file was read back equal to what was written, so that the write was not flipped
            have hback := Faulty.handed_eq_of_handed_handed
              (hkept ▸ hsame.symm.trans (ByteArray.ext hf))
            rw [Faulty.state_record, hput rfl, Memory.get?_put_self, hback]
          · cases h

theorem recover_inv {cause : Failure} {e : MutationError} (hne : backup ≠ path)
    (h : recover (Faulty.disk Memory.disk schedule) path backup old cause f = (e, g)) :
    (e = .rolledBack path cause ∧ g.state.get? path = some old ∨
      ∃ fault, e = .restoreFailed path backup cause fault ∧ f.NoneRemoved g ∧
        g.state.get? backup = f.state.get? backup) ∧
    SameElsewhere path backup f.state g.state := by
  unfold recover at h
  split at h
  · next s hrestore =>
    obtain ⟨hkeep, -⟩ := restore_frame hrestore
    rcases hremove : (Faulty.disk Memory.disk schedule).remove backup s with ⟨r, t⟩
    obtain ⟨-, hremoved⟩ := Faulty.remove_inv hremove
    rw [hremove] at h
    obtain ⟨rfl, rfl⟩ := Prod.mk.inj h
    refine ⟨.inl ⟨rfl, ?_⟩, fun q hp hb => ?_⟩
    · rw [hremoved path hne.symm, restore_ok hrestore]
    · rw [hremoved q hb, hkeep q hp]
  · next fault s hrestore =>
    obtain ⟨hkeep, hnone⟩ := restore_frame hrestore
    obtain ⟨rfl, rfl⟩ := Prod.mk.inj h
    exact ⟨.inr ⟨fault, rfl, hnone, hkeep backup hne⟩, fun q hp _ => hkeep q hp⟩

/-- The ways in which an attempt ends once it has its backup. The state `f` is the one
behind the backup. -/
inductive Ending (schedule : List DiskFault) (path backup : Path) (old : ByteArray) (plan : Plan)
    (f : Faulty Memory) : Except MutationError Report → Faulty Memory → Prop
  | rolledBack (cause : Failure) {g : Faulty Memory} (hold : g.state.get? path = some old) :
      Ending schedule path backup old plan f (.error (.rolledBack path cause)) g
  | kept (cause : Failure) (fault : RestoreFault) {g : Faulty Memory} (hnone : f.NoneRemoved g)
      (hbackup : g.state.get? backup = f.state.get? backup) :
      Ending schedule path backup old plan f (.error (.restoreFailed path backup cause fault)) g
  | untouched {g : Faulty Memory} (hnothing : plan.applied = [])
      (hsame : g.state.get? path = f.state.get? path) :
      Ending schedule path backup old plan f (.ok ⟨path, plan.applied, plan.skipped⟩) g
  | written {g : Faulty Memory} (hsome : plan.applied ≠ [])
      (hnew : g.state.get? path = some (f.handed schedule .write plan.content.toUTF8)) :
      Ending schedule path backup old plan f (.ok ⟨path, plan.applied, plan.skipped⟩) g

theorem commit_inv {plan : Plan} {r : Except MutationError Report} (hne : backup ≠ path)
    (h : commit (Faulty.disk Memory.disk schedule) path backup old plan f = (r, g)) :
    Ending schedule path backup old plan f r g ∧ SameElsewhere path backup f.state g.state := by
  unfold commit at h
  split at h
  · next bad hbad =>
    rcases hrecover : recover (Faulty.disk Memory.disk schedule) path backup old
      (.invalidInsertion bad.insertionLine plan.lineCount) f with ⟨e, s⟩
    rw [hrecover] at h
    obtain ⟨rfl, rfl⟩ := Prod.mk.inj h
    obtain ⟨hend, hsame⟩ := recover_inv hne hrecover
    refine ⟨?_, hsame⟩
    rcases hend with ⟨rfl, hold⟩ | ⟨fault, rfl, hnone, hbackup⟩
    · exact .rolledBack _ hold
    · exact .kept _ fault hnone hbackup
  · split at h
    · next hnothing =>
      rcases hremove : (Faulty.disk Memory.disk schedule).remove backup f with ⟨s, t⟩
      obtain ⟨-, hremoved⟩ := Faulty.remove_inv hremove
      rw [hremove] at h
      obtain ⟨rfl, rfl⟩ := Prod.mk.inj h
      exact ⟨.untouched (List.isEmpty_iff.1 hnothing) (hremoved path hne.symm),
        fun q _ hb => hremoved q hb⟩
    · next hsome =>
      split at h
      · next s hwrite =>
        obtain ⟨-, hput, hkeep⟩ := Faulty.write_inv hwrite
        rcases hremove : (Faulty.disk Memory.disk schedule).remove backup s with ⟨t, u⟩
        obtain ⟨-, hremoved⟩ := Faulty.remove_inv hremove
        rw [hremove] at h
        obtain ⟨rfl, rfl⟩ := Prod.mk.inj h
        refine ⟨.written (fun hn => hsome (by rw [hn]; rfl)) ?_, fun q hp hb => ?_⟩
        · rw [hremoved path hne.symm, hput rfl, Memory.get?_put_self]
        · rw [hremoved q hb, hkeep q hp]
      · next e s hwrite =>
        obtain ⟨hcalls, -, hkeep⟩ := Faulty.write_inv hwrite
        have hfs : f.NoneRemoved s := .one hcalls (by simp [Call.kind])
        rcases hrecover : recover (Faulty.disk Memory.disk schedule) path backup old (.commit e) s
          with ⟨e', t⟩
        rw [hrecover] at h
        obtain ⟨rfl, rfl⟩ := Prod.mk.inj h
        obtain ⟨hend, hsame⟩ := recover_inv hne hrecover
        refine ⟨?_, fun q hp hb => (hsame q hp hb).trans (hkeep q hp)⟩
        rcases hend with ⟨rfl, hold⟩ | ⟨fault, rfl, hnone, hbackup⟩
        · exact .rolledBack _ hold
        · exact .kept _ fault (hfs.trans hnone) (hbackup.trans (hkeep backup hne))

theorem readText_inv {r : Except ReadFault (ByteArray × String)}
    (h : readText (Faulty.disk Memory.disk schedule) path f = (r, g)) :
    g = f.record (.read path) ∧ ∀ bytes text, r = .ok (bytes, text) →
      Text.decode bytes = .ok text ∧
        ∃ kept, f.state.get? path = some kept ∧ bytes = f.handed schedule .read kept := by
  unfold readText at h
  split at h
  · next e s hread =>
    obtain ⟨rfl, -⟩ := Faulty.read_inv hread
    obtain ⟨rfl, rfl⟩ := Prod.mk.inj h
    exact ⟨rfl, by simp⟩
  · next bytes s hread =>
    obtain ⟨rfl, hbytes⟩ := Faulty.read_inv hread
    split at h <;> obtain ⟨rfl, rfl⟩ := Prod.mk.inj h
    · exact ⟨rfl, by simp⟩
    · next text htext =>
      refine ⟨rfl, fun bytes' text' he => ?_⟩
      obtain ⟨rfl, rfl⟩ := Prod.mk.inj (Except.ok.inj he)
      exact ⟨htext, hbytes bytes rfl⟩

theorem apply_cases {options : Options} {batch : List Insertion} {r : Except MutationError Report}
    (hread : f.flips schedule .read = false)
    (h : apply (Faulty.disk Memory.disk schedule) options path batch f = (r, g)) :
    (g.state = f.state ∧ ((∃ cause, r = .error (.read path cause)) ∨
      ∃ cause, r = .error (.backup path (backupPath options path) cause))) ∨
    ∃ old text s, f.state.get? path = some old ∧ Text.decode old = .ok text ∧
      s.calls = .copy path (backupPath options path) :: .read path :: f.calls ∧
      s.state = f.state.put (backupPath options path) (f.handed schedule .copy old) ∧
      commit (Faulty.disk Memory.disk schedule) path (backupPath options path) old
        (planFor options path text batch) s = (r, g) := by
  unfold apply at h
  simp only at h
  split at h
  · next cause s htext =>
    obtain ⟨rfl, -⟩ := readText_inv htext
    obtain ⟨rfl, rfl⟩ := Prod.mk.inj h
    exact .inl ⟨rfl, .inl ⟨cause, rfl⟩⟩
  · next old text s htext =>
    obtain ⟨rfl, hold⟩ := readText_inv htext
    obtain ⟨hdecode, kept, hkept, rfl⟩ := hold old text rfl
    rw [Faulty.handed_of_flips_eq_false hread] at hdecode h
    split at h
    · next cause t hcopy =>
      obtain ⟨hcalls, ⟨e, -, hstate⟩ | ⟨hok, -⟩⟩ := Faulty.copy_inv hcopy
      · obtain ⟨rfl, rfl⟩ := Prod.mk.inj h
        exact .inl ⟨hstate, .inr ⟨cause, rfl⟩⟩
      · cases hok
    · next t hcopy =>
      obtain ⟨hcalls, ⟨e, he, -⟩ | ⟨-, bytes, hbytes, hstate⟩⟩ := Faulty.copy_inv hcopy
      · cases he
      · obtain rfl : bytes = kept := Option.some.inj (hbytes.symm.trans hkept)
        have hput : t.state = f.state.put (backupPath options path)
            (f.handed schedule .copy bytes) := by
          have hflip := Faulty.flips_of_calls schedule .copy (Faulty.calls_record f (.read path))
            (by simp [Call.kind])
          simpa only [Faulty.handed, hflip, Faulty.state_record] using hstate
        exact .inr ⟨bytes, text, t, hkept, hdecode, hcalls, hput, h⟩

theorem apply_inv {options : Options} {batch : List Insertion} {r : Except MutationError Report}
    (hne : backupPath options path ≠ path) (hread : f.flips schedule .read = false)
    (h : apply (Faulty.disk Memory.disk schedule) options path batch f = (r, g)) :
    (g.state = f.state ∧ ((∃ cause, r = .error (.read path cause)) ∨
      ∃ cause, r = .error (.backup path (backupPath options path) cause))) ∨
    ∃ old text s, f.state.get? path = some old ∧ Text.decode old = .ok text ∧
      s.calls = .copy path (backupPath options path) :: .read path :: f.calls ∧
      s.state = f.state.put (backupPath options path) (f.handed schedule .copy old) ∧
      Ending schedule path (backupPath options path) old (planFor options path text batch) s r g ∧
      SameElsewhere path (backupPath options path) f.state g.state := by
  rcases apply_cases hread h with hrefused | ⟨old, text, s, hold, htext, hcalls, hput, hcommit⟩
  · exact .inl hrefused
  · obtain ⟨hend, hsame⟩ := commit_inv hne hcommit
    refine .inr ⟨old, text, s, hold, htext, hcalls, hput, hend, fun q hp hb => ?_⟩
    rw [hsame q hp hb, hput, Memory.get?_put_of_ne _ _ hb]

end Faults

/-- An attempt is all or nothing, whatever the faults, as long as its first reading is not flipped.
A failure to read or to back up changes nothing; a rollback leaves the old content; a failed
restoration has removed nothing, and the backup is what the copy stored; success leaves the old
content if no block went in, and else the planned content unless its writing was flipped. -/
theorem apply_all_or_nothing (schedule : List DiskFault) (options : Options) (path : Path)
    (batch : List Insertion) (f : Faulty Memory) (hsuffix : options.backupSuffix ≠ "")
    (hread : f.flips schedule .read = false) :
    let backup := backupPath options path
    let out := apply (Faulty.disk Memory.disk schedule) options path batch f
    SameElsewhere path backup f.state out.2.state ∧
    match out.1 with
    | .error (.read _ _) | .error (.backup _ _ _) => out.2.state = f.state
    | .error (.rolledBack _ _) =>
      ∃ old, f.state.get? path = some old ∧ out.2.state.get? path = some old
    | .error (.restoreFailed _ _ _ _) =>
      f.NoneRemoved out.2 ∧ ∃ old, f.state.get? path = some old ∧
        out.2.state.get? backup = some (f.handed schedule .copy old) ∧
        (f.flips schedule .copy = false → out.2.state.get? backup = some old)
    | .ok report => ∃ old text, f.state.get? path = some old ∧ Text.decode old = .ok text ∧
        let plan := planFor options path text batch
        report = ⟨path, plan.applied, plan.skipped⟩ ∧
        (plan.applied = [] → out.2.state.get? path = some old) ∧
        (plan.applied ≠ [] → f.flips schedule .write = false →
          out.2.state.get? path = some plan.content.toUTF8) := by
  intro backup out
  have hne : backup ≠ path := backupPath_ne hsuffix path
  rcases hout : out with ⟨r, g⟩
  rcases apply_inv hne hread hout with
    ⟨hstate, ⟨cause, rfl⟩ | ⟨cause, rfl⟩⟩ | ⟨old, text, s, hold, htext, hcalls, hput, hend, hsame⟩
  · exact ⟨fun q _ _ => by rw [hstate], hstate⟩
  · exact ⟨fun q _ _ => by rw [hstate], hstate⟩
  · refine ⟨hsame, ?_⟩
    cases hend with
    | rolledBack cause hback => exact ⟨old, hold, hback⟩
    | kept cause fault hnone hbackup =>
      have hstored : g.state.get? backup = some (f.handed schedule .copy old) := by
        rw [hbackup, hput, Memory.get?_put_self]
      have hfs : f.NoneRemoved s :=
        ⟨[.copy path backup, .read path], hcalls, by simp [Call.kind]⟩
      refine ⟨hfs.trans hnone, old, hold, hstored, fun hcopy => ?_⟩
      rw [hstored, Faulty.handed_of_flips_eq_false hcopy]
    | untouched hnothing hfile =>
      refine ⟨old, text, hold, htext, rfl, fun _ => ?_, fun hsome => absurd hnothing hsome⟩
      rw [hfile, hput, Memory.get?_put_of_ne _ _ hne.symm, hold]
    | written hsome hnew =>
      refine ⟨old, text, hold, htext, rfl, fun hnothing =>
        absurd hnothing hsome, fun _ hwrite => ?_⟩
      have hflip : s.flips schedule .write = false := by
        rw [Faulty.flips_of_calls schedule .write (f := f.record (.read path)) hcalls
          (by simp [Call.kind]),
          Faulty.flips_of_calls schedule .write (Faulty.calls_record f (.read path))
            (by simp [Call.kind]),
          hwrite]
      rw [hnew, Faulty.handed_of_flips_eq_false hflip]

section TornWrite

def oneFile : Memory := ⟨[(⟨"a.js"⟩, "x\n".toUTF8)]⟩

def oneBlock : List Insertion := [⟨⟨"f", .function, 2⟩, 1, "/** f */"⟩]

def tornWrite : List DiskFault := [⟨.write, 1, .torn, "torn"⟩]

theorem planFor_oneBlock : planFor .standard ⟨"a.js"⟩ "x\n" oneBlock =
    ⟨"/** f */\nx\n", [⟨⟨"f", .function, 2⟩, 1, 1, 1⟩], [], 1⟩ := by
  have horder : Plan.inOrder oneBlock = [(⟨⟨"f", .function, 2⟩, 1, "/** f */"⟩, 0)] :=
    List.mergeSort_singleton _
  have hskipped : Plan.inBatchOrder [] = [] := by simp [Plan.inBatchOrder]
  have hrange : ¬
      (1 = 0 ∨ Plan.countLines (Text.splitLines (Plan.splitMark "x\n".toList).2) + 1 < 1) := by
    decide
  have hnone : (∅ : Std.HashSet Target).contains ⟨"f", .function, 2⟩ = false :=
    Std.HashSet.contains_empty
  have hnamed : Plan.namedAbove (styleFor ⟨"a.js"⟩) Options.standard.window
      (.upTo 1 (.atBottom (Text.splitLines (Plan.splitMark "x\n".toList).2))) "f" =
      false := by decide
  -- the set of targets does not compute, so the refusal is decided condition by condition
  simp only [planFor, Plan.ofBatch, Plan.run, horder, List.foldr_cons, List.foldr_nil, Plan.step,
    Plan.refusal?, hrange, hnone, hnamed, if_false, Bool.false_eq_true, hskipped]
  rfl

theorem apply_tornWrite_restores :
    Options.standard.backupSuffix ≠ "" ∧ (Faulty.start oneFile).flips tornWrite .read = false ∧
      ∃ old, oneFile.get? ⟨"a.js"⟩ = some old ∧
        (apply (Faulty.disk Memory.disk tornWrite) .standard ⟨"a.js"⟩ oneBlock
          (.start oneFile)).2.state.get?
          ⟨"a.js"⟩ = some old := by
  have hsuffix : Options.standard.backupSuffix ≠ "" := by decide
  have hread : (Faulty.start oneFile).flips tornWrite .read = false := by decide
  have hresult :
      (apply (Faulty.disk Memory.disk tornWrite) .standard ⟨"a.js"⟩ oneBlock (.start oneFile)).1 =
      .error (.rolledBack ⟨"a.js"⟩ (.commit (.injected "torn"))) := by
    change (commit _ _ _ _ (planFor .standard ⟨"a.js"⟩ "x\n" oneBlock) _).1 = _
    rw [planFor_oneBlock]
    rfl
  have hend :=
    (apply_all_or_nothing tornWrite .standard ⟨"a.js"⟩ oneBlock (.start oneFile) hsuffix hread).2
  simp only [hresult] at hend
  exact ⟨hsuffix, hread, hend⟩

end TornWrite

end Mutation

end DocGap
