import DocGap.Proofs.Undisturbed

/-!
# What becomes of a kept backup

An attempt whose restoration fails keeps its backup. The next attempt on the same file knows nothing
of that: once it has read the file, whatever it holds by then, it puts that into the backup. So the
content that was kept outlasts later attempts only as long as they do not begin, or begin with a
file that holds it.
-/
namespace DocGap.Mutation

section Invariants

variable {σ : Type} {d : Disk σ} {path backup : Path} {I : σ → Prop}

theorem recover_invariant (hread : ∀ p s, I s → I (d.read p s).2)
    (hwrite : ∀ bytes s, I s → I (d.write path bytes s).2)
    (hremove : ∀ s, I s → I (d.remove backup s).2)
    (old : ByteArray) (cause : Failure) {s : σ} (hs : I s) :
    I (recover d path backup old cause s).2 := by
  have hrestored := restore_invariant hread hwrite backup old hs
  unfold recover
  rcases hrestore : restore d path backup old s with ⟨_ | u, t⟩ <;> rw [hrestore] at hrestored
  · exact hrestored
  · exact hremove t hrestored

/-- What holds behind the backup and is kept by the calls that follow holds at the end. -/
theorem commit_invariant (hread : ∀ p s, I s → I (d.read p s).2)
    (hwrite : ∀ bytes s, I s → I (d.write path bytes s).2)
    (hremove : ∀ s, I s → I (d.remove backup s).2)
    (old : ByteArray) (plan : Plan) {s : σ} (hs : I s) : I (commit d path backup old plan s).2 := by
  unfold commit
  split
  · exact recover_invariant hread hwrite hremove old _ hs
  · dsimp only
    split
    · exact hremove s hs
    · have hwritten := hwrite plan.content.toUTF8 s hs
      rcases hput : d.write path plan.content.toUTF8 s with ⟨_ | u, t⟩ <;> rw [hput] at hwritten
      · exact recover_invariant hread hwrite hremove old _ hwritten
      · exact hremove t hwritten

end Invariants

/-- One attempt of several: what it was to insert, what it found, how it ended and what it left. -/
structure Attempt (σ : Type) where
  batch : List Insertion
  before : σ
  result : Except MutationError Report
  after : σ

def attempts {σ : Type} (disk : Disk σ) (options : Options) (path : Path) :
    List (List Insertion) → σ → List (Attempt σ)
  | [], _ => []
  | batch :: rest, s =>
    let out := apply disk options path batch s
    ⟨batch, s, out.1, out.2⟩ :: attempts disk options path rest out.2

def began : Except MutationError Report → Bool
  | .error (.read _ _) | .error (.backup _ _ _) => false
  | _ => true

def changed : Except MutationError Report → Bool
  | .ok report => report.changed
  | .error _ => false

def writes : Failure → Nat
  | .invalidInsertion _ _ => 0
  | .commit _ => 1

/-- The content is that of the file or of its backup. -/
def Held (options : Options) (path : Path) (old : ByteArray) (m : Memory) : Prop :=
  m.get? path = some old ∨ m.get? (backupPath options path) = some old

/-- The ways in which an attempt leaves a content that was held. -/
inductive Spares (schedule : List DiskFault) (options : Options) (path : Path) (old : ByteArray)
    (a : Attempt (Faulty Memory)) : Prop
  | refused (hnot : began a.result = false)
  | unchanged (hfound : a.before.state.get? path = some old) (hsame : changed a.result = false)
  /-- The file was changed, and its backup could not be removed. -/
  | backupLeft (hfound : a.before.state.get? path = some old) (hnew : changed a.result = true)
      (hremove : a.before.hit schedule .remove 1 ≠ none)
  /-- By chance, what was written is the content again. -/
  | rewritten {found : ByteArray} {text : String} (hfound : a.before.state.get? path = some found)
      (htext : Text.decode found = .ok text) (hnew : changed a.result = true)
      (hback : (planFor options path text a.batch).content.toUTF8 = old)
  /-- By chance, the content is the first half of what was to be written. The write was
  torn, and nothing was written over it, since the backup could not be read or the second
  write failed altogether. -/
  | tornNew {found : ByteArray} {text : String} {p b : Path} {e : DiskError} {fault : RestoreFault}
      (hfound : a.before.state.get? path = some found) (htext : Text.decode found = .ok text)
      (hfailed : a.result = .error (.restoreFailed p b (.commit e) fault))
      (htorn : a.before.hit schedule .write 1 = some .torn)
      (hstays : a.before.hit schedule .read 2 ≠ none ∨ a.before.hit schedule .write 2 = some .fail)
      (hback : Faulty.firstHalf (planFor options path text a.batch).content.toUTF8 = old)
  /-- By chance, the content is the first half of what was found, and writing that back was torn. -/
  | tornBack {found : ByteArray} {p b : Path} {cause : Failure} {fault : RestoreFault}
      (hfound : a.before.state.get? path = some found)
      (hfailed : a.result = .error (.restoreFailed p b cause fault))
      (hread : a.before.hit schedule .read 2 = none)
      (htorn : a.before.hit schedule .write (writes cause + 1) = some .torn)
      (hback : Faulty.firstHalf found = old)

section FailedRestoration

variable {schedule : List DiskFault} {path backup : Path}
  {found content old : ByteArray} {cause : Failure}
  {f g : Faulty Memory}

/-- What is left in the file if its restoration fails. The state is the one behind the backup. -/
def failedFile (schedule : List DiskFault) (f : Faulty Memory) (found content : ByteArray)
    (cause : Failure) :
    ByteArray :=
  let current := match cause with
    | .invalidInsertion _ _ => found
    | .commit _ => Faulty.leaves found content (f.hit schedule .write 1)
  if f.hit schedule .read 1 = none then Faulty.leaves current found
    (f.hit schedule .write (writes cause + 1))
  else current

theorem restore_of_error {current : ByteArray} {fault : RestoreFault}
    (hflips : ∀ fault ∈ schedule, fault.effect ≠ .flip) (hpath : f.state.get? path = some current)
    (hbackup : f.state.get? backup = some found)
    (h : restore (Faulty.disk Memory.disk schedule) path backup found f = (.error fault, g)) :
    g.state.get? path = some (if f.hit schedule .read 1 = none then
      Faulty.leaves current found (f.hit schedule .write 1) else current) := by
  unfold restore at h
  split at h
  · next e s hread =>
    obtain ⟨rfl, -⟩ := Faulty.read_inv hread
    have hhit := mt (Faulty.read_of_hit hread hbackup (Faulty.hit_ne_flip hflips _ _ _)).2 nofun
    obtain ⟨-, rfl⟩ := Prod.mk.inj h
    rwa [if_neg hhit]
  · next saved s hread =>
    obtain ⟨rfl, hsaved⟩ := Faulty.read_inv hread
    obtain ⟨kept, hkept, rfl⟩ := hsaved saved rfl
    obtain rfl : kept = found := Option.some.inj (hkept.symm.trans hbackup)
    rw [Faulty.handed_of_flips_eq_false (Faulty.flips_eq_false_of_forall hflips _ _)] at hread h
    rw [if_pos ((Faulty.read_of_hit hread hbackup (Faulty.hit_ne_flip hflips _ _ _)).1 rfl)]
    have hwritten {r : Except DiskError Unit} {t : Faulty Memory}
        (hwrite : (Faulty.disk Memory.disk schedule).write path kept
        (f.record (.read backup)) = (r, t)) :
        t.state.get? path = some (Faulty.leaves current kept (f.hit schedule .write 1)) :=
      (Faulty.write_of_hit hwrite hpath).1.trans
        (by rw [Faulty.hit_of_calls schedule [.read backup] (Faulty.calls_record f _)]; rfl)
    rw [if_neg (by simp)] at h
    split at h
    · next e t hwrite =>
      obtain ⟨-, rfl⟩ := Prod.mk.inj h
      exact hwritten hwrite
    · next t hwrite =>
      split at h
      · next e u hlast =>
        obtain ⟨rfl, -⟩ := Faulty.read_inv hlast
        obtain ⟨-, rfl⟩ := Prod.mk.inj h
        rw [Faulty.state_record, hwritten hwrite]
      · next bytes u hlast =>
        obtain ⟨rfl, -⟩ := Faulty.read_inv hlast
        split at h
        · cases h
        · obtain ⟨-, rfl⟩ := Prod.mk.inj h
          rw [Faulty.state_record, hwritten hwrite]

theorem recover_of_restoreFailed {current : ByteArray} {p b : Path} {cause' : Failure}
    {fault : RestoreFault}
    (hflips : ∀ fault ∈ schedule, fault.effect ≠ .flip)
    (hpath : f.state.get? path = some current) (hbackup : f.state.get? backup = some found)
    (h : recover (Faulty.disk Memory.disk schedule) path backup found cause f =
      (.restoreFailed p b cause' fault, g)) :
    cause' = cause ∧ g.state.get? path = some (if f.hit schedule .read 1 = none then
      Faulty.leaves current found (f.hit schedule .write 1) else current) := by
  unfold recover at h
  split at h
  · cases h
  · next fault' s hrestore =>
    obtain ⟨he, rfl⟩ := Prod.mk.inj h
    cases he
    exact ⟨rfl, restore_of_error hflips hpath hbackup hrestore⟩

theorem commit_of_restoreFailed {plan : Plan} {p b : Path} {fault : RestoreFault}
    (hne : backup ≠ path)
    (hflips : ∀ fault ∈ schedule, fault.effect ≠ .flip) (hpath : f.state.get? path = some found)
    (hbackup : f.state.get? backup = some found)
    (h : commit (Faulty.disk Memory.disk schedule) path backup found plan f =
      (.error (.restoreFailed p b cause fault), g)) :
    g.state.get? path = some (failedFile schedule f found plan.content.toUTF8 cause) ∧
      ∀ e, cause = .commit e → f.hit schedule .write 1 ≠ none := by
  unfold commit at h
  split at h
  · next bad hbad =>
    rcases hrecover : recover (Faulty.disk Memory.disk schedule) path backup found
      (.invalidInsertion bad.insertionLine plan.lineCount) f with ⟨e, s⟩
    rw [hrecover] at h
    obtain ⟨he, rfl⟩ := Prod.mk.inj h
    cases he
    obtain ⟨rfl, hfile⟩ := recover_of_restoreFailed hflips hpath hbackup hrecover
    exact ⟨hfile, nofun⟩
  · split at h
    · cases h
    · split at h
      · cases h
      · next e s hwrite =>
        obtain ⟨hcalls, -, hkeep⟩ := Faulty.write_inv hwrite
        obtain ⟨hcurrent, hok⟩ := Faulty.write_of_hit hwrite hpath
        rcases hrecover :
          recover (Faulty.disk Memory.disk schedule) path backup found (.commit e) s with ⟨e', t⟩
        rw [hrecover] at h
        obtain ⟨he, rfl⟩ := Prod.mk.inj h
        cases he
        obtain ⟨rfl, hfile⟩ :=
          recover_of_restoreFailed hflips hcurrent ((hkeep _ hne).trans hbackup) hrecover
        rw [Faulty.hit_of_calls schedule [.write path _] hcalls,
          Faulty.hit_of_calls schedule [.write path _] hcalls]
          at hfile
        exact ⟨hfile, fun _ _ hnone => nomatch hok hnone⟩

theorem commit_of_changed {plan : Plan} {r : Except MutationError Report} (hne : backup ≠ path)
    (hflips : ∀ fault ∈ schedule, fault.effect ≠ .flip) (hbackup : f.state.get? backup = some found)
    (h : commit (Faulty.disk Memory.disk schedule) path backup found plan f = (r, g))
    (hchanged : changed r = true) :
    g.state.get? backup = some found ↔ f.hit schedule .remove 1 ≠ none := by
  unfold commit at h
  split at h
  · obtain ⟨rfl, -⟩ := Prod.mk.inj h
    cases hchanged
  · split at h
    · next hnothing =>
      obtain ⟨rfl, -⟩ := Prod.mk.inj h
      simp [changed, Report.changed, hnothing] at hchanged
    · split at h
      · next s hwrite =>
        obtain ⟨hcalls, -, hkeep⟩ := Faulty.write_inv hwrite
        rcases hremove : (Faulty.disk Memory.disk schedule).remove backup s with ⟨r', t⟩
        rw [hremove] at h
        obtain ⟨-, rfl⟩ := Prod.mk.inj h
        rw [Faulty.remove_of_hit hremove ((hkeep _ hne).trans hbackup)
          (Faulty.hit_ne_flip hflips _ _ _),
          Faulty.hit_of_calls schedule [.write path _] hcalls]
        rfl
      · obtain ⟨rfl, -⟩ := Prod.mk.inj h
        cases hchanged

theorem failedFile_eq_iff (hflips : ∀ fault ∈ schedule, fault.effect ≠ .flip) (hother : found ≠ old)
    (hwrite : ∀ e, cause = .commit e → f.hit schedule .write 1 ≠ none) :
    failedFile schedule f found content cause = old ↔
      (∃ e, cause = .commit e ∧ f.hit schedule .write 1 = some .torn ∧
        (f.hit schedule .read 1 ≠ none ∨ f.hit schedule .write 2 = some .fail) ∧
          Faulty.firstHalf content = old) ∨
      f.hit schedule .read 1 = none ∧ f.hit schedule .write (writes cause + 1) = some .torn ∧
        Faulty.firstHalf found = old := by
  have hfirst := Faulty.hit_ne_flip hflips f .write 1
  have hsecond := Faulty.hit_ne_flip hflips f .write 2
  unfold failedFile
  cases cause with
  | invalidInsertion line count =>
    by_cases hread : f.hit schedule .read 1 = none
    · simp only [hread, if_true, writes]
      rcases hhit : f.hit schedule .write 1 with _ | _ | _ | _ <;> simp_all [Faulty.leaves]
    · simp [hread, hother]
  | commit e =>
    have hfailed := hwrite e rfl
    by_cases hread : f.hit schedule .read 1 = none
    · simp only [hread, if_true, writes]
      rcases hhit : f.hit schedule .write 1 with _ | _ | _ | _ <;>
        rcases hhit' : f.hit schedule .write 2 with _ | _ | _ | _ <;> simp_all [Faulty.leaves]
    · simp only [hread, if_false]
      rcases hhit : f.hit schedule .write 1 with _ | _ | _ | _ <;> simp_all [Faulty.leaves]

end FailedRestoration

section Steps

variable {schedule : List DiskFault} {options : Options} {path : Path} {f g : Faulty Memory}
  {batch : List Insertion} {r : Except MutationError Report}

theorem get?_backup_of_commit {backup : Path} {found : ByteArray} {plan : Plan}
    (hne : backup ≠ path)
    (hbackup : f.state.get? backup = some found)
    (h : commit (Faulty.disk Memory.disk schedule) path backup found plan f = (r, g)) :
    g.state.get? backup = none ∨ g.state.get? backup = some found := by
  obtain rfl := congrArg Prod.snd h
  apply commit_invariant (I := fun k : Faulty Memory =>
    k.state.get? backup = none ∨ k.state.get? backup = some found)
  · intro p k hk
    rcases hread : (Faulty.disk Memory.disk schedule).read p k with ⟨r, l⟩
    obtain ⟨rfl, -⟩ := Faulty.read_inv hread
    exact hk
  · intro bytes k hk
    rcases hwrite : (Faulty.disk Memory.disk schedule).write path bytes k with ⟨r, l⟩
    obtain ⟨-, -, hsame⟩ := Faulty.write_inv hwrite
    rwa [hsame _ hne]
  · intro k hk
    rcases hremove : (Faulty.disk Memory.disk schedule).remove backup k with ⟨r, l⟩
    obtain ⟨-, hsame | herased⟩ := Faulty.remove_cases hremove
    · rwa [hsame]
    · exact .inl (by rw [herased, Memory.get?_erase_self])
  · exact .inr hbackup

theorem content_planFor_ne {old : ByteArray} {text : String} (htext : Text.decode old = .ok text)
    (hsome : (planFor options path text batch).applied ≠ []) :
    (planFor options path text batch).content.toUTF8 ≠ old := by
  intro hsame
  rw [← Text.toUTF8_of_decode htext] at hsame
  have hcontent : (planFor options path text batch).content = text := String.toByteArray_inj.1 hsame
  exact hsome ((Plan.applied_eq_nil_iff _ _ _ _).2 ((Plan.content_eq_iff _ _ _ _).1 hcontent))

theorem spares_iff_of_ne {old found : ByteArray} {text : String}
    (hfound : f.state.get? path = some found)
    (htext : Text.decode found = .ok text) (hother : found ≠ old) (hbegan : began r = true) :
    Spares schedule options path old ⟨batch, f, r, g⟩ ↔
      changed r = true ∧ (planFor options path text batch).content.toUTF8 = old ∨
      ∃ p b cause fault, r = .error (.restoreFailed p b cause fault) ∧
        ((∃ e, cause = .commit e ∧ f.hit schedule .write 1 = some .torn ∧
          (f.hit schedule .read 2 ≠ none ∨ f.hit schedule .write 2 = some .fail) ∧
            Faulty.firstHalf (planFor options path text batch).content.toUTF8 = old) ∨
        f.hit schedule .read 2 = none ∧ f.hit schedule .write (writes cause + 1) = some .torn ∧
          Faulty.firstHalf found = old) := by
  constructor
  · intro h
    cases h with
    | refused hnot =>
      rw [show began r = false from hnot] at hbegan
      cases hbegan
    | unchanged hfile => exact absurd (Option.some.inj (hfound.symm.trans hfile)) hother
    | backupLeft hfile => exact absurd (Option.some.inj (hfound.symm.trans hfile)) hother
    | rewritten hfile hdecode hnew hback =>
      obtain rfl := Option.some.inj (hfound.symm.trans hfile)
      obtain rfl := Except.ok.inj (htext.symm.trans hdecode)
      exact .inl ⟨hnew, hback⟩
    | tornNew hfile hdecode hfailed htorn hstays hback =>
      obtain rfl := Option.some.inj (hfound.symm.trans hfile)
      obtain rfl := Except.ok.inj (htext.symm.trans hdecode)
      exact .inr ⟨_, _, _, _, hfailed, .inl ⟨_, rfl, htorn, hstays, hback⟩⟩
    | tornBack hfile hfailed hread htorn hback =>
      obtain rfl := Option.some.inj (hfound.symm.trans hfile)
      exact .inr ⟨_, _, _, _, hfailed, .inr ⟨hread, htorn, hback⟩⟩
  · rintro (⟨hnew, hback⟩ | ⟨p, b, cause, fault, hfailed,
      ⟨e, rfl, htorn, hstays, hback⟩ | ⟨hread, htorn, hback⟩⟩)
    · exact .rewritten hfound htext hnew hback
    · exact .tornNew hfound htext hfailed htorn hstays hback
    · exact .tornBack hfound hfailed hread htorn hback

theorem held_apply_iff (hne : backupPath options path ≠ path)
    (hflips : ∀ fault ∈ schedule, fault.effect ≠ .flip) {old : ByteArray}
    (hheld : Held options path old f.state)
    (h : apply (Faulty.disk Memory.disk schedule) options path batch f = (r, g)) :
    Held options path old g.state ↔ Spares schedule options path old ⟨batch, f, r, g⟩ := by
  have hhanded (f : Faulty Memory) (kind : CallKind) (bytes : ByteArray) :
      f.handed schedule kind bytes = bytes :=
    Faulty.handed_of_flips_eq_false (Faulty.flips_eq_false_of_forall hflips f kind) bytes
  rcases apply_cases (Faulty.flips_eq_false_of_forall hflips _ _) h with
    ⟨hstate, hrefused⟩ | ⟨found, text, s, hfound, htext, hcalls, hput, hcommit⟩
  · have hnot : began r = false := by
      rcases hrefused with ⟨cause, rfl⟩ | ⟨cause, rfl⟩ <;> rfl
    exact ⟨fun _ => .refused hnot, fun _ => by rwa [hstate]⟩
  rw [hhanded] at hput
  have hpath : s.state.get? path = some found := by
    rw [hput, Memory.get?_put_of_ne _ _ hne.symm, hfound]
  have hbackup : s.state.get? (backupPath options path) = some found := by
    rw [hput, Memory.get?_put_self]
  -- the attempt has read and copied once when it commits
  have hhit (kind : CallKind) (n : Nat) : s.hit schedule kind n = f.hit schedule kind
      ([Call.copy path (backupPath options path), .read path].countP (·.kind = kind) + n) :=
    Faulty.hit_of_calls schedule _ hcalls kind n
  obtain ⟨hend, -⟩ := commit_inv hne hcommit
  have hbegan : began r = true := by cases hend <;> rfl
  by_cases hsame : found = old
  · subst hsame
    cases hend with
    | rolledBack cause hback => exact ⟨fun _ => .unchanged hfound rfl, fun _ => .inl hback⟩
    | kept cause fault hnone hkept =>
      exact ⟨fun _ => .unchanged hfound rfl, fun _ => .inr (hkept.trans hbackup)⟩
    | untouched hnothing hfile =>
      exact ⟨fun _ => .unchanged hfound (by simp [changed, Report.changed, hnothing]),
        fun _ => .inl (hfile.trans hpath)⟩
    | written hsome hnew =>
      have hchanged : changed (.ok ⟨path, (planFor options path text batch).applied,
          (planFor options path text batch).skipped⟩) = true := by
        simpa [changed, Report.changed] using hsome
      have hcontent := content_planFor_ne htext hsome
      have hlost : g.state.get? path ≠ some found := by
        rw [hnew, hhanded]
        exact fun heq => hcontent (Option.some.inj heq)
      have hleft := commit_of_changed hne hflips hbackup hcommit hchanged
      rw [hhit] at hleft
      constructor
      · exact fun hheld => .backupLeft hfound hchanged (hleft.1 (hheld.resolve_left hlost))
      · intro h
        cases h with
        | refused hnot => cases hnot
        | unchanged _ hsame =>
          rw [hchanged] at hsame
          cases hsame
        | backupLeft _ _ hremove => exact .inr (hleft.2 hremove)
        | rewritten hfile hdecode _ hback =>
          obtain rfl := Option.some.inj (hfound.symm.trans hfile)
          obtain rfl := Except.ok.inj (htext.symm.trans hdecode)
          exact absurd hback hcontent
        | tornNew _ _ hfailed => cases hfailed
        | tornBack _ hfailed => cases hfailed
  · -- the backup holds what was found, or nothing
    have hgone : g.state.get? (backupPath options path) ≠ some old := by
      rcases get?_backup_of_commit hne hbackup hcommit with hnone | hkept
      · rw [hnone]
        exact nofun
      · rw [hkept]
        exact fun heq => hsame (Option.some.inj heq)
    have hheld_iff : Held options path old g.state ↔ g.state.get? path = some old :=
      ⟨fun hheld => hheld.resolve_right hgone, .inl⟩
    rw [hheld_iff, spares_iff_of_ne hfound htext hsame hbegan]
    cases hend with
    | rolledBack cause hback => simp [hback, hsame, changed]
    | kept cause fault hnone hkept =>
      obtain ⟨hfile, hwrite⟩ := commit_of_restoreFailed hne hflips hpath hbackup hcommit
      rw [hfile, Option.some.injEq, failedFile_eq_iff hflips hsame hwrite]
      simp [changed, hhit, Call.kind]
    | untouched hnothing hfile => simp [hfile, hpath, hsame, changed, Report.changed, hnothing]
    | written hsome hnew =>
      rw [hhanded] at hnew
      simp [hnew, changed, Report.changed, hsome]

theorem held_attempts_iff (hne : backupPath options path ≠ path)
    (hflips : ∀ fault ∈ schedule, fault.effect ≠ .flip) {old : ByteArray}
    (batches : List (List Insertion))
    (hheld : Held options path old f.state) :
    let all := attempts (Faulty.disk Memory.disk schedule) options path batches f
    (∀ a ∈ all, Held options path old a.after.state) ↔
    ∀ a ∈ all, Spares schedule options path old a := by
  induction batches generalizing f with
  | nil => simp [attempts]
  | cons batch rest ih =>
    have hstep := held_apply_iff hne hflips hheld (rfl : apply _ options path batch f = _)
    simp only [attempts, List.forall_mem_cons]
    constructor
    · rintro ⟨hfirst, hrest⟩
      exact ⟨hstep.1 hfirst, (ih hfirst).1 hrest⟩
    · rintro ⟨hfirst, hrest⟩
      have hheld := hstep.2 hfirst
      exact ⟨hheld, (ih hheld).2 hrest⟩

end Steps

theorem exists_apply_of_attempts {σ : Type} {disk : Disk σ} {options : Options} {path : Path}
    {batches : List (List Insertion)} {s : σ} {earlier later : List (Attempt σ)} {a : Attempt σ}
    (h : attempts disk options path batches s = earlier ++ a :: later) :
    ∃ rest, apply disk options path a.batch a.before = (a.result, a.after) ∧
      later = attempts disk options path rest a.after := by
  induction batches generalizing s earlier with
  | nil => simp [attempts] at h
  | cons batch rest ih =>
    cases earlier with
    | nil =>
      obtain ⟨rfl, rfl⟩ := List.cons.inj h
      exact ⟨rest, rfl, rfl⟩
    | cons first earlier => exact ih (List.cons.inj h).2

/-- If the faults only fail and tear, then an attempt whose restoration fails leaves what it
found at the backup path. That content is held after every later attempt if and only if every
one of them spares it. -/
theorem kept_backup_iff {schedule : List DiskFault} {options : Options} {path : Path}
    {f : Faulty Memory}
    {batches : List (List Insertion)} {earlier later : List (Attempt (Faulty Memory))}
    {failed : Attempt (Faulty Memory)} {p b : Path} {cause : Failure} {fault : RestoreFault}
    (hsuffix : options.backupSuffix ≠ "") (hflips : ∀ fault ∈ schedule, fault.effect ≠ .flip)
    (hrun : attempts (Faulty.disk Memory.disk schedule) options path batches f =
      earlier ++ failed :: later)
    (hfailed : failed.result = .error (.restoreFailed p b cause fault)) :
    ∃ old, failed.before.state.get? path = some old ∧
      failed.after.state.get? (backupPath options path) = some old ∧
      ((∀ a ∈ later, Held options path old a.after.state) ↔
        ∀ a ∈ later, Spares schedule options path old a) := by
  have hne : backupPath options path ≠ path := backupPath_ne hsuffix path
  obtain ⟨rest, happly, rfl⟩ := exists_apply_of_attempts hrun
  rw [hfailed] at happly
  rcases apply_inv hne (Faulty.flips_eq_false_of_forall hflips _ _) happly with
    ⟨-, ⟨c, hc⟩ | ⟨c, hc⟩⟩ | ⟨old, text, s, hold, -, -, hput, hend, -⟩
  · cases hc
  · cases hc
  · cases hend with
    | kept cause fault hnone hkept =>
      have hbackup : failed.after.state.get? (backupPath options path) = some old := by
        rw [hkept, hput, Memory.get?_put_self,
          Faulty.handed_of_flips_eq_false (Faulty.flips_eq_false_of_forall hflips _ _)]
      exact ⟨old, hold, hbackup, held_attempts_iff hne hflips rest (.inr hbackup)⟩

section LostBackup

/-- The write is torn and the backup cannot be read, so that it is kept. -/
def unreadBackup : List DiskFault := [⟨.write, 1, .torn, "torn"⟩, ⟨.read, 2, .fail, "bad"⟩]

def noSecondBackup : List DiskFault := unreadBackup ++ [⟨.copy, 2, .fail, "full"⟩]

def keptFailure : MutationError :=
  .restoreFailed ⟨"a.js"⟩ ⟨"a.js.neandoc.backup"⟩ (.commit (.injected "torn"))
    (.disk (.injected "bad"))

def tornState : Faulty Memory :=
  ⟨(oneFile.put ⟨"a.js.neandoc.backup"⟩ "x\n".toUTF8).put ⟨"a.js"⟩ "/** f".toUTF8,
    [.read ⟨"a.js.neandoc.backup"⟩, .write ⟨"a.js"⟩ 11,
    .copy ⟨"a.js"⟩ ⟨"a.js.neandoc.backup"⟩, .read ⟨"a.js"⟩]⟩

theorem apply_oneBlock (schedule : List DiskFault)
    (h : schedule = unreadBackup ∨ schedule = noSecondBackup) :
    apply (Faulty.disk Memory.disk schedule) .standard ⟨"a.js"⟩ oneBlock (.start oneFile) =
      (.error keptFailure, tornState) := by
  have hbegun : apply (Faulty.disk Memory.disk schedule) .standard ⟨"a.js"⟩ oneBlock
      (.start oneFile) =
      commit (Faulty.disk Memory.disk schedule) ⟨"a.js"⟩ ⟨"a.js.neandoc.backup"⟩ "x\n".toUTF8
        (planFor .standard ⟨"a.js"⟩ "x\n" oneBlock)
        ⟨oneFile.put ⟨"a.js.neandoc.backup"⟩ "x\n".toUTF8,
          [.copy ⟨"a.js"⟩ ⟨"a.js.neandoc.backup"⟩, .read ⟨"a.js"⟩]⟩ := by
    rcases h with rfl | rfl <;> rfl
  rw [hbegun, planFor_oneBlock]
  rcases h with rfl | rfl <;> rfl

theorem second_backup_refused :
    Options.standard.backupSuffix ≠ "" ∧ (∀ fault ∈ noSecondBackup, fault.effect ≠ .flip) ∧
      ∃ failed second, attempts (Faulty.disk Memory.disk noSecondBackup) .standard ⟨"a.js"⟩
        [oneBlock, oneBlock]
          (.start oneFile) = [failed, second] ∧
        failed.result = .error keptFailure ∧
          Held .standard ⟨"a.js"⟩ "x\n".toUTF8 second.after.state := by
  have hsuffix : Options.standard.backupSuffix ≠ "" := by decide
  have hflips : ∀ fault ∈ noSecondBackup, fault.effect ≠ .flip := by decide
  let second := apply (Faulty.disk Memory.disk noSecondBackup) .standard ⟨"a.js"⟩ oneBlock tornState
  have hrun : attempts (Faulty.disk Memory.disk noSecondBackup) .standard ⟨"a.js"⟩
      [oneBlock, oneBlock]
      (.start oneFile) = [] ++ ⟨oneBlock, .start oneFile, .error keptFailure, tornState⟩ ::
        [⟨oneBlock, tornState, second.1, second.2⟩] := by
    rw [attempts, apply_oneBlock noSecondBackup (.inr rfl)]
    rfl
  obtain ⟨old, hold, -, hiff⟩ := kept_backup_iff hsuffix hflips hrun rfl
  obtain rfl : old = "x\n".toUTF8 := Option.some.inj hold.symm
  refine ⟨hsuffix, hflips, _, _, hrun, rfl, ?_⟩
  refine hiff.2 (fun a ha => ?_) _ List.mem_cons_self
  rw [List.mem_singleton.1 ha]
  exact .refused rfl

/-- The second attempt has nothing to do. It makes a backup of the torn file and removes it. -/
theorem kept_backup_lost :
    oneFile.get? ⟨"a.js"⟩ = some "x\n".toUTF8 ∧
      ∃ failed second, attempts (Faulty.disk Memory.disk unreadBackup) .standard
        ⟨"a.js"⟩ [oneBlock, []]
          (.start oneFile) = [failed, second] ∧
        failed.result = .error keptFailure ∧
          Held .standard ⟨"a.js"⟩ "x\n".toUTF8 failed.after.state ∧
        ¬ Held .standard ⟨"a.js"⟩ "x\n".toUTF8 second.after.state := by
  have hplan : planFor .standard ⟨"a.js"⟩ "/** f" [] = ⟨"/** f", [], [], 1⟩ := by
    have horder : Plan.inOrder [] = [] := by simp [Plan.inOrder]
    have hskipped : Plan.inBatchOrder [] = [] := by simp [Plan.inBatchOrder]
    simp only [planFor, Plan.ofBatch, Plan.run, horder, List.foldr_nil, hskipped]
    rfl
  have hsecond :
      (apply (Faulty.disk Memory.disk unreadBackup) .standard ⟨"a.js"⟩ [] tornState).2.state =
      (tornState.state.put ⟨"a.js.neandoc.backup"⟩ "/** f".toUTF8).erase
      ⟨"a.js.neandoc.backup"⟩ := by
    change Faulty.state (commit _ _ _ _ (planFor .standard ⟨"a.js"⟩ "/** f" []) _).2 = _
    rw [hplan]
    rfl
  refine ⟨rfl, _, _, rfl, ?_⟩
  rw [apply_oneBlock unreadBackup (.inl rfl)]
  refine ⟨rfl, .inr rfl, ?_⟩
  rw [Held, hsecond]
  rintro (hfile | hbackup)
  · have hsize : "/** f".toUTF8.size = "x\n".toUTF8.size :=
      congrArg ByteArray.size (Option.some.inj hfile)
    exact absurd hsize (by decide)
  · cases hbackup

end LostBackup

end DocGap.Mutation
