import DocGap.Proofs.Addressed
import DocGap.Proofs.FileKeys
import DocGap.Proofs.GapBatch
import DocGap.Proofs.TreeAttempt
import DocGap.Proofs.WithinText

/-!
# Files of a batch do not disturb each other

Everything that a batch decides on is decided on in the tree as it was, and the files of a batch are
at different places, none of which is the place of another one's backup. So every file fares as it
would alone, whatever becomes of the others, except that a path is left alone as soon as its key
came before: also if it came with a path that leads nowhere.
-/
namespace DocGap

theorem Settings.suffix_of_no_issues {suffix : String} (h : suffixIssues suffix = []) :
    suffix ≠ "" ∧ '/' ∉ suffix.toList := by
  obtain ⟨hfront, hslash⟩ := List.append_eq_nil_iff.1 h
  refine ⟨fun hempty => ?_, fun hmem => ?_⟩
  · rw [hempty] at hfront
    cases hfront
  · rw [if_pos (List.any_eq_true.2 ⟨'/', hmem, rfl⟩)] at hslash
    cases hslash

theorem Outline.path_ofBytes {path : Path} {bytes : ByteArray} {o : Outline}
    (h : Outline.ofBytes path bytes = .ok o) : o.path = path := by
  unfold Outline.ofBytes at h
  split at h
  · rw [← Except.ok.inj h]
    rfl
  · split at h
    · rw [← Except.ok.inj h]
      exact (Outline.text_ofSource _ _ _).2.2
    · cases h

namespace Pipeline

open DocGap.Tree (Place Site Frame SameShape Aims)

section Slots

variable {advisor : Advisor} {window : Nat} {t : Tree}

theorem key_eq_iff (advisor : Advisor) (t : Tree) (p q : Path) :
    key (.ofTree advisor) t p = key (.ofTree advisor) t q ↔ t.SameFile p q := Iff.rfl

def Slot.path : Slot → Path
  | settled outcome => outcome.path
  | pending file => file.outline.path

theorem slot_spec (advisor : Advisor) (window : Nat) (t : Tree) (path : Path) :
    (slot (.ofTree advisor) window t path).path = path ∧
      ∀ file ∈ (slot (.ofTree advisor) window t path).file?, ∃ bytes, t.read path = .ok bytes := by
  unfold slot outline
  simp only [Access.ofTree]
  cases hread : t.read path with
  | error e => exact ⟨rfl, by simp [Outline.ofFile, Slot.file?]⟩
  | ok bytes =>
    rw [Outline.ofFile]
    cases hbytes : Outline.ofBytes path bytes with
    | error e => exact ⟨rfl, fun _ _ => ⟨bytes, rfl⟩⟩
    | ok o => exact ⟨Outline.path_ofBytes hbytes, fun _ _ => ⟨bytes, rfl⟩⟩

theorem isFailure_of_settled {path : Path} {outcome : Outcome}
    (h : slot (.ofTree advisor) window t path = .settled outcome) : outcome.isFailure = true := by
  unfold slot at h
  split at h
  · cases h
  · rw [← Slot.settled.inj h]
    rfl

theorem map_path_slots (seen : List Tree.Key) (paths : List Path) :
    (slots (.ofTree advisor) window t seen paths).map Slot.path = paths := by
  induction paths generalizing seen with
  | nil => rfl
  | cons path rest ih =>
    rw [slots]
    split
    · rw [List.map_cons, ih]
      rfl
    · rw [List.map_cons, ih, (slot_spec advisor window t path).1]

theorem slots_congr {seen seen' : List Tree.Key} (h : ∀ id, id ∈ seen ↔ id ∈ seen')
    (paths : List Path) :
    slots (.ofTree advisor) window t seen paths = slots (.ofTree advisor) window t seen' paths := by
  induction paths generalizing seen seen' with
  | nil => rfl
  | cons path rest ih =>
    have hcontains : seen.contains (key (.ofTree advisor) t path) =
        seen'.contains (key (.ofTree advisor) t path) := by
      rw [Bool.eq_iff_iff, List.contains_iff_mem, List.contains_iff_mem]
      exact h _
    have hnext : ∀ id, id ∈ key (.ofTree advisor) t path :: seen ↔
        id ∈ key (.ofTree advisor) t path :: seen' :=
          fun id => by rw [List.mem_cons, List.mem_cons, h]
    rw [slots, slots, hcontains, ih h, ih hnext]

theorem slots_append (seen : List Tree.Key) (before after : List Path) :
    slots (.ofTree advisor) window t seen (before ++ after) =
      slots (.ofTree advisor) window t seen before ++
        slots (.ofTree advisor) window t (before.map (key (.ofTree advisor) t) ++ seen) after := by
  induction before generalizing seen with
  | nil => rfl
  | cons path before ih =>
    rw [List.cons_append, slots, slots]
    split
    · next hseen =>
      have hmem := List.contains_iff_mem.1 hseen
      rw [ih, List.cons_append]
      refine congrArg (List.cons _) (congrArg (_ ++ ·) (slots_congr (fun id => ?_) after))
      simp only [List.map_cons, List.cons_append, List.mem_cons, List.mem_append]
      constructor
      · exact .inr
      · rintro (rfl | h)
        · exact .inr hmem
        · exact h
    · rw [ih, List.cons_append]
      refine congrArg (List.cons _) (congrArg (_ ++ ·) (slots_congr (fun id => ?_) after))
      simp only [List.map_cons, List.cons_append, List.mem_cons, List.mem_append]
      tauto

variable (advisor window t) in
def pendingFiles (seen : List Tree.Key) (paths : List Path) : List FileGaps :=
  (slots (.ofTree advisor) window t seen paths).filterMap Slot.file?

theorem of_mem_pending {seen : List Tree.Key} {paths : List Path} {file : FileGaps}
    (h : file ∈ pendingFiles advisor window t seen paths) :
    (∃ bytes, t.read file.outline.path = .ok bytes) ∧ file.outline.path ∈ paths ∧
      key (.ofTree advisor) t file.outline.path ∉ seen := by
  induction paths generalizing seen with
  | nil => cases h
  | cons path rest ih =>
    rw [pendingFiles, slots] at h
    split at h
    · obtain ⟨hread, hmem, hnew⟩ := ih h
      exact ⟨hread, List.mem_cons_of_mem _ hmem, hnew⟩
    · next hseen =>
      rw [← List.singleton_append, List.filterMap_append, List.mem_append] at h
      rcases h with h | h
      · obtain ⟨hpath, hread⟩ := slot_spec advisor window t path
        obtain ⟨s, hs, hfile⟩ := List.mem_filterMap.1 h
        rw [List.mem_singleton.1 hs] at hfile
        have hsame : file.outline.path = path := by
          cases hslot : slot (.ofTree advisor) window t path with
          | settled outcome =>
            rw [hslot] at hfile
            cases hfile
          | pending other =>
            rw [hslot] at hfile hpath
            rw [← Option.some.inj hfile]
            exact hpath
        rw [hsame]
        exact ⟨hread file hfile, List.mem_cons_self, fun hmem =>
          hseen (List.contains_iff_mem.2 hmem)⟩
      · obtain ⟨hread, hmem, hnew⟩ := ih h
        exact ⟨hread, List.mem_cons_of_mem _ hmem, fun hin => hnew (List.mem_cons_of_mem _ hin)⟩

theorem pairwise_pending (seen : List Tree.Key) (paths : List Path) :
    (pendingFiles advisor window t seen paths).Pairwise fun f g =>
      ¬ t.SameFile f.outline.path g.outline.path := by
  induction paths generalizing seen with
  | nil => exact .nil
  | cons path rest ih =>
    rw [pendingFiles, slots]
    split
    · exact ih seen
    · have hpath := (slot_spec advisor window t path).1
      cases hslot : slot (.ofTree advisor) window t path with
      | settled outcome => exact ih _
      | pending file =>
        rw [hslot] at hpath
        refine List.pairwise_cons.2 ⟨fun g hg hsame => ?_, ih _⟩
        have hnew := (of_mem_pending hg).2.2
        rw [← (key_eq_iff advisor t _ _).2 hsame, show file.outline.path = path from hpath] at hnew
        exact hnew List.mem_cons_self

variable (advisor window) in
theorem slots_of_repeated {before : List Path} {path : Path} (h : ∃ q ∈ before, t.SameFile q path)
    (after : List Path) :
    slots (.ofTree advisor) window t [] (before ++ path :: after) =
      slots (.ofTree advisor) window t [] before ++ .settled ⟨path, 0, .unchanged⟩ ::
        slots (.ofTree advisor) window t (before.map (key (.ofTree advisor) t)) after := by
  obtain ⟨q, hq, hsame⟩ := h
  rw [slots_append, List.append_nil, slots, if_pos]
  rw [List.contains_iff_mem, ← (key_eq_iff advisor t q path).2 hsame]
  exact List.mem_map_of_mem hq

variable (advisor window) in
theorem slots_of_first {before : List Path} {path : Path} (h : ∀ q ∈ before, ¬ t.SameFile q path)
    (after : List Path) :
    slots (.ofTree advisor) window t [] (before ++ path :: after) =
      slots (.ofTree advisor) window t [] before ++ slot (.ofTree advisor) window t path ::
        slots (.ofTree advisor) window t
          (key (.ofTree advisor) t path :: before.map (key (.ofTree advisor) t)) after := by
  rw [slots_append, List.append_nil, slots, if_neg]
  rw [List.contains_iff_mem]
  intro hmem
  obtain ⟨q, hq, hid⟩ := List.mem_map.1 hmem
  exact h q hq ((key_eq_iff advisor t q path).1 hid)

theorem not_sameFile_of_settled {before after : List Path} {path : Path}
    (h : ∀ q ∈ before, ¬ t.SameFile q path)
    (hslot : (slot (.ofTree advisor) window t path).file? = none) {g : FileGaps}
    (hg : g ∈ pendingFiles advisor window t [] (before ++ path :: after)) :
    ¬ t.SameFile g.outline.path path := by
  rw [pendingFiles, slots_of_first advisor window h, List.filterMap_append,
    List.filterMap_cons_none hslot, List.mem_append] at hg
  rcases hg with hg | hg
  · exact h _ (of_mem_pending hg).2.1
  · intro hsame
    have hnew := (of_mem_pending hg).2.2
    rw [(key_eq_iff advisor t _ _).2 hsame] at hnew
    exact hnew List.mem_cons_self

theorem not_sameFile_of_clash {before after : List Path} {path : Path} {place : Place}
    (hfirst : ∀ q ∈ before, ¬ t.Repeats q path) (hclash : ∃ q ∈ before, t.Clash q path)
    (hfound : t.resolve path = .ok place) {g : FileGaps}
    (hg : g ∈ pendingFiles advisor window t [] (before ++ path :: after)) :
    ¬ t.SameFile g.outline.path path := by
  obtain ⟨q, hq, hclash⟩ := hclash
  have hsame : t.SameFile q path := Tree.sameFile_iff.2 (.inr hclash)
  intro hg'
  rw [pendingFiles, slots_of_repeated advisor window ⟨q, hq, hsame⟩, List.filterMap_append,
    List.filterMap_cons_none rfl, List.mem_append] at hg
  rcases hg with hg | hg
  · obtain ⟨⟨bytes, hread⟩, hlisted, -⟩ := of_mem_pending hg
    obtain ⟨other, hother⟩ := Tree.exists_resolve_of_read hread
    exact hfirst _ hlisted (hg'.repeats hother hfound)
  · apply (of_mem_pending hg).2.2
    rw [(key_eq_iff advisor t _ _).2 hg', ← (key_eq_iff advisor t _ _).2 hsame]
    exact List.mem_map_of_mem hq

theorem getElem?_map_slots {α : Type} (f : Slot → α) {seen : List Tree.Key}
    {before paths : List Path} {s : Slot}
    {rest : List Slot}
    (h : slots (.ofTree advisor) window t [] paths =
      slots (.ofTree advisor) window t seen before ++ s :: rest) :
    ((slots (.ofTree advisor) window t [] paths).map f)[before.length]? = some (f s) := by
  have hlength : (slots (.ofTree advisor) window t seen before).length = before.length := by
    rw [← List.length_map Slot.path, map_path_slots]
  rw [h, List.map_append, List.map_cons, List.getElem?_append_right] <;> simp [hlength]

end Slots

section Run

variable {advisor : Advisor} {settings : Settings} {mode : Mode} {payload : Payload} {t u : Tree}

/-- What becomes of a slot in the tree as it was, and of the tree. -/
def expected (advisor : Advisor) (settings : Settings) (mode : Mode)
    (payload : Payload) (t : Tree) :
    Slot → Outcome × Tree
  | .settled outcome => (outcome, t)
  | .pending file => runFile (.ofTree advisor) settings mode payload file t

def placesOf (options : Mutation.Options) (t : Tree) (files : List FileGaps) (a : Place) : Prop :=
  ∃ file ∈ files, ∃ saved, Site t options file.outline.path a saved

def backupsOf (options : Mutation.Options) (t : Tree) (files : List FileGaps) (a : Place) : Prop :=
  ∃ file ∈ files, ∃ place, Site t options file.outline.path place a

/-- The files are at different places, and neither is at the place of the other one's backup. -/
def Separate (options : Mutation.Options) (t : Tree) (f g : FileGaps) : Prop :=
  ∀ place saved place' saved', Site t options f.outline.path place saved →
    Site t options g.outline.path place' saved' → place' ≠ place ∧ place' ≠ saved ∧ place ≠ saved'

variable (advisor mode payload) in
/-- Every pending file fares as in the tree as it was, if the files are separate and their contents
are the old ones when the batch begins. -/
theorem runSlots_eq (prepared : List Slot)
    (hsites : ∀ file ∈ prepared.filterMap Slot.file?, ∃ place saved old,
      Site t settings.mutation file.outline.path place saved ∧ t.bytesAt? place = some old)
    (hseparate : (prepared.filterMap Slot.file?).Pairwise (Separate settings.mutation t))
    (hshape : SameShape t u)
    (hsame : ∀ file ∈ prepared.filterMap Slot.file?, ∀ place saved,
      Site t settings.mutation file.outline.path place saved →
        u.bytesAt? place = t.bytesAt? place) :
    ∃ v, runSlots (.ofTree advisor) settings mode payload prepared u =
        (prepared.map fun s => (expected advisor settings mode payload t s).1, v) ∧
      Frame (placesOf settings.mutation t (prepared.filterMap Slot.file?))
        (backupsOf settings.mutation t (prepared.filterMap Slot.file?)) u v ∧
      ∀ file ∈ prepared.filterMap Slot.file?, ∀ place saved,
        Site t settings.mutation file.outline.path place saved →
          v.bytesAt? place =
            (runFile (.ofTree advisor) settings mode payload file t).2.bytesAt? place := by
  induction prepared generalizing u with
  | nil => exact ⟨u, rfl, .refl hshape.linkFree, by simp⟩
  | cons first rest ih =>
    cases first with
    | settled outcome =>
      obtain ⟨v, hrun, hrest⟩ := ih hsites hseparate hshape hsame
      exact ⟨v, by simp only [runSlots, hrun, List.map_cons, expected], hrest⟩
    | pending file =>
      have hpending : (Slot.pending file :: rest).filterMap Slot.file? =
        file :: rest.filterMap Slot.file? := rfl
      rw [hpending] at hsites hseparate hsame ⊢
      obtain ⟨hapart, hseparate⟩ := List.pairwise_cons.1 hseparate
      obtain ⟨place, saved, old, hsite, hold⟩ := hsites file List.mem_cons_self
      obtain ⟨outcome, bytes, hall⟩ :=
        Tree.exists_runFile advisor settings mode payload file place saved
          (t.isDirectoryAt saved) old
      -- the same happens to the file here and in the tree as it was
      obtain ⟨w, hthere, hwritten, -⟩ := hall t hsite hold rfl
      obtain ⟨s, hhere, hbytes, hframe⟩ := hall u (hsite.sameShape hshape)
        ((hsame file List.mem_cons_self place saved hsite).trans hold) (by rw [hshape.directories])
      have hkept : ∀ g ∈ rest.filterMap Slot.file?, ∀ place' saved',
          Site t settings.mutation g.outline.path place' saved' →
            s.bytesAt? place' = t.bytesAt? place' := by
        intro g hg place' saved' hsite'
        obtain ⟨hplace, hsaved, -⟩ := hapart g hg place saved place' saved' hsite hsite'
        rw [hframe.bytes_eq hplace hsaved]
        exact hsame g (List.mem_cons_of_mem _ hg) place' saved' hsite'
      obtain ⟨v, hrun, hrest, hfinal⟩ :=
        ih (fun g hg => hsites g (List.mem_cons_of_mem _ hg)) hseparate
        (hshape.trans hframe.shape) hkept
      refine ⟨v, ?_, ?_, ?_⟩
      · simp only [runSlots, hhere, hrun, List.map_cons, expected, hthere]
      · refine (hframe.mono ?_ ?_).trans (hrest.mono ?_ ?_)
        · rintro a rfl
          exact ⟨file, List.mem_cons_self, saved, hsite⟩
        · rintro a rfl
          exact ⟨file, List.mem_cons_self, place, hsite⟩
        · exact fun a ⟨g, hg, h⟩ => ⟨g, List.mem_cons_of_mem _ hg, h⟩
        · exact fun a ⟨g, hg, h⟩ => ⟨g, List.mem_cons_of_mem _ hg, h⟩
      · intro g hg place' saved' hsite'
        rcases List.mem_cons.1 hg with rfl | hg
        · obtain rfl := hsite.file.unique hsite'.file
          rw [hthere, hwritten, ← hbytes]
          apply hrest.bytes_eq
          · rintro ⟨g', hg', saved'', hsite''⟩
            exact (hapart g' hg' _ _ _ _ hsite hsite'').1 rfl
          · rintro ⟨g', hg', place'', hsite''⟩
            exact (hapart g' hg' _ _ _ _ hsite hsite'').2.2 rfl
        · exact hfinal g hg place' saved' hsite'

theorem fetch_ofTree (advisor : Advisor) (files : List FileGaps) (t : Tree) :
    (fetch (.ofTree advisor) files t).2 = t ∧ ∀ file ∈ files, file.isEmpty = false →
      (fetch (.ofTree advisor) files t).1 = (advisor.payload? t).getD .empty := by
  unfold fetch
  split
  · next hnone =>
    refine ⟨rfl, fun file hfile hgaps => ?_⟩
    have hmem : file ∈ files.filter (!·.isEmpty) := List.mem_filter.2 ⟨hfile, by simp [hgaps]⟩
    rw [hnone] at hmem
    cases hmem
  · exact ⟨rfl, fun _ _ _ => rfl⟩

theorem runFile_congr {payload' : Payload} {file : FileGaps}
    (h : file.isEmpty = false → payload = payload')
    (s : Tree) :
    runFile (.ofTree advisor) settings mode payload file s =
      runFile (.ofTree advisor) settings mode payload' file s := by
  cases hgaps : file.isEmpty with
  | false => rw [h hgaps]
  | true =>
    have hnone : ∀ p, Synthesis.insertions settings.synthesis p file = [] := fun p => by
      rw [Synthesis.insertions, List.isEmpty_iff.1 hgaps, List.filterMap_nil]
    simp only [runFile, hnone, List.isEmpty_nil, if_true]

theorem path_runFile (file : FileGaps) (s : Tree) :
    (runFile (.ofTree advisor) settings mode payload file s).1.path = file.outline.path := by
  unfold runFile
  dsimp only
  split
  · rfl
  · cases mode with
    | apply => dsimp only; split <;> rfl
    | preview => dsimp only; split <;> rfl

theorem missing_runFile (file : FileGaps) (s : Tree) :
    (runFile (.ofTree advisor) settings mode payload file s).1.missing = file.missingCount := by
  unfold runFile
  dsimp only
  split
  · rfl
  · cases mode with
    | apply => dsimp only; split <;> rfl
    | preview => dsimp only; split <;> rfl

theorem runFile_of_unchanged {file : FileGaps} {s : Tree}
    (h : (runFile (.ofTree advisor) settings mode payload file s).1.status = .unchanged) :
    (runFile (.ofTree advisor) settings mode payload file s).2 = s := by
  unfold runFile at h ⊢
  dsimp only at h ⊢
  split at h
  · next hempty => rw [if_pos hempty]
  · cases mode with
    | apply =>
      dsimp only at h
      split at h <;> cases h
    | preview =>
      dsimp only at h
      split at h <;> cases h

theorem map_path_runSlots (prepared : List Slot) (s : Tree) :
    (runSlots (.ofTree advisor) settings mode payload prepared s).1.map Outcome.path =
      prepared.map Slot.path := by
  induction prepared generalizing s with
  | nil => rfl
  | cons first rest ih =>
    cases first with
    | settled outcome => exact congrArg (outcome.path :: ·) (ih s)
    | pending file => exact congr (congrArg List.cons (path_runFile file s)) (ih _)

theorem map_path_run (paths : List Path) (t : Tree) :
    (run (.ofTree advisor) settings mode paths t).1.map Outcome.path = paths :=
  (map_path_runSlots _ _).trans (map_path_slots [] paths)

end Run

section Batch

variable {advisor : Advisor} {settings : Settings} {mode : Mode} {t v : Tree}
  {paths before after : List Path}
  {path : Path} {place : Place}

/-- No file of the batch is the backup of another one. -/
def BackupsApart (options : Mutation.Options) (t : Tree) (paths : List Path) : Prop :=
  ∀ p ∈ paths, ∀ q ∈ paths, ¬ t.SameFile p q →
    ∀ place, t.resolve q = .ok place → t.resolve (Mutation.backupPath options p) ≠ .ok place

theorem backupsApart_of_targets {options : Mutation.Options} (hlinks : t.LinkFree)
    (h : ∀ p ∈ paths, ∀ q ∈ paths, t.target? q ≠ none →
      t.target? (Mutation.backupPath options p) ≠ t.target? q) : BackupsApart options t paths := by
  intro p hp q hq _ place hplace hbackup
  have hfound : t.target? q = some place := by rw [← Tree.toOption_resolve hlinks, hplace]; rfl
  apply h p hp q hq (by rw [hfound]; simp)
  rw [hfound, ← Tree.toOption_resolve hlinks, hbackup]
  rfl

theorem separate_pending {window : Nat} (hlinks : t.LinkFree)
    (hbackups : BackupsApart settings.mutation t paths) :
    (pendingFiles advisor window t [] paths).Pairwise (Separate settings.mutation t) := by
  refine (pairwise_pending [] paths).imp_of_mem fun {f g} hf hg hsame => ?_
  obtain ⟨⟨bytes, hread⟩, hlisted, -⟩ := of_mem_pending hf
  obtain ⟨⟨bytes', hread'⟩, hlisted', -⟩ := of_mem_pending hg
  have hsame' : ¬ t.SameFile g.outline.path f.outline.path := fun h =>
    hsame ((key_eq_iff advisor t _ _).1 ((key_eq_iff advisor t _ _).2 h).symm)
  intro place saved place' saved' hsite hsite'
  obtain ⟨hbytes, hresolve⟩ := hsite.resolve_of_read hread
  obtain ⟨hbytes', hresolve'⟩ := hsite'.resolve_of_read hread'
  refine ⟨?_, ?_, ?_⟩
  · rintro rfl
    exact hsame (Tree.sameFile_iff.2 (.inl (.of_resolve hresolve hresolve')))
  · rintro rfl
    exact hbackups _ hlisted _ hlisted' hsame _ hresolve' (hsite.backup.read hlinks hbytes').1
  · rintro rfl
    exact hbackups _ hlisted' _ hlisted hsame' _ hresolve (hsite'.backup.read hlinks hbytes).1

variable (advisor mode) in
/-- What was prepared in the tree as it was tells the outcomes and the contents of the pending
files. All else is as it was, except that backups may have taken the place of something. -/
theorem run_ofTree (hlinks : t.LinkFree)
    (hsuffix : Settings.suffixIssues settings.mutation.backupSuffix = [])
    (hbackups : BackupsApart settings.mutation t paths) :
    let prepared := slots (.ofTree advisor) settings.analysisWindow t [] paths
    let files := pendingFiles advisor settings.analysisWindow t [] paths
    let payload := (advisor.payload? t).getD .empty
    ∃ v, run (.ofTree advisor) settings mode paths t =
        (prepared.map fun s => (expected advisor settings mode payload t s).1, v) ∧
      Frame (placesOf settings.mutation t files) (backupsOf settings.mutation t files) t v ∧
      ∀ file ∈ files, ∀ place saved,
        Site t settings.mutation file.outline.path place saved →
          v.bytesAt? place =
            (runFile (.ofTree advisor) settings mode payload file t).2.bytesAt? place := by
  intro prepared files payload
  obtain ⟨hne, hslash⟩ := Settings.suffix_of_no_issues hsuffix
  have hsites : ∀ file ∈ files, ∃ place saved old,
      Site t settings.mutation file.outline.path place saved ∧ t.bytesAt? place = some old := by
    intro file hfile
    obtain ⟨⟨bytes, hread⟩, -⟩ := of_mem_pending hfile
    obtain ⟨place, saved, hsite, hbytes⟩ := Site.of_read hlinks hne hslash hread
    exact ⟨place, saved, bytes, hsite, hbytes⟩
  obtain ⟨hstate, hanswers⟩ := fetch_ofTree advisor files t
  obtain ⟨v, hrun, hframe, hfinal⟩ := runSlots_eq advisor mode
    (fetch (.ofTree advisor) files t).1 prepared hsites
    (separate_pending hlinks hbackups) (.refl hlinks) fun _ _ _ _ _ => rfl
  refine ⟨v, ?_, hframe, fun file hfile place saved hsite => ?_⟩
  · have hbegin : run (.ofTree advisor) settings mode paths t =
        runSlots (.ofTree advisor) settings mode
        (fetch (.ofTree advisor) files t).1 prepared t :=
      congrArg (runSlots (.ofTree advisor) settings mode _ prepared) hstate
    rw [hbegin, hrun]
    refine congrArg (·, v) (List.map_congr_left fun s hs => ?_)
    cases s with
    | settled outcome => rfl
    | pending file =>
      exact congrArg (·.1) (runFile_congr (hanswers file (List.mem_filterMap.2 ⟨_, hs, rfl⟩)) t)
  · rw [hfinal file hfile place saved hsite, runFile_congr (hanswers file hfile)]

theorem bytesAt?_of_not_pending {files : List FileGaps} (hlinks : t.LinkFree)
    (hframe : Frame (placesOf settings.mutation t files) (backupsOf settings.mutation t files) t v)
    (hread : ∀ g ∈ files, ∃ bytes, t.read g.outline.path = .ok bytes)
    (hother : ∀ g ∈ files, ¬ t.SameFile g.outline.path path)
    (hbackup : ∀ g ∈ files, ∀ place, t.resolve path = .ok place →
      t.resolve (Mutation.backupPath settings.mutation g.outline.path) ≠ .ok place)
    (haims : Aims t path place) : v.bytesAt? place = t.bytesAt? place := by
  cases hbytes : t.bytesAt? place with
  | none =>
    refine hframe.bytes_none ?_ hbytes
    rintro ⟨g, hg, saved, hsite⟩
    obtain ⟨bytes, hbytes'⟩ := hread g hg
    rw [(hsite.resolve_of_read hbytes').1] at hbytes
    cases hbytes
  | some bytes =>
    have hresolve := (haims.read hlinks hbytes).1
    rw [← hbytes]
    apply hframe.bytes_eq
    · rintro ⟨g, hg, saved, hsite⟩
      obtain ⟨bytes', hbytes'⟩ := hread g hg
      exact hother g hg
        (Tree.sameFile_iff.2 (.inl (.of_resolve (hsite.resolve_of_read hbytes').2 hresolve)))
    · rintro ⟨g, hg, place', hsite⟩
      exact hbackup g hg place hresolve (hsite.backup.read hlinks hbytes).1

variable (advisor mode) in
theorem run_of_first (hlinks : t.LinkFree)
    (hsuffix : Settings.suffixIssues settings.mutation.backupSuffix = [])
    (hbackups : BackupsApart settings.mutation t (before ++ path :: after))
    (hfirst : ∀ q ∈ before, ¬ t.SameFile q path) :
    let out := run (.ofTree advisor) settings mode (before ++ path :: after) t
    let own := expected advisor settings mode ((advisor.payload? t).getD .empty) t
      (slot (.ofTree advisor) settings.analysisWindow t path)
    out.1[before.length]? = some own.1 ∧ SameShape t out.2 ∧
      ∀ place, Aims t path place → out.2.bytesAt? place = own.2.bytesAt? place := by
  intro out own
  obtain ⟨v, hrun, hframe, hfinal⟩ := run_ofTree advisor mode hlinks hsuffix hbackups
  have hout : out = _ := hrun
  have hsplit := slots_of_first advisor settings.analysisWindow hfirst after
  refine ⟨?_, ?_, fun place haims => ?_⟩
  · rw [hout]
    exact getElem?_map_slots _ hsplit
  · rw [hout]
    exact hframe.shape
  · rw [hout]
    cases hslot : slot (.ofTree advisor) settings.analysisWindow t path with
    | settled outcome =>
      have hother : ∀ g ∈ pendingFiles advisor settings.analysisWindow t []
          (before ++ path :: after),
          ¬ t.SameFile g.outline.path path :=
        fun g hg => not_sameFile_of_settled hfirst (by rw [hslot]; rfl) hg
      have hown : own.2 = t := by simp only [own, hslot, expected]
      rw [hown]
      exact bytesAt?_of_not_pending hlinks hframe (fun g hg => (of_mem_pending hg).1) hother
        (fun g hg => hbackups _ (of_mem_pending hg).2.1 path (by simp) (hother g hg)) haims
    | pending file =>
      have hown : own = runFile (.ofTree advisor) settings mode
          ((advisor.payload? t).getD .empty) file t := by
        simp only [own, hslot, expected]
      have hmem : file ∈ pendingFiles advisor settings.analysisWindow t []
          (before ++ path :: after) := by
        rw [pendingFiles, hsplit, hslot]
        simp [Slot.file?]
      have hpath : file.outline.path = path := by
        rw [← (slot_spec advisor settings.analysisWindow t path).1, hslot]
        rfl
      obtain ⟨⟨bytes, hread⟩, -⟩ := of_mem_pending hmem
      obtain ⟨hne, hslash⟩ := Settings.suffix_of_no_issues hsuffix
      obtain ⟨place', saved, hsite, -⟩ := Site.of_read hlinks hne hslash hread
      obtain rfl := haims.unique (hpath ▸ hsite.file)
      rw [hown, hfinal file hmem _ saved hsite]

variable (advisor mode) in
theorem getElem?_run_of_sameFile (hlinks : t.LinkFree)
    (hsuffix : Settings.suffixIssues settings.mutation.backupSuffix = [])
    (hbackups : BackupsApart settings.mutation t (before ++ path :: after))
    (h : ∃ q ∈ before, t.SameFile q path) :
    (run (.ofTree advisor) settings mode (before ++ path :: after) t).1[before.length]? =
      some ⟨path, 0, .unchanged⟩ := by
  obtain ⟨v, hrun, -⟩ := run_ofTree advisor mode hlinks hsuffix hbackups
  rw [hrun]
  exact getElem?_map_slots _ (slots_of_repeated advisor settings.analysisWindow h after)

variable (advisor mode) in
theorem run_of_clash (hlinks : t.LinkFree)
    (hsuffix : Settings.suffixIssues settings.mutation.backupSuffix = [])
    (hbackups : BackupsApart settings.mutation t (before ++ path :: after))
    (hfirst : ∀ q ∈ before, ¬ t.Repeats q path) (hclash : ∃ q ∈ before, t.Clash q path)
    (hfound : t.resolve path = .ok place) :
    let out := run (.ofTree advisor) settings mode (before ++ path :: after) t
    SameShape t out.2 ∧ ∀ place, Aims t path place → out.2.bytesAt? place = t.bytesAt? place := by
  intro out
  obtain ⟨v, hrun, hframe, -⟩ := run_ofTree advisor mode hlinks hsuffix hbackups
  have hout : out = _ := hrun
  have hother : ∀ g ∈ pendingFiles advisor settings.analysisWindow t [] (before ++ path :: after),
      ¬ t.SameFile g.outline.path path := fun g hg => not_sameFile_of_clash hfirst hclash hfound hg
  rw [hout]
  refine ⟨hframe.shape, fun place haims => ?_⟩
  exact bytesAt?_of_not_pending hlinks hframe (fun g hg => (of_mem_pending hg).1) hother
    (fun g hg => hbackups _ (of_mem_pending hg).2.1 path (by simp) (hother g hg)) haims

theorem expected_of_unchanged {payload : Payload} {missing : Nat}
    (h : (expected advisor settings mode payload t
      (slot (.ofTree advisor) settings.analysisWindow t path)).1 =
      ⟨path, missing, .unchanged⟩) :
    (∃ bytes, t.read path = .ok bytes) ∧
      (expected advisor settings mode payload t
        (slot (.ofTree advisor) settings.analysisWindow t path)).2 = t := by
  have hspec := (slot_spec advisor settings.analysisWindow t path).2
  cases hslot : slot (.ofTree advisor) settings.analysisWindow t path with
  | settled outcome =>
    have hfailure := isFailure_of_settled hslot
    rw [hslot] at h
    rw [show outcome = _ from h] at hfailure
    cases hfailure
  | pending file =>
    rw [hslot] at h hspec
    exact ⟨hspec file rfl, runFile_of_unchanged (congrArg Outcome.status h)⟩

/-- There is one outcome for every path, in order. A path to a file that was named before is left
alone, and so is a path that clashes with an earlier one. Every other one ends up as it would if it
were the only path of the batch; one that clashes does so only if alone it is left as it is, too. -/
theorem batch_isolated_iff (advisor : Advisor) (settings : Settings) (mode : Mode)
    (paths : List Path) (t : Tree)
    (hlinks : t.LinkFree) (hsuffix : Settings.suffixIssues settings.mutation.backupSuffix = [])
    (hbackups : BackupsApart settings.mutation t paths) :
    let out := run (.ofTree advisor) settings mode paths t
    out.1.map Outcome.path = paths ∧
      ∀ before path after, paths = before ++ path :: after →
        ((∃ q ∈ before, t.Repeats q path ∨ t.Clash q path) →
          out.1[before.length]? = some ⟨path, 0, .unchanged⟩) ∧
        ((∀ q ∈ before, ¬ t.Repeats q path) →
          ∃ outcome kept, run (.ofTree advisor) settings mode [path] t = ([outcome], kept) ∧
            (out.1[before.length]? = some outcome ∧ (out.2.read path).toOption =
              (kept.read path).toOption ↔
              (∀ q ∈ before, ¬ t.Clash q path) ∨ outcome = ⟨path, 0, .unchanged⟩)) := by
  intro out
  refine ⟨map_path_run paths t, ?_⟩
  rintro before path after rfl
  refine ⟨fun ⟨q, hq, hsame⟩ => ?_, fun hfirst => ?_⟩
  · exact getElem?_run_of_sameFile advisor mode hlinks hsuffix hbackups
      ⟨q, hq, Tree.sameFile_iff.2 hsame⟩
  have hbackup : BackupsApart settings.mutation t ([] ++ [path]) := fun p hp q hq =>
    hbackups p (by grind) q (by grind)
  obtain ⟨halone, hshape', hbytes'⟩ := run_of_first advisor mode hlinks hsuffix hbackup (by simp)
  obtain ⟨outcome, hsole⟩ : ∃ outcome,
    (run (.ofTree advisor) settings mode [path] t).1 = [outcome] := by
    rw [← List.length_eq_one_iff, ← List.length_map Outcome.path, map_path_run]
    rfl
  have hown := Option.some.inj ((congrArg (·[0]?) hsole).symm.trans halone)
  refine ⟨outcome, (run (.ofTree advisor) settings mode [path] t).2, Prod.ext hsole rfl, ?_⟩
  by_cases hclash : ∃ q ∈ before, t.Clash q path
  · obtain ⟨q, hq, hclash'⟩ := hclash
    have hleft := getElem?_run_of_sameFile advisor mode hlinks hsuffix hbackups
      ⟨q, hq, Tree.sameFile_iff.2 (.inr hclash')⟩
    constructor
    · rintro ⟨houtcome, -⟩
      exact .inr (Option.some.inj (houtcome.symm.trans hleft))
    · rintro (hnone | rfl)
      · exact absurd hclash' (hnone q hq)
      · obtain ⟨⟨bytes, hread⟩, hkept⟩ := expected_of_unchanged hown.symm
        obtain ⟨place, hfound⟩ := Tree.exists_resolve_of_read hread
        obtain ⟨hshape, hbytes⟩ :=
          run_of_clash advisor mode hlinks hsuffix hbackups hfirst ⟨q, hq, hclash'⟩ hfound
        refine ⟨hleft,
          (SameShape.of_common hshape' hshape).toOption_read hshape'.linkFree fun place haims => ?_⟩
        have haims' := hshape'.aims_iff.1 haims
        exact (hbytes place haims').trans ((hbytes' place haims').trans (by rw [hkept])).symm
  · have hnone : ∀ q ∈ before, ¬ t.Clash q path := fun q hq h => hclash ⟨q, hq, h⟩
    have hnew : ∀ q ∈ before, ¬ t.SameFile q path := fun q hq h =>
      (Tree.sameFile_iff.1 h).elim (hfirst q hq) (hnone q hq)
    obtain ⟨houtcome, hshape, hbytes⟩ := run_of_first advisor mode hlinks hsuffix hbackups hnew
    refine iff_of_true ⟨houtcome.trans (congrArg some hown.symm), ?_⟩ (.inl hnone)
    refine (SameShape.of_common hshape' hshape).toOption_read hshape'.linkFree fun place haims => ?_
    have haims' := hshape'.aims_iff.1 haims
    exact (hbytes place haims').trans (hbytes' place haims').symm

def mixedTree : Tree where
  home := ["w"]
  entries :=
    [(["w", "a.py"], .file "def f(): pass\n".toUTF8), (["w", "b.py"], .file ⟨#[0xff]⟩),
     (["w", "d.py"], .file "def f(): pass\n".toUTF8), (["w", "d.py.neandoc.backup"], .directory),
     (["w", "e.py"], .file "def f(): pass\n".toUTF8)]

theorem linkFree_mixedTree : mixedTree.LinkFree := Tree.linkFree_of_entries (by simp [mixedTree])

theorem suffixIssues_standard : Settings.suffixIssues Mutation.defaultBackupSuffix = [] := by
  decide +kernel

theorem mixedTree_isolated :
    let paths : List Path := [⟨"a.py"⟩, ⟨"b.py"⟩, ⟨"c.py"⟩, ⟨"d.py"⟩, ⟨"./a.py"⟩, ⟨"e.py"⟩]
    let out := run (.ofTree .nobody) .standard .apply paths mixedTree
    mixedTree.LinkFree ∧ Settings.suffixIssues Mutation.defaultBackupSuffix = [] ∧
      BackupsApart .standard mixedTree paths ∧
      out.1.map Outcome.path = paths ∧ out.1[4]? = some ⟨⟨"./a.py"⟩, 0, .unchanged⟩ ∧
      ∃ outcome kept, run (.ofTree .nobody) .standard .apply [⟨"e.py"⟩] mixedTree =
        ([outcome], kept) ∧
        out.1[5]? = some outcome ∧ (out.2.read ⟨"e.py"⟩).toOption =
          (kept.read ⟨"e.py"⟩).toOption := by
  intro paths out
  have hbackups : BackupsApart .standard mixedTree paths :=
    backupsApart_of_targets linkFree_mixedTree (by decide +kernel)
  obtain ⟨hpaths, hplaces⟩ :=
    batch_isolated_iff .nobody .standard .apply paths mixedTree linkFree_mixedTree
      suffixIssues_standard hbackups
  have hagain := (hplaces [⟨"a.py"⟩, ⟨"b.py"⟩, ⟨"c.py"⟩, ⟨"d.py"⟩] ⟨"./a.py"⟩ [⟨"e.py"⟩] rfl).1
    ⟨⟨"a.py"⟩, by decide,
      Tree.sameFile_iff.1 ((Tree.sameFile_iff_target? linkFree_mixedTree).2 (by decide +kernel))⟩
  have hnew : ∀ q ∈ ([⟨"a.py"⟩, ⟨"b.py"⟩, ⟨"c.py"⟩, ⟨"d.py"⟩, ⟨"./a.py"⟩] : List Path),
      ¬ mixedTree.SameFile q ⟨"e.py"⟩ := by
    simp only [Tree.sameFile_iff_target? linkFree_mixedTree]
    decide +kernel
  simp only [Tree.sameFile_iff, not_or] at hnew
  obtain ⟨outcome, kept, halone, hlast⟩ :=
    (hplaces [⟨"a.py"⟩, ⟨"b.py"⟩, ⟨"c.py"⟩, ⟨"d.py"⟩, ⟨"./a.py"⟩] ⟨"e.py"⟩ [] rfl).2 fun q hq =>
    (hnew q hq).1
  exact ⟨linkFree_mixedTree, suffixIssues_standard, hbackups, hpaths, hagain, outcome, kept, halone,
    hlast.2 (.inl fun q hq => (hnew q hq).2)⟩

section Hidden

def soleTree : Tree where
  home := ["w"]
  entries := [(["w", "a.py"], .file "def g(): pass\n".toUTF8)]

theorem linkFree_soleTree : soleTree.LinkFree := Tree.linkFree_of_entries (by simp [soleTree])

theorem resolve_soleTree : soleTree.resolve ⟨"/w/a.py"⟩ = .ok ["w", "a.py"] :=
  eq_ok_of_toOption ((Tree.toOption_resolve linkFree_soleTree).trans (by decide))

theorem resolve_slash : ∃ e, soleTree.resolve ⟨"/w/a.py/"⟩ = .error e := by
  have hlost : (soleTree.resolve ⟨"/w/a.py/"⟩).toOption = none :=
    (Tree.toOption_resolve linkFree_soleTree).trans (by decide)
  cases hresolve : soleTree.resolve ⟨"/w/a.py/"⟩ with
  | ok place =>
    rw [hresolve] at hlost
    cases hlost
  | error e => exact ⟨e, rfl⟩

theorem clash_soleTree :
    soleTree.Clash ⟨"/w/a.py/"⟩ ⟨"/w/a.py"⟩ ∧ ¬ soleTree.Repeats ⟨"/w/a.py/"⟩ ⟨"/w/a.py"⟩ := by
  obtain ⟨e, hlost⟩ := resolve_slash
  have hway : Path.components ⟨"/w/a.py/"⟩ = Tree.Key.ofPlace ["w", "a.py"] := by decide
  rw [Tree.Clash, Tree.Repeats, resolve_soleTree, hlost]
  exact ⟨hway, id⟩

theorem language?_soleTree : Path.language? ⟨"/w/a.py"⟩ = some .python := by
  have hlower : "py".map Char.toLower = "py" := String.toList_inj.1 (by rw [String.toList_map]; rfl)
  rw [Path.language?, show Path.extension? ⟨"/w/a.py"⟩ = some "py" by decide, Option.bind_some,
    Language.ofExtension?, hlower]
  decide

theorem slot_soleTree :
    slot (.ofTree .nobody) 10 soleTree ⟨"/w/a.py"⟩ = .pending (Request.fileAt ⟨"/w/a.py"⟩) := by
  have hread : soleTree.read ⟨"/w/a.py"⟩ = .ok "def g(): pass\n".toUTF8 := by
    rw [Tree.read, resolve_soleTree]
    rfl
  have houtline : outline (.ofTree .nobody) soleTree ⟨"/w/a.py"⟩ =
      .ok (.ofSource ⟨"/w/a.py"⟩ .python "def g(): pass\n") := by
    simp only [outline, Access.ofTree, hread, Outline.ofFile, Outline.ofBytes, language?_soleTree,
      Text.decode_toUTF8]
  rw [slot, houtline]
  rfl

/-- The function is left without its two explanations because of the path before, though that one
leads nowhere. -/
theorem soleTree_passed_over :
    let paths : List Path := [⟨"/w/a.py/"⟩, ⟨"/w/a.py"⟩]
    soleTree.LinkFree ∧ Settings.suffixIssues Mutation.defaultBackupSuffix = [] ∧
      BackupsApart .standard soleTree paths ∧ ¬ soleTree.Repeats ⟨"/w/a.py/"⟩ ⟨"/w/a.py"⟩ ∧
      (run (.ofTree .nobody) .standard .preview paths soleTree).1[1]? =
        some ⟨⟨"/w/a.py"⟩, 0, .unchanged⟩ ∧
      ∃ status, (run (.ofTree .nobody) .standard .preview [⟨"/w/a.py"⟩] soleTree).1[0]? =
        some ⟨⟨"/w/a.py"⟩, 2, status⟩ := by
  intro paths
  have hbackups : BackupsApart Settings.standard.mutation soleTree
    ([⟨"/w/a.py/"⟩] ++ [⟨"/w/a.py"⟩]) :=
    backupsApart_of_targets linkFree_soleTree (by decide +kernel)
  have hbackup : BackupsApart Settings.standard.mutation soleTree ([] ++ [⟨"/w/a.py"⟩]) :=
      fun p hp q hq =>
    hbackups p (List.mem_append_right _ hp) q (List.mem_append_right _ hq)
  refine ⟨linkFree_soleTree, suffixIssues_standard, hbackups, clash_soleTree.2, ?_, ?_⟩
  · exact getElem?_run_of_sameFile .nobody .preview linkFree_soleTree suffixIssues_standard hbackups
      ⟨⟨"/w/a.py/"⟩, List.mem_cons_self, Tree.sameFile_iff.2 (.inr clash_soleTree.1)⟩
  · obtain ⟨halone, -⟩ :=
      run_of_first .nobody .preview linkFree_soleTree suffixIssues_standard hbackup (by simp)
    rw [show slot _ Settings.standard.analysisWindow _ _ = _ from slot_soleTree] at halone
    obtain ⟨hpath, hgaps⟩ := Request.fileAt_eq ⟨"/w/a.py"⟩
    have hmissing : (Request.fileAt ⟨"/w/a.py"⟩).missingCount =
      2 := by rw [FileGaps.missingCount, hgaps]; rfl
    have houtcome : ∀ o : Outcome, o.path = ⟨"/w/a.py"⟩ → o.missing = 2 →
        o = ⟨⟨"/w/a.py"⟩, 2, o.status⟩ := by
      rintro ⟨path, missing, status⟩ rfl rfl
      rfl
    exact ⟨_, halone.trans (congrArg some (houtcome _ ((path_runFile _ _).trans hpath)
      ((missing_runFile _ _).trans hmissing)))⟩

end Hidden

end Batch

end Pipeline

end DocGap
