import DocGap.Pipeline
import DocGap.Proofs.Following
import DocGap.Proofs.Undisturbed

/-!
# Attempts on the files of a tree

In a tree without links, an attempt on a file depends on the content of the file and on whether a
directory stands in the way of the backup. It may change the file and lose what was at the place of
the backup; nothing else changes and nothing new appears, so that all paths lead to where they led
before.
-/
namespace DocGap

namespace Tree

/-- The other tree has the same directories and no links. -/
structure SameShape (t u : Tree) : Prop where
  home : u.home = t.home
  directories : u.isDirectoryAt = t.isDirectoryAt
  linkFree : u.LinkFree

namespace SameShape

variable {t u v : Tree}

theorem refl (h : t.LinkFree) : SameShape t t := ⟨rfl, rfl, h⟩

theorem trans (h : SameShape t u) (h' : SameShape u v) : SameShape t v :=
  ⟨h'.home.trans h.home, h'.directories.trans h.directories, h'.linkFree⟩

theorem of_common (h : SameShape t u) (h' : SameShape t v) : SameShape u v :=
  ⟨h'.home.trans h.home.symm, h'.directories.trans h.directories.symm, h'.linkFree⟩

theorem aims_iff {p : Path} {place : Place} (h : SameShape t u) :
    Aims u p place ↔ Aims t p place := by
  rw [Aims, h.home, h.directories]
  exact Iff.rfl

theorem aims {p : Path} {place : Place} (h : SameShape t u)
    (haims : Aims t p place) : Aims u p place :=
  h.aims_iff.2 haims

theorem toOption_read (h : SameShape t u) {p : Path} (hlinks : t.LinkFree)
    (hbytes : ∀ place, Aims t p place → u.bytesAt? place = t.bytesAt? place) :
    (u.read p).toOption = (t.read p).toOption := by
  have hiff : ∀ bytes, u.read p = .ok bytes ↔ t.read p = .ok bytes := by
    intro bytes
    rw [read_eq_ok_iff h.linkFree, read_eq_ok_iff hlinks]
    refine exists_congr fun place => ?_
    rw [h.aims_iff]
    exact and_congr_right fun haims => by rw [hbytes place haims]
  cases hread : t.read p with
  | ok bytes => rw [(hiff bytes).2 hread]
  | error e =>
    cases hother : u.read p with
    | ok bytes =>
      rw [(hiff bytes).1 hother] at hread
      cases hread
    | error e => rfl

end SameShape

section Change

variable {t : Tree} {place other : Place}

theorem not_isPrefixOf_home (h : t.isDirectoryAt place = false) :
    ¬ place.isPrefixOf t.home = true := fun hprefix => by
  rw [isDirectoryAt_of_isPrefixOf hprefix] at h
  cases h

theorem lookup?_erase_self (h : t.isDirectoryAt place = false) :
    (t.erase place).lookup? place = none := by
  have hfind : (t.entries.filter (·.1 ≠ place)).find? (·.1 = place) = none := by
    simp [List.find?_eq_none]
  simp only [lookup?, erase, hfind, if_neg (not_isPrefixOf_home h), Option.map_none]

theorem sameShape_put (hlinks : t.LinkFree) (h : t.isDirectoryAt place = false)
    (bytes : ByteArray) :
    SameShape t (t.put place (.file bytes)) := by
  have hself := lookup?_put_self t (not_isPrefixOf_home h) (.file bytes)
  refine ⟨rfl, funext fun a => ?_, fun a target hlink => ?_⟩
  · by_cases ha : a = place
    · rw [ha, h, isDirectoryAt, hself]
    · rw [isDirectoryAt, lookup?_put_of_ne t ha, isDirectoryAt]
  · by_cases ha : a = place
    · rw [ha, hself] at hlink
      cases hlink
    · rw [lookup?_put_of_ne t ha] at hlink
      exact hlinks a target hlink

theorem sameShape_erase (hlinks : t.LinkFree) (h : t.isDirectoryAt place = false) : SameShape t
    (t.erase place) := by
  have hself := lookup?_erase_self h
  refine ⟨rfl, funext fun a => ?_, fun a target hlink => ?_⟩
  · by_cases ha : a = place
    · rw [ha, h, isDirectoryAt, hself]
    · rw [isDirectoryAt, lookup?_erase_of_ne t ha, isDirectoryAt]
  · by_cases ha : a = place
    · rw [ha, hself] at hlink
      cases hlink
    · rw [lookup?_erase_of_ne t ha] at hlink
      exact hlinks a target hlink

theorem bytesAt?_put_self (h : t.isDirectoryAt place = false) (bytes : ByteArray) :
    (t.put place (.file bytes)).bytesAt? place = some bytes := by
  rw [bytesAt?, lookup?_put_self t (not_isPrefixOf_home h)]

theorem bytesAt?_put_of_ne (h : other ≠ place) (entry : Entry) :
    (t.put place entry).bytesAt? other = t.bytesAt? other := by
  rw [bytesAt?, lookup?_put_of_ne t h, bytesAt?]

theorem bytesAt?_erase_self (h : t.isDirectoryAt place = false) :
    (t.erase place).bytesAt? place = none := by
  rw [bytesAt?, lookup?_erase_self h]

theorem bytesAt?_erase_of_ne (h : other ≠ place) :
    (t.erase place).bytesAt? other = t.bytesAt? other := by
  rw [bytesAt?, lookup?_erase_of_ne t h, bytesAt?]

end Change

/-- Only `written` files may have another content, and only what was `vanishing` may be gone. -/
structure Frame (written vanishing : Place → Prop) (t u : Tree) : Prop where
  shape : SameShape t u
  bytes : ∀ place, ¬ written place →
    u.bytesAt? place = t.bytesAt? place ∨ vanishing place ∧ u.bytesAt? place = none

namespace Frame

variable {written vanishing : Place → Prop} {t u v : Tree}

theorem refl (h : t.LinkFree) : Frame written vanishing t t := ⟨.refl h, fun _ _ => .inl rfl⟩

theorem trans (h : Frame written vanishing t u) (h' : Frame written vanishing u v) :
    Frame written vanishing t v := by
  refine ⟨h.shape.trans h'.shape, fun place hplace => ?_⟩
  rcases h'.bytes place hplace with hsame | hgone
  · rw [hsame]
    exact h.bytes place hplace
  · exact .inr hgone

theorem mono {written' vanishing' : Place → Prop} (h : Frame written vanishing t u)
    (hwritten : ∀ place, written place → written' place)
    (hvanishing : ∀ place, vanishing place → vanishing' place) : Frame written' vanishing' t u :=
  ⟨h.shape, fun place hplace =>
    (h.bytes place (mt (hwritten place) hplace)).imp_right fun hgone =>
    ⟨hvanishing place hgone.1, hgone.2⟩⟩

theorem bytes_eq (h : Frame written vanishing t u) {place : Place} (hwritten : ¬ written place)
    (hvanishing : ¬ vanishing place) : u.bytesAt? place = t.bytesAt? place := by
  rcases h.bytes place hwritten with hsame | hgone
  · exact hsame
  · exact absurd hgone.1 hvanishing

theorem bytes_none (h : Frame written vanishing t u) {place : Place} (hwritten : ¬ written place)
    (hnone : t.bytesAt? place = none) : u.bytesAt? place = none := by
  rcases h.bytes place hwritten with hsame | hgone
  · rw [hsame, hnone]
  · exact hgone.2

end Frame

structure Site (t : Tree) (options : Mutation.Options) (path : Path)
    (place saved : Place) : Prop where
  linkFree : t.LinkFree
  file : Aims t path place
  backup : Aims t (Mutation.backupPath options path) saved
  apart : saved ≠ place

namespace Site

variable {t u : Tree} {options : Mutation.Options} {path : Path}
  {place saved : Place} {old : ByteArray}

theorem of_read (hlinks : t.LinkFree) (hne : options.backupSuffix ≠ "")
    (hslash : '/' ∉ options.backupSuffix.toList)
    (h : t.read path = .ok old) :
    ∃ place saved, Site t options path place saved ∧ t.bytesAt? place = some old := by
  obtain ⟨place, hfile, hbytes⟩ := (read_eq_ok_iff hlinks).1 h
  obtain ⟨saved, hbackup, hapart⟩ := hfile.backup hne hslash
  exact ⟨place, saved, ⟨hlinks, hfile, hbackup, hapart⟩, hbytes⟩

theorem resolve_of_read (h : Site t options path place saved) (hread : t.read path = .ok old) :
    t.bytesAt? place = some old ∧ t.resolve path = .ok place := by
  obtain ⟨other, hother, hbytes⟩ := (read_eq_ok_iff h.linkFree).1 hread
  obtain rfl := h.file.unique hother
  exact ⟨hbytes, (h.file.read h.linkFree hbytes).1⟩

theorem sameShape (h : Site t options path place saved) (hshape : SameShape t u) :
    Site u options path place saved :=
  ⟨hshape.linkFree, hshape.aims h.file, hshape.aims h.backup, h.apart⟩

theorem obeys (h : Site t options path place saved) (hplace : t.isDirectoryAt place = false)
    (hsaved : t.isDirectoryAt saved = false) :
    disk.Obeys path (Mutation.backupPath options path)
      (fun u => SameShape t u ∧ ∀ a, a ≠ place → a ≠ saved → u.bytesAt? a = t.bytesAt? a)
      (·.bytesAt? place) (·.bytesAt? saved) where
  read_file := by
    intro s bytes hs hbytes
    simp only [disk, ((hs.1.aims h.file).read hs.1.linkFree hbytes).2]
    rfl
  read_saved := by
    intro s bytes hs hbytes
    simp only [disk, ((hs.1.aims h.backup).read hs.1.linkFree hbytes).2]
    rfl
  write := by
    intro s bytes hs
    have hclear : s.isDirectoryAt place = false := by rw [hs.1.directories, hplace]
    refine ⟨s.put place (.file bytes), ?_,
      ⟨hs.1.trans (sameShape_put hs.1.linkFree hclear bytes), ?_⟩,
      bytesAt?_put_self hclear bytes, bytesAt?_put_of_ne h.apart _⟩
    · simp only [disk, replace, (hs.1.aims h.file).locateName hs.1.linkFree, hclear]
      rfl
    · intro a hfile hbackup
      rw [bytesAt?_put_of_ne hfile, hs.2 a hfile hbackup]
  remove := by
    intro s bytes hs hbytes
    have hclear : s.isDirectoryAt saved = false := by rw [hs.1.directories, hsaved]
    refine ⟨s.erase saved, ?_, ⟨hs.1.trans (sameShape_erase hs.1.linkFree hclear), ?_⟩,
      bytesAt?_erase_of_ne h.apart.symm, bytesAt?_erase_self hclear⟩
    · simp only [disk, Tree.remove, (hs.1.aims h.backup).locateName hs.1.linkFree,
        lookup?_of_bytesAt? hbytes]
      rfl
    · intro a hfile hbackup
      rw [bytesAt?_erase_of_ne hbackup, hs.2 a hfile hbackup]

theorem copy (h : Site t options path place saved) (hbytes : t.bytesAt? place = some old) :
    disk.copy path (Mutation.backupPath options path) t =
      if t.isDirectoryAt saved then (.error (.system .isDirectory), t)
      else (.ok (), t.put saved (.file old)) := by
  obtain ⟨hresolve, hread⟩ := h.file.read h.linkFree hbytes
  simp only [disk, Tree.copy, hread, hresolve, h.backup.locate h.linkFree, store,
    if_neg h.apart.symm]
  split <;> rfl

theorem readText (h : Site t options path place saved) (hbytes : t.bytesAt? place = some old) :
    Mutation.readText disk path t =
      match Text.decode old with
      | .error fault => (.error (.undecodable fault), t)
      | .ok text => (.ok (old, text), t) := by
  simp only [Mutation.readText, disk, (h.file.read h.linkFree hbytes).2]
  rfl

end Site

open Mutation in
/-- How an attempt ends, and what it leaves in the file, depends on the old content and on whether a
directory is at the place of the backup. -/
theorem exists_apply (options : Options) (path : Path) (batch : List Insertion)
    (place saved : Place)
    (blocked : Bool) (old : ByteArray) :
    ∃ result bytes, ∀ t, Site t options path place saved → t.bytesAt? place = some old →
      t.isDirectoryAt saved = blocked →
        ∃ u, Mutation.apply disk options path batch t = (result, u) ∧
          u.bytesAt? place = some bytes ∧
          Frame (· = place) (· = saved) t u := by
  cases hdecode : Text.decode old with
  | error fault =>
    refine ⟨.error (.read path (.undecodable fault)), old,
      fun t hsite hbytes _ => ⟨t, ?_, hbytes, .refl hsite.linkFree⟩⟩
    simp only [Mutation.apply, hsite.readText hbytes, hdecode]
  | ok text =>
    cases blocked with
    | true =>
      refine ⟨.error (.backup path (backupPath options path) (.system .isDirectory)), old,
        fun t hsite hbytes hblocked => ⟨t, ?_, hbytes, .refl hsite.linkFree⟩⟩
      simp only [Mutation.apply, hsite.readText hbytes, hdecode, hsite.copy hbytes,
        hblocked, if_true]
    | false =>
      refine ⟨verdict path (planFor options path text batch),
        bytesAfter old (planFor options path text batch),
        fun t hsite hbytes hclear => ?_⟩
      have hplace := isDirectoryAt_of_bytesAt? hbytes
      have hread := hsite.readText hbytes
      rw [hdecode] at hread
      have hcopy := hsite.copy hbytes
      rw [hclear] at hcopy
      obtain ⟨u, happly, ⟨hshape, hframe⟩, hfile, hgone⟩ :=
        apply_obeys (hsite.obeys hplace hclear) hread hcopy
        ⟨sameShape_put hsite.linkFree hclear old, fun a _ ha => bytesAt?_put_of_ne ha _⟩
        ((bytesAt?_put_of_ne hsite.apart.symm _).trans hbytes) (bytesAt?_put_self hclear old) batch
      refine ⟨u, happly, hfile, hshape, fun a ha => ?_⟩
      by_cases hsaved : a = saved
      · exact .inr ⟨hsaved, hsaved ▸ hgone⟩
      · exact .inl (hframe a ha hsaved)

open Pipeline in
theorem exists_runFile (advisor : Advisor) (settings : Settings) (mode : Mode)
    (payload : Payload) (file : FileGaps)
    (place saved : Place) (blocked : Bool) (old : ByteArray) :
    ∃ outcome bytes, ∀ t, Site t settings.mutation file.outline.path place saved →
      t.bytesAt? place = some old →
      t.isDirectoryAt saved = blocked →
        ∃ u, runFile (.ofTree advisor) settings mode payload file t = (outcome, u) ∧
          u.bytesAt? place = some bytes ∧ Frame (· = place) (· = saved) t u := by
  by_cases hnothing : (Synthesis.insertions settings.synthesis payload file).isEmpty = true
  · refine ⟨⟨file.outline.path, file.missingCount, .unchanged⟩, old,
      fun t hsite hbytes _ => ⟨t, ?_, hbytes, .refl hsite.linkFree⟩⟩
    simp only [runFile, hnothing, if_true]
  · cases mode with
    | apply =>
      obtain ⟨result, bytes, hall⟩ := exists_apply settings.mutation file.outline.path
        (Synthesis.insertions settings.synthesis payload file) place saved blocked old
      cases result with
      | ok report =>
        refine ⟨⟨file.outline.path, file.missingCount, .applied report⟩, bytes,
          fun t hsite hbytes hblocked => ?_⟩
        obtain ⟨u, happly, hafter⟩ := hall t hsite hbytes hblocked
        refine ⟨u, ?_, hafter⟩
        simp only [runFile, if_neg hnothing, Access.ofTree, happly]
      | error e =>
        refine ⟨⟨file.outline.path, file.missingCount, .failed (.mutation e)⟩, bytes,
          fun t hsite hbytes hblocked => ?_⟩
        obtain ⟨u, happly, hafter⟩ := hall t hsite hbytes hblocked
        refine ⟨u, ?_, hafter⟩
        simp only [runFile, if_neg hnothing, Access.ofTree, happly]
    | preview =>
      cases hdecode : Text.decode old with
      | ok text =>
        let plan := Mutation.planFor settings.mutation file.outline.path text
          (Synthesis.insertions settings.synthesis payload file)
        refine ⟨⟨file.outline.path, file.missingCount,
            .previewed ⟨file.outline.path, text, plan.content, plan.applied, plan.skipped⟩⟩, old,
          fun t hsite hbytes _ => ⟨t, ?_, hbytes, .refl hsite.linkFree⟩⟩
        simp only [runFile, if_neg hnothing, Access.ofTree, Mutation.preview,
          hsite.readText hbytes, hdecode]
        rfl
      | error fault =>
        refine ⟨⟨file.outline.path, file.missingCount,
            .failed (.mutation (.read file.outline.path (.undecodable fault)))⟩, old,
          fun t hsite hbytes _ => ⟨t, ?_, hbytes, .refl hsite.linkFree⟩⟩
        simp only [runFile, if_neg hnothing, Access.ofTree, Mutation.preview,
          hsite.readText hbytes, hdecode]

end Tree

end DocGap
