import DocGap.Mutation
import DocGap.Tree
import DocGap.Proofs.Lines

/-!
# Following paths in trees without links

Without links, the place to which a path leads depends only on which places are directories. A path
that leads to a file ends with a name, and adding a suffix to the path leads to the place beside the
file with the suffix added to its name.
-/
namespace DocGap

theorem eq_ok_of_toOption {ε α : Type} {e : Except ε α} {a : α}
    (h : e.toOption = some a) : e = .ok a := by
  cases e with
  | error e => cases h
  | ok b => exact congrArg Except.ok (Option.some.inj h)

namespace Text

variable {mark : Char}

theorem joinWith_concat_append (front : List (List Char)) (last tail : List Char) :
    joinWith mark (front ++ [last ++ tail]) = joinWith mark (front ++ [last]) ++ tail := by
  induction front with
  | nil => rfl
  | cons piece front ih =>
    rw [List.cons_append, joinWith_cons _ (by simp), ih, List.cons_append,
      joinWith_cons _ (by simp),
      List.append_assoc, List.cons_append]

theorem pieces_append_tail {cs last tail : List Char} {front : List (List Char)}
    (hcs : pieces mark cs = front ++ [last]) (htail : mark ∉ tail) :
    pieces mark (cs ++ tail) = front ++ [last ++ tail] := by
  have hjoin : cs ++ tail = joinWith mark (front ++ [last ++ tail]) := by
    rw [joinWith_concat_append, ← hcs, joinWith_pieces]
  rw [hjoin, pieces_joinWith (by simp)]
  intro l hl
  rcases List.mem_append.1 hl with hl | hl
  · exact not_mem_of_mem_pieces (hcs ▸ List.mem_append_left _ hl)
  · have hlast : mark ∉ last :=
      not_mem_of_mem_pieces (hcs ▸ List.mem_append_right _ List.mem_cons_self)
    rw [List.mem_singleton.1 hl, List.mem_append]
    exact not_or.2 ⟨hlast, htail⟩

end Text

theorem Path.exists_parts (spelling : String) :
    ∃ front last, parts ⟨spelling⟩ = front ++ [last] ∧ ∀ suffix : String, '/' ∉ suffix.toList →
      parts ⟨spelling ++ suffix⟩ = front ++ [last ++ suffix] := by
  rcases List.eq_nil_or_concat (Text.pieces '/' spelling.toList) with hnil | ⟨front, last, hpieces⟩
  · exact absurd hnil (Text.pieces_ne_nil _ _)
  · rw [List.concat_eq_append] at hpieces
    refine ⟨front.map String.ofList, String.ofList last, by simp [parts, hpieces],
      fun suffix hslash => ?_⟩
    simp [parts, Text.pieces_append_tail hpieces hslash]

namespace Tree

theorem append_ne_dots {name suffix : String} (hname : name ≠ "") (hdot : name ≠ ".")
    (hne : suffix ≠ "") :
    name ++ suffix ≠ "" ∧ name ++ suffix ≠ "." ∧ name ++ suffix ≠ ".." := by
  obtain ⟨c, cs, hcs⟩ := List.exists_cons_of_ne_nil (mt String.toList_eq_nil_iff.1 hname)
  obtain ⟨d, ds, hds⟩ := List.exists_cons_of_ne_nil (mt String.toList_eq_nil_iff.1 hne)
  have hlist : (name ++ suffix).toList = c :: (cs ++ d :: ds) := by
    rw [String.toList_append, hcs, hds, List.cons_append]
  refine ⟨fun heq => ?_, fun heq => ?_, fun heq => ?_⟩
  · rw [heq] at hlist
    cases hlist
  · rw [heq] at hlist
    simp at hlist
  · rw [heq] at hlist
    have htail : cs = [] := by
      have hlength := congrArg List.length hlist
      simp at hlength
      exact List.length_eq_zero_iff.1 (by omega)
    have hc : c = '.' := (List.cons.inj hlist).1.symm
    rw [htail, hc] at hcs
    exact hdot (String.toList_inj.1 hcs)

theorem stepsOf_append {spelling suffix name : String} {before : List Step}
    (h : stepsOf spelling = before ++ [.down name]) (hne : suffix ≠ "")
    (hslash : '/' ∉ suffix.toList) :
    stepsOf (spelling ++ suffix) = before ++ [.down (name ++ suffix)] := by
  obtain ⟨front, last, hparts, hlonger⟩ := Path.exists_parts spelling
  unfold stepsOf at h ⊢
  simp only [hparts, hlonger suffix hslash, List.getLast?_concat, List.filterMap_append,
    Option.some.injEq] at h ⊢
  have hend := congrArg List.getLast? h
  -- the last part is a name, since every other one gives another step or none
  by_cases hempty : last = ""
  · simp [Step.ofPart?, hempty] at hend
  by_cases hstay : last = "."
  · simp [Step.ofPart?, hstay] at hend
  by_cases hup : last = ".."
  · simp [Step.ofPart?, hup] at hend
  obtain ⟨hempty', hstay', hup'⟩ := append_ne_dots hempty hstay hne
  simp only [Step.ofPart?, hempty, hstay, hup, if_false, List.filterMap_cons,
    List.filterMap_nil] at h
  simp only [Step.ofPart?, hempty', hstay', hup', if_false, List.filterMap_cons, List.filterMap_nil]
  obtain ⟨hbefore, hname⟩ := List.append_inj' h rfl
  obtain rfl : last = name := by simpa using hname
  rw [hbefore]

def Step.goFrom (here : Place) : Step → Place
  | .stay | .slash => here
  | .up => here.dropLast
  | .down name => here ++ [name]

/-- Where steps lead, if only directories are left by a step. -/
def follow (isDirectory : Place → Bool) (here : Place) : List Step → Option Place
  | [] => some here
  | step :: rest => if isDirectory here then follow isDirectory (step.goFrom here) rest else none

section Follow

variable {isDirectory : Place → Bool} {here place : Place} {steps : List Step}

theorem follow_append (as bs : List Step) :
    follow isDirectory here (as ++ bs) =
      (follow isDirectory here as).bind fun place => follow isDirectory place bs := by
  induction as generalizing here with
  | nil => rfl
  | cons step as ih =>
    rw [List.cons_append, follow, follow]
    split
    · exact ih
    · rfl

def Grounded (isDirectory : Place → Bool) (place : Place) : Prop :=
  ∀ n < place.length, isDirectory (place.take n) = true

theorem Grounded.goFrom (h : Grounded isDirectory here)
    (hhere : isDirectory here = true) (step : Step) :
    Grounded isDirectory (step.goFrom here) := by
  intro n hn
  cases step with
  | stay => exact h n hn
  | slash => exact h n hn
  | up =>
    rw [Step.goFrom, List.length_dropLast] at hn
    rw [Step.goFrom, List.dropLast_eq_take, List.take_take, Nat.min_eq_left (by omega)]
    exact h n (by omega)
  | down name =>
    rw [Step.goFrom, List.length_append, List.length_singleton] at hn
    rw [Step.goFrom, List.take_append_of_le_length (by omega)]
    by_cases hlast : n < here.length
    · exact h n hlast
    · rwa [List.take_of_length_le (by omega)]

theorem Grounded.follow (h : Grounded isDirectory here)
    (hfollow : follow isDirectory here steps = some place) :
    Grounded isDirectory place := by
  induction steps generalizing here with
  | nil => exact Option.some.inj hfollow ▸ h
  | cons step rest ih =>
    rw [Tree.follow] at hfollow
    split at hfollow
    · next hhere => exact ih (h.goFrom hhere step) hfollow
    · cases hfollow

theorem exists_name_of_follow (h : Grounded isDirectory here) (hhere : isDirectory here = true)
    (hfollow : follow isDirectory here steps = some place) (hplace : isDirectory place = false) :
    ∃ before name dir, steps = before ++ [.down name] ∧ follow isDirectory here before = some dir ∧
      isDirectory dir = true ∧ place = dir ++ [name] := by
  rcases List.eq_nil_or_concat steps with rfl | ⟨before, step, rfl⟩
  · rw [← Option.some.inj hfollow, hhere] at hplace
    cases hplace
  · rw [List.concat_eq_append, follow_append] at hfollow
    obtain ⟨dir, hdir, hlast⟩ := Option.bind_eq_some_iff.1 hfollow
    rw [Tree.follow] at hlast
    split at hlast
    · next hisdir =>
      have hgo : step.goFrom dir = place := Option.some.inj hlast
      cases step with
      | stay =>
        rw [← hgo, Step.goFrom, hisdir] at hplace
        cases hplace
      | slash =>
        rw [← hgo, Step.goFrom, hisdir] at hplace
        cases hplace
      | up =>
        rw [← hgo, Step.goFrom, List.dropLast_eq_take] at hplace
        by_cases hnil : 0 < dir.length
        · rw [h.follow hdir _ (by omega)] at hplace
          cases hplace
        · rw [List.take_of_length_le (by omega), hisdir] at hplace
          cases hplace
      | down name => exact ⟨before, name, dir, List.concat_eq_append, hdir, hisdir, hgo.symm⟩
    · cases hlast

end Follow

def LinkFree (t : Tree) : Prop := ∀ place target, t.lookup? place ≠ some (.link target)

def bytesAt? (t : Tree) (place : Place) : Option ByteArray :=
  match t.lookup? place with
  | some (.file bytes) => some bytes
  | _ => none

section Lookup

variable {t : Tree} {place : Place}

theorem lookup?_of_isDirectoryAt (h : t.isDirectoryAt place = true) :
    t.lookup? place = some .directory := by
  unfold isDirectoryAt at h
  split at h
  · next hlookup => exact hlookup
  · cases h

theorem isPrefixOf_or_mem_of_lookup? {entry : Entry} (h : t.lookup? place = some entry) :
    place.isPrefixOf t.home = true ∧ entry = .directory ∨ (place, entry) ∈ t.entries := by
  unfold lookup? at h
  split at h
  · next hhome => exact .inl ⟨hhome, (Option.some.inj h).symm⟩
  · obtain ⟨⟨found, entry⟩, hfind, rfl⟩ := Option.map_eq_some_iff.1 h
    obtain rfl : found = place := by simpa using List.find?_some hfind
    exact .inr (List.mem_of_find?_eq_some hfind)

theorem linkFree_of_entries (h : ∀ e ∈ t.entries, ∀ target, e.2 ≠ .link target) : t.LinkFree := by
  intro place target hlookup
  rcases isPrefixOf_or_mem_of_lookup? hlookup with ⟨-, heq⟩ | hmem
  · cases heq
  · exact h _ hmem target rfl

theorem lookup?_of_bytesAt? {bytes : ByteArray} (h : t.bytesAt? place = some bytes) :
    t.lookup? place = some (.file bytes) := by
  unfold bytesAt? at h
  split at h
  · next hlookup => rw [hlookup, Option.some.inj h]
  · cases h

theorem isDirectoryAt_of_bytesAt? {bytes : ByteArray} (h : t.bytesAt? place = some bytes) :
    t.isDirectoryAt place = false := by
  rw [isDirectoryAt, lookup?_of_bytesAt? h]

theorem isDirectoryAt_of_isPrefixOf (h : place.isPrefixOf t.home = true) :
    t.isDirectoryAt place = true := by
  rw [isDirectoryAt, lookup?, if_pos h]

theorem isDirectoryAt_take_home (n : Nat) : t.isDirectoryAt (t.home.take n) = true :=
  isDirectoryAt_of_isPrefixOf (List.isPrefixOf_iff_prefix.2 (List.take_prefix n t.home))

theorem startOf_append {spelling : String} (h : spelling ≠ "") (here : Place) (more : String) :
    startOf here (spelling ++ more) = startOf here spelling := by
  obtain ⟨c, cs, hcs⟩ := List.exists_cons_of_ne_nil (mt String.toList_eq_nil_iff.1 h)
  rw [startOf, startOf, String.toList_append, hcs]
  rfl

theorem grounded_startOf (t : Tree) (spelling : String) :
    Grounded t.isDirectoryAt (startOf t.home spelling) ∧
      t.isDirectoryAt (startOf t.home spelling) = true := by
  unfold startOf
  split
  · exact ⟨fun n hn => absurd hn (by simp), isDirectoryAt_take_home 0⟩
  · refine ⟨fun n _ => isDirectoryAt_take_home n, ?_⟩
    rw [← List.take_length (l := t.home)]
    exact isDirectoryAt_take_home _

end Lookup

section Paths

variable {t : Tree} {p : Path} {place : Place}

theorem toOption_walk (hlinks : t.LinkFree) {making : Bool} {steps : List Step}
    (hmaking : making = true → steps.getLast? ≠ some .slash) (links : Nat) (here : Place) :
    (t.walk making links here steps).toOption = follow t.isDirectoryAt here steps := by
  induction steps generalizing here with
  | nil =>
    rw [walk.eq_def]
    rfl
  | cons step rest ih =>
    have hrest : making = true → rest.getLast? ≠ some .slash := by
      intro hm
      cases rest with
      | nil => simp
      | cons next rest => simpa using hmaking hm
    rw [walk.eq_def, follow]
    dsimp only
    by_cases hdir : t.isDirectoryAt here = true
    · rw [hdir, if_neg (by simp), if_pos rfl]
      cases step with
      | stay => exact ih hrest here
      | slash => exact ih hrest here
      | up => exact ih hrest here.dropLast
      | down name =>
        have hslash : ¬ (making && rest = [.slash]) = true := by
          intro hboth
          obtain ⟨hm, hlast⟩ := Bool.and_eq_true_iff.1 hboth
          exact hrest hm (by rw [of_decide_eq_true hlast]; rfl)
        dsimp only
        rw [if_neg hslash]
        cases hnext : t.lookup? (here ++ [name]) with
        | none =>
          cases rest with
          | nil => rfl
          | cons next rest => simp [follow, Step.goFrom, isDirectoryAt, hnext, Except.toOption]
        | some entry =>
          cases entry with
          | link target => exact absurd hnext (hlinks _ _)
          | file bytes => exact ih hrest (here ++ [name])
          | directory => exact ih hrest (here ++ [name])
    · rw [if_pos (by simpa using hdir), if_neg hdir]
      rfl

/-- The path ends with a name, which is looked for in a directory. -/
def Aims (t : Tree) (p : Path) (place : Place) : Prop :=
  ∃ before name dir, stepsOf p.spelling = before ++ [.down name] ∧
    follow t.isDirectoryAt (startOf t.home p.spelling) before = some dir ∧
      t.isDirectoryAt dir = true ∧
      place = dir ++ [name]

namespace Aims

theorem spelling_ne (h : Aims t p place) : p.spelling ≠ "" := by
  obtain ⟨before, name, -, hsteps, -⟩ := h
  intro hempty
  rw [hempty, show stepsOf "" = [.slash] by decide] at hsteps
  simpa using congrArg List.getLast? hsteps

theorem follow (h : Aims t p place) :
    follow t.isDirectoryAt (startOf t.home p.spelling) (stepsOf p.spelling) = some place := by
  obtain ⟨before, name, dir, hsteps, hdir, hisdir, rfl⟩ := h
  rw [hsteps, follow_append, hdir, Option.bind_some, Tree.follow, if_pos hisdir]
  rfl

theorem unique {other : Place} (h : Aims t p place) (hother : Aims t p other) : place = other :=
  Option.some.inj (h.follow.symm.trans hother.follow)

theorem locate (h : Aims t p place) (hlinks : t.LinkFree) (making : Bool) :
    t.locate making p = .ok place := by
  rw [Tree.locate, if_neg h.spelling_ne]
  apply eq_ok_of_toOption
  rw [toOption_walk hlinks, h.follow]
  obtain ⟨before, name, -, hsteps, -⟩ := h
  intro _
  rw [hsteps, List.getLast?_concat]
  simp

theorem locateName (h : Aims t p place) (hlinks : t.LinkFree) : t.locateName p = .ok place := by
  obtain ⟨before, name, dir, hsteps, hdir, hisdir, rfl⟩ := h
  have hwalk : t.walk false maxLinks (startOf t.home p.spelling) before = .ok dir :=
    eq_ok_of_toOption ((toOption_walk hlinks (by simp) _ _).trans hdir)
  rw [Tree.locateName, hsteps, List.reverse_append, List.reverse_singleton, List.singleton_append]
  simp only [List.reverse_reverse, hwalk, lookup?_of_isDirectoryAt hisdir]

theorem read (h : Aims t p place) (hlinks : t.LinkFree) {bytes : ByteArray}
    (hbytes : t.bytesAt? place = some bytes) :
    t.resolve p = .ok place ∧ t.read p = .ok bytes := by
  have hlookup := lookup?_of_bytesAt? hbytes
  have hresolve : t.resolve p = .ok place := by
    simp only [resolve, h.locate hlinks, hlookup, Option.isSome_some, if_true]
  refine ⟨hresolve, ?_⟩
  simp only [Tree.read, hresolve, hlookup]

theorem backup (h : Aims t p place) {options : Mutation.Options} (hne : options.backupSuffix ≠ "")
    (hslash : '/' ∉ options.backupSuffix.toList) :
    ∃ saved, Aims t (Mutation.backupPath options p) saved ∧ saved ≠ place := by
  have hspelling := h.spelling_ne
  obtain ⟨before, name, dir, hsteps, hdir, hisdir, rfl⟩ := h
  refine ⟨dir ++ [name ++ options.backupSuffix], ⟨before, name ++ options.backupSuffix, dir,
    stepsOf_append hsteps hne hslash, ?_, hisdir, rfl⟩, ?_⟩
  · rw [Mutation.backupPath, startOf_append hspelling, hdir]
  · intro heq
    have hname : name ++ options.backupSuffix = name := by simpa using heq
    have hlength := congrArg String.length hname
    rw [String.length_append] at hlength
    exact hne (String.length_eq_zero_iff.1 (by omega))

end Aims

/-- The place of the entry to which a path leads if there are no links. -/
def target? (t : Tree) (p : Path) : Option Place :=
  if p.spelling = "" then none
  else (follow t.isDirectoryAt (startOf t.home p.spelling) (stepsOf p.spelling)).filter fun place =>
    (t.lookup? place).isSome

theorem toOption_resolve (hlinks : t.LinkFree) : (t.resolve p).toOption = t.target? p := by
  have hwalk : (t.walk false maxLinks (startOf t.home p.spelling) (stepsOf p.spelling)).toOption =
    _ :=
    toOption_walk hlinks (by simp) _ _
  rw [target?, ← hwalk, resolve, locate]
  by_cases hempty : p.spelling = ""
  · rw [if_pos hempty, if_pos hempty]
    rfl
  · rw [if_neg hempty, if_neg hempty]
    cases t.walk false maxLinks (startOf t.home p.spelling) (stepsOf p.spelling) with
    | error e => rfl
    | ok found =>
      by_cases hfound : (t.lookup? found).isSome = true
      · simp [hfound, Except.toOption, Option.filter]
      · simp [hfound, Except.toOption, Option.filter]

theorem follow_of_resolve (hlinks : t.LinkFree) (h : t.resolve p = .ok place) :
    follow t.isDirectoryAt (startOf t.home p.spelling) (stepsOf p.spelling) = some place ∧
      (t.lookup? place).isSome = true := by
  have htarget := toOption_resolve (p := p) hlinks
  rw [h, target?] at htarget
  split at htarget
  · cases htarget
  · exact Option.filter_eq_some_iff.1 htarget.symm

theorem exists_resolve_of_read {bytes : ByteArray} (h : t.read p = .ok bytes) :
    ∃ place, t.resolve p = .ok place := by
  unfold read at h
  split at h
  · cases h
  · next place hresolve => exact ⟨place, hresolve⟩

theorem read_eq_ok_iff (hlinks : t.LinkFree) {bytes : ByteArray} :
    t.read p = .ok bytes ↔ ∃ place, Aims t p place ∧ t.bytesAt? place = some bytes := by
  refine ⟨fun h => ?_, fun ⟨place, haims, hbytes⟩ => (haims.read hlinks hbytes).2⟩
  unfold read at h
  cases hresolve : t.resolve p with
  | error e =>
    rw [hresolve] at h
    cases h
  | ok place =>
    rw [hresolve] at h
    dsimp only at h
    have hbytes : t.bytesAt? place = some bytes := by
      unfold bytesAt?
      split at h
      · next hlookup => rw [hlookup, Except.ok.inj h]
      · cases h
      · cases h
    obtain ⟨hgrounded, hstart⟩ := grounded_startOf t p.spelling
    exact ⟨place, exists_name_of_follow hgrounded hstart (follow_of_resolve hlinks hresolve).1
      (isDirectoryAt_of_bytesAt? hbytes), hbytes⟩

end Paths

end Tree

end DocGap
