import DocGap.Collection
import DocGap.Proofs.Isolation
import DocGap.Proofs.JoinedPaths
import Mathlib.Data.List.Induction

/-!
# What is collected

An argument stands for itself, or for the source files that can be reached from its directory
without entering a directory with a skipped name. In a tree without links, different spellings for
which one argument stands lead to different files, so that a path is collected exactly if an
argument stands for it and no argument before it stands for a path with the same key: for another
path to the same file, or for a path that leads nowhere and clashes with it.
-/
namespace DocGap

theorem Tree.isDirectory_of_resolve {t : Tree} {p : Path} {place : Place}
    (h : t.resolve p = .ok place) :
    t.isDirectory p = t.isDirectoryAt place := by
  rw [isDirectory, h]

structure Tree.WellFormed (t : Tree) : Prop where
  found : ∀ place entry, (place, entry) ∈ t.entries → t.lookup? place = some entry
  inside : ∀ dir name, (t.lookup? (dir ++ [name])).isSome = true →
    IsName name ∧ t.isDirectoryAt dir = true

namespace Tree.WellFormed

variable {t : Tree} {dir : Place} {name : String} {names : List String}

theorem of_entries (hhome : ∀ name ∈ t.home, IsName name)
    (hentries : ∀ e ∈ t.entries, t.lookup? e.1 = some e.2 ∧
      ∀ name ∈ e.1.getLast?, IsName name ∧ t.isDirectoryAt e.1.dropLast = true) : t.WellFormed := by
  refine ⟨fun place entry hmem => (hentries _ hmem).1, fun dir name h => ?_⟩
  obtain ⟨entry, hentry⟩ := Option.isSome_iff_exists.1 h
  rcases isPrefixOf_or_mem_of_lookup? hentry with ⟨hstarts, -⟩ | hmem
  · have habove : dir ++ [name] <+: t.home := List.isPrefixOf_iff_prefix.1 hstarts
    refine ⟨hhome name (habove.subset (by simp)), isDirectoryAt_of_isPrefixOf ?_⟩
    exact List.isPrefixOf_iff_prefix.2 ((List.prefix_append dir [name]).trans habove)
  · simpa using (hentries _ hmem).2 name (by simp)

theorem inner (hw : t.WellFormed) (h : (t.lookup? (dir ++ name :: names)).isSome = true) :
    IsName name ∧ t.isDirectoryAt dir = true ∧ (t.lookup? (dir ++ [name])).isSome = true := by
  induction names generalizing dir name with
  | nil => exact ⟨(hw.inside _ _ h).1, (hw.inside _ _ h).2, h⟩
  | cons next names ih =>
    rw [List.append_cons] at h
    have hentry : (t.lookup? (dir ++ [name])).isSome =
      true := by rw [lookup?_of_isDirectoryAt (ih h).2.1]; rfl
    exact ⟨(hw.inside _ _ hentry).1, (hw.inside _ _ hentry).2, hentry⟩

theorem resolve_spell (hw : t.WellFormed) (hlinks : t.LinkFree) {top : Path}
    (htop : t.resolve top = .ok dir)
    (h : (t.lookup? (dir ++ names)).isSome = true) : t.resolve (top.spell names) = .ok
    (dir ++ names) := by
  induction names generalizing top dir with
  | nil => rwa [List.append_nil]
  | cons name names ih =>
    obtain ⟨hname, hdir, hentry⟩ := hw.inner h
    rw [List.append_cons] at h ⊢
    exact ih (resolve_join hlinks htop hdir hname hentry) h

end Tree.WellFormed

namespace Collection

open DocGap.Tree (Place)

/-- The names lead to a directory, on a way that enters no directory with generated or
foreign code. -/
inductive Reaches (t : Tree) (top : Place) : List String → Prop
  | here : t.isDirectoryAt top = true → Reaches t top []
  | enter {names : List String} {name : String} : Reaches t top names →
      t.isDirectoryAt (top ++ (names ++ [name])) = true →
        name ∉ ["node_modules", "dist", "build", "target", ".git"] → Reaches t top (names ++ [name])

inductive SourceBelow (t : Tree) (top : Place) : List String → Prop
  | intro {names : List String} {name : String} {bytes : ByteArray} : Reaches t top names →
      t.lookup? (top ++ (names ++ [name])) = some (.file bytes) →
        (Path.language? ⟨name⟩).isSome = true →
        SourceBelow t top (names ++ [name])

/-- What an argument is given for: itself if it is no directory, else the sources below it. -/
inductive StandsFor (t : Tree) (argument : Path) : Path → Prop
  | self : t.isDirectory argument = false → StandsFor t argument argument
  | below {top : Place} {names : List String} : t.resolve argument = .ok top →
      SourceBelow t top names →
      StandsFor t argument (argument.spell names)

section Spellings

variable {t : Tree} {seen : List Tree.Key} {paths arguments : List Path} {path : Path}

theorem key_eq_iff {p q : Path} : key t p = key t q ↔ t.SameFile p q := Iff.rfl

theorem mem_firstSpellings_iff :
    path ∈ firstSpellings t seen paths ↔
      key t path ∉ seen ∧ paths.find? (fun other => key t other = key t path) = some path := by
  induction paths generalizing seen with
  | nil => simp [firstSpellings]
  | cons first rest ih =>
    rw [firstSpellings, List.find?_cons]
    -- a path to the same file is kept or barred by the first one, any other path is left to the
    -- rest
    by_cases hsame : key t first = key t path
    · by_cases hseen : key t path ∈ seen
      · simp [hsame, hseen, ih]
      · simp [hsame, hseen, ih, eq_comm]
    · have hne : path ≠ first := fun heq => hsame (by rw [heq])
      by_cases hseen : key t first ∈ seen
      · simp [hsame, hseen, ih]
      · simp [hsame, hseen, ih, hne, Ne.symm hsame]

theorem pairwise_firstSpellings (t : Tree) (seen : List Tree.Key) (paths : List Path) :
    (firstSpellings t seen paths).Pairwise fun p q => ¬ t.SameFile p q := by
  induction paths generalizing seen with
  | nil => exact .nil
  | cons first rest ih =>
    rw [firstSpellings]
    split
    · exact ih seen
    · refine .cons (fun other hother hsame => ?_) (ih _)
      obtain ⟨hnew, -⟩ := mem_firstSpellings_iff.1 hother
      exact hnew (List.mem_cons.2 (.inl (key_eq_iff.2 hsame).symm))

theorem mem_files_iff :
    path ∈ files t arguments ↔ ∃ before argument after, arguments = before ++ argument :: after ∧
      (expand t argument).find? (fun other => key t other = key t path) = some path ∧
        ∀ earlier ∈ before, ∀ other ∈ expand t earlier, ¬ t.SameFile other path := by
  rw [files, mem_firstSpellings_iff, List.find?_flatMap, List.findSome?_eq_some_iff]
  simp [List.find?_eq_none, key_eq_iff]

theorem exists_mem_files {argument : Path} (hargument : argument ∈ arguments)
    (h : path ∈ expand t argument) :
    ∃ kept ∈ files t arguments, t.SameFile kept path := by
  have hmem : path ∈ arguments.flatMap (expand t) := List.mem_flatMap.2 ⟨argument, hargument, h⟩
  cases hfind : (arguments.flatMap (expand t)).find? (fun other => key t other = key t path) with
  | none => simpa using List.find?_eq_none.1 hfind path hmem
  | some kept =>
    have hkept : key t kept = key t path := by simpa using List.find?_some hfind
    exact ⟨kept, mem_firstSpellings_iff.2 ⟨List.not_mem_nil, hkept ▸ hfind⟩, key_eq_iff.1 hkept⟩

end Spellings

section Sources

variable {t : Tree} {top : Place} {names : List String} {argument path : Path}

theorem reaches_iff (hw : t.WellFormed) :
    Reaches t top names ↔ t.isDirectoryAt (top ++ names) = true ∧ ∀ name ∈ names,
      name ∉ skippedNames := by
  constructor
  · intro h
    induction h with
    | here htop => exact ⟨by rwa [List.append_nil], by simp⟩
    | @enter names name _ hdir hname ih =>
      refine ⟨hdir, fun other hother => ?_⟩
      rcases List.mem_append.1 hother with hother | hother
      · exact ih.2 other hother
      · rwa [List.mem_singleton.1 hother]
  · rintro ⟨hdir, hnames⟩
    induction names using List.reverseRecOn with
    | nil => exact .here (by rwa [List.append_nil] at hdir)
    | append_singleton front name ih =>
      have habove : t.isDirectoryAt (top ++ front) = true := by
        refine (hw.inside (top ++ front) name ?_).2
        rw [List.append_assoc, Tree.lookup?_of_isDirectoryAt hdir]
        rfl
      exact .enter (ih habove fun other hother => hnames other (List.mem_append_left _ hother)) hdir
        (hnames name (by simp))

theorem below?_eq_some_iff {place : Place} :
    below? top place = some names ↔ place = top ++ names := by
  unfold below?
  split
  · next hstarts =>
    obtain ⟨rest, rfl⟩ := List.isPrefixOf_iff_prefix.1 hstarts
    rw [List.drop_left, Option.some.injEq, List.append_cancel_left_eq]
  · next hstarts =>
    simp only [reduceCtorEq, false_iff]
    rintro rfl
    exact hstarts (List.isPrefixOf_iff_prefix.2 (List.prefix_append _ _))

theorem source?_below (argument : Path) (top : Place) (names : List String) (name : String)
    (bytes : ByteArray) :
    source? argument top (top ++ (names ++ [name]), .file bytes) =
      if names.any skippedNames.contains || (argument.spell
      (names ++ [name])).language?.isNone then none
      else some (argument.spell (names ++ [name])) := by
  have hbelow : below? top (top ++ (names ++ [name])) = some (names ++ [name]) :=
    below?_eq_some_iff.2 rfl
  rw [source?, hbelow]
  split
  · next heq => cases heq
  · next heq => simp at heq
  · next found _ heq =>
    obtain rfl := Option.some.inj heq
    rw [List.dropLast_concat]
    rfl

theorem exists_file_of_source? {place : Place} {entry : Tree.Entry}
    (h : source? argument top (place, entry) = some path) :
    ∃ names name bytes, entry = .file bytes ∧ place = top ++ (names ++ [name]) := by
  cases entry with
  | link target => cases h
  | directory => cases h
  | file bytes =>
    rw [source?] at h
    cases hbelow : below? top place with
    | none =>
      rw [hbelow] at h
      cases h
    | some found =>
      rcases List.eq_nil_or_concat found with rfl | ⟨names, name, rfl⟩
      · rw [hbelow] at h
        cases h
      · rw [List.concat_eq_append] at hbelow
        exact ⟨names, name, bytes, rfl, below?_eq_some_iff.1 hbelow⟩

theorem mem_sources_iff (hw : t.WellFormed) :
    path ∈ sources t argument top ↔
      ∃ names, SourceBelow t top names ∧ path = argument.spell names := by
  rw [sources, List.mem_mergeSort, List.mem_filterMap]
  constructor
  · rintro ⟨⟨place, entry⟩, hmem, hsource⟩
    obtain ⟨names, name, bytes, rfl, rfl⟩ := exists_file_of_source? hsource
    have hfile := hw.found _ _ hmem
    obtain ⟨hname, hdir⟩ := hw.inside (top ++ names) name (by rw [List.append_assoc, hfile]; rfl)
    rw [source?_below, Path.spell_concat, Path.language?_join _ hname] at hsource
    split at hsource
    · cases hsource
    · next hkept =>
      simp only [Bool.or_eq_true, List.any_eq_true, List.contains_iff_mem,
        Option.isNone_iff_eq_none, not_or,
        not_exists, not_and] at hkept
      refine ⟨names ++ [name], .intro ((reaches_iff hw).2 ⟨hdir, hkept.1⟩) hfile ?_, ?_⟩
      · exact Option.isSome_iff_ne_none.2 hkept.2
      · rw [Path.spell_concat, Option.some.inj hsource]
  · rintro ⟨_, @⟨names, name, bytes, hreach, hfile, hlanguage⟩, rfl⟩
    have hmem : (top ++ (names ++ [name]), .file bytes) ∈ t.entries :=
      (Tree.isPrefixOf_or_mem_of_lookup? hfile).resolve_left (by simp)
    refine ⟨_, hmem, ?_⟩
    obtain ⟨hname, -⟩ := hw.inside (top ++ names) name (by rw [List.append_assoc, hfile]; rfl)
    obtain ⟨-, hskip⟩ := (reaches_iff hw).1 hreach
    rw [source?_below, if_neg]
    simp only [Bool.or_eq_true, List.any_eq_true, List.contains_iff_mem,
      Option.isNone_iff_eq_none, not_or,
      not_exists, not_and]
    refine ⟨hskip, ?_⟩
    rw [Path.spell_concat, Path.language?_join _ hname]
    exact Option.isSome_iff_ne_none.1 hlanguage

theorem Reaches.isDirectoryAt (h : Reaches t top names) : t.isDirectoryAt top = true := by
  induction h with
  | here htop => exact htop
  | enter _ _ _ ih => exact ih

theorem StandsFor.iff_of_isDirectory (h : t.isDirectory argument = false) :
    StandsFor t argument path ↔ path = argument := by
  refine ⟨fun hstands => ?_, fun heq => heq.symm ▸ .self h⟩
  cases hstands with
  | self => rfl
  | below htop hsource =>
    obtain @⟨names, name, bytes, hreach, -, -⟩ := hsource
    rw [Tree.isDirectory_of_resolve htop, hreach.isDirectoryAt] at h
    cases h

theorem mem_expand_iff (hw : t.WellFormed) :
    path ∈ expand t argument ↔ StandsFor t argument path := by
  unfold expand
  cases hresolve : t.resolve argument with
  | error e =>
    rw [StandsFor.iff_of_isDirectory (by rw [Tree.isDirectory, hresolve]), List.mem_singleton]
  | ok place =>
    dsimp only
    split
    · next hdir =>
      rw [mem_sources_iff hw]
      constructor
      · rintro ⟨names, hsource, rfl⟩
        exact .below hresolve hsource
      · intro hstands
        cases hstands with
        | self hself =>
          rw [Tree.isDirectory_of_resolve hresolve, hdir] at hself
          cases hself
        | below htop hsource =>
          obtain rfl := Except.ok.inj (hresolve.symm.trans htop)
          exact ⟨_, hsource, rfl⟩
    · next hdir =>
      have hself : t.isDirectory argument =
        false := by rw [Tree.isDirectory_of_resolve hresolve]; simpa using hdir
      rw [StandsFor.iff_of_isDirectory hself, List.mem_singleton]

theorem SourceBelow.resolve_spell (hw : t.WellFormed) (hlinks : t.LinkFree)
    (htop : t.resolve argument = .ok top)
    (h : SourceBelow t top names) : t.resolve (argument.spell names) = .ok (top ++ names) := by
  obtain ⟨-, hfile, -⟩ := h
  exact hw.resolve_spell hlinks htop (by rw [hfile]; rfl)

theorem StandsFor.eq_of_sameFile (hw : t.WellFormed) (hlinks : t.LinkFree) {p q : Path}
    (hp : StandsFor t argument p)
    (hq : StandsFor t argument q) (h : t.SameFile p q) : p = q := by
  cases hp with
  | self hself => exact ((iff_of_isDirectory hself).1 hq).symm
  | @below top names htop hsource =>
    cases hq with
    | self hself => exact (iff_of_isDirectory hself).1 (.below htop hsource)
    | @below top' names' htop' hsource' =>
      obtain rfl := Except.ok.inj (htop.symm.trans htop')
      rw [Tree.SameFile, hsource.resolve_spell hw hlinks htop,
        hsource'.resolve_spell hw hlinks htop] at h
      rw [List.append_cancel_left (Tree.Key.ofPlace_inj.1 h)]

theorem find?_expand (hw : t.WellFormed) (hlinks : t.LinkFree) :
    (expand t argument).find? (fun other => key t other = key t path) = some path ↔
      StandsFor t argument path := by
  constructor
  · exact fun h => (mem_expand_iff hw).1 (List.mem_of_find?_eq_some h)
  · intro hstands
    cases hfind : (expand t argument).find? (fun other => key t other = key t path) with
    | none => simpa using List.find?_eq_none.1 hfind path ((mem_expand_iff hw).2 hstands)
    | some kept =>
      have hkept := (mem_expand_iff hw).1 (List.mem_of_find?_eq_some hfind)
      have hsame : key t kept = key t path := by simpa using List.find?_some hfind
      rw [hkept.eq_of_sameFile hw hlinks hstands (key_eq_iff.1 hsame)]

end Sources

/-- The argument stands for the path, and no argument before stands for another path to the file. -/
structure MetFirst (t : Tree) (before : List Path) (argument path : Path) : Prop where
  stands : StandsFor t argument path
  first : ∀ earlier ∈ before, ∀ other, StandsFor t earlier other → ¬ t.Repeats other path

section Met

variable {t : Tree} {arguments before after : List Path} {argument path : Path}

theorem MetFirst.starts (h : MetFirst t before argument path) {before' after' : List Path}
    {argument' : Path}
    (heq : before ++ argument :: after = before' ++ argument' :: after')
    (hstands : StandsFor t argument' path) :
    before <+: before' := by
  rcases List.append_eq_append_iff.1 heq with ⟨middle, hbefore, -⟩ | ⟨middle, hbefore, hrest⟩
  · exact ⟨middle, hbefore.symm⟩
  · cases middle with
    | nil => exact ⟨[], by simpa using hbefore⟩
    | cons first middle =>
      obtain rfl : argument' = first := (List.cons.inj hrest).1
      exact absurd (.refl t path) (h.first argument' (by simp [hbefore]) path hstands)

theorem mem_files_iff_exists (hw : t.WellFormed) (hlinks : t.LinkFree) :
    path ∈ files t arguments ↔ ∃ before argument after, arguments = before ++ argument :: after ∧
      StandsFor t argument path ∧ ∀ earlier ∈ before, ∀ other, StandsFor t earlier other →
        ¬ t.SameFile other path := by
  simp only [mem_files_iff, find?_expand hw hlinks, mem_expand_iff hw]

theorem MetFirst.mem_files_iff (hw : t.WellFormed) (hlinks : t.LinkFree)
    (h : MetFirst t before argument path) :
    path ∈ files t (before ++ argument :: after) ↔
      ∀ earlier ∈ before, ∀ other, StandsFor t earlier other → ¬ t.Clash other path := by
  rw [mem_files_iff_exists hw hlinks]
  constructor
  · rintro ⟨before', argument', after', heq, hstands, hnew⟩ earlier hearlier other hother hclash
    exact hnew earlier ((h.starts heq hstands).subset hearlier) other hother
      (Tree.sameFile_iff.2 (.inr hclash))
  · intro hnone
    refine ⟨before, argument, after, rfl, h.stands, fun earlier hearlier other hother hsame => ?_⟩
    exact (Tree.sameFile_iff.1 hsame).elim (h.first earlier hearlier other hother)
      (hnone earlier hearlier other hother)

end Met

/-- Nothing is collected twice. In a tree without links, only that is collected for which the
arguments stand, under the spelling of the first argument that stands for it, and each spelling
leads to the file it is made for. Of what the arguments stand for, that is left out which clashes
with what an earlier argument stands for: with a path from the root that leads nowhere, though with
fewer slashes and dots it leads to the file. -/
theorem files_distinct_and_complete_iff (t : Tree) (arguments : List Path) :
    (files t arguments).Pairwise (fun p q => ¬ t.Repeats p q ∧ ¬ t.Clash p q) ∧
    (t.WellFormed → t.LinkFree →
      (∀ path ∈ files t arguments, ∃ before argument after,
        arguments = before ++ argument :: after ∧
        MetFirst t before argument path) ∧
      (∀ before argument after path, arguments = before ++ argument :: after →
        MetFirst t before argument path →
        (path ∈ files t arguments ↔
          ∀ earlier ∈ before, ∀ other, StandsFor t earlier other → ¬ t.Clash other path)) ∧
      (∀ argument ∈ arguments, ∀ path, StandsFor t argument path →
        ∃ kept ∈ files t arguments, t.Repeats kept path ∨ t.Clash kept path) ∧
      (∀ p q, t.Clash p q →
        ∃ found lost place bytes e, (p = found ∧ q = lost ∨ p = lost ∧ q = found) ∧
        t.resolve found = .ok place ∧ t.lookup? place = some (.file bytes) ∧
          t.resolve lost = .error e ∧ lost.isRooted = true) ∧
      ∀ argument top names, t.resolve argument = .ok top → SourceBelow t top names →
        t.resolve (argument.spell names) = .ok (top ++ names)) := by
  refine ⟨?_, fun hw hlinks =>
    ⟨fun path hpath => ?_, ?_, ?_, fun p q hclash => hclash.exists_file hlinks, ?_⟩⟩
  · exact (pairwise_firstSpellings t [] _).imp fun h => not_or.1 fun hor =>
      h (Tree.sameFile_iff.2 hor)
  · obtain ⟨before, argument, after, heq, hstands, hnew⟩ := (mem_files_iff_exists hw hlinks).1 hpath
    exact ⟨before, argument, after, heq, hstands, fun earlier hearlier other hother hrepeats =>
      hnew earlier hearlier other hother (Tree.sameFile_iff.2 (.inl hrepeats))⟩
  · rintro before argument after path rfl hmet
    exact hmet.mem_files_iff hw hlinks
  · intro argument hargument path hstands
    obtain ⟨kept, hkept, hsame⟩ := exists_mem_files hargument ((mem_expand_iff hw).2 hstands)
    exact ⟨kept, hkept, Tree.sameFile_iff.1 hsame⟩
  · exact fun argument top names htop hsource => hsource.resolve_spell hw hlinks htop

section Nested

def nestedTree : Tree where
  home := ["w"]
  entries :=
    [(["w", "src"], .directory), (["w", "src", "b.py"], .file .empty),
    (["w", "src", "dist"], .directory),
     (["w", "src", "dist", "c.js"], .file .empty), (["w", "notes.txt"], .file .empty)]

theorem linkFree_nestedTree : nestedTree.LinkFree := Tree.linkFree_of_entries (by simp [nestedTree])

theorem wellFormed_nestedTree : nestedTree.WellFormed := by
  refine .of_entries (by decide) fun e he => ?_
  simp only [nestedTree, List.mem_cons, List.not_mem_nil, or_false] at he
  rcases he with rfl | rfl | rfl | rfl | rfl <;> exact ⟨rfl, by decide⟩

theorem language?_generated : Path.language? ⟨"c.js"⟩ = some .javascript := by
  have hlower : "js".map Char.toLower = "js" := String.toList_inj.1 (by rw [String.toList_map]; rfl)
  rw [Path.language?, show Path.extension? ⟨"c.js"⟩ = some "js" by decide, Option.bind_some,
    Language.ofExtension?,
    hlower]
  decide

theorem resolve_source : nestedTree.resolve ⟨"src"⟩ = .ok ["w", "src"] :=
  eq_ok_of_toOption ((Tree.toOption_resolve linkFree_nestedTree).trans (by decide))

theorem resolve_generated :
    nestedTree.resolve ⟨"src/dist"⟩ = .ok ["w", "src", "dist"] ∧
      nestedTree.resolve ⟨"src/dist/c.js"⟩ = .ok ["w", "src", "dist", "c.js"] :=
  ⟨eq_ok_of_toOption ((Tree.toOption_resolve linkFree_nestedTree).trans (by decide)),
    eq_ok_of_toOption ((Tree.toOption_resolve linkFree_nestedTree).trans (by decide))⟩

theorem not_sameFile_of_source {path : Path} (h : StandsFor nestedTree ⟨"src"⟩ path) :
    ¬ nestedTree.SameFile path ⟨"src/dist/c.js"⟩ := by
  intro hsame
  cases h with
  | self hself =>
    rw [Tree.isDirectory_of_resolve resolve_source] at hself
    revert hself
    decide
  | @below top names htop hsource =>
    obtain rfl := Except.ok.inj (resolve_source.symm.trans htop)
    have hpath := hsource.resolve_spell wellFormed_nestedTree linkFree_nestedTree htop
    rw [Tree.SameFile, hpath, resolve_generated.2] at hsame
    have hnames : names = ["dist"] ++ ["c.js"] := by simpa using Tree.Key.ofPlace_inj.1 hsame
    obtain @⟨front, name, bytes, hreach, -, -⟩ := hsource
    obtain ⟨rfl, -⟩ := List.append_inj' hnames rfl
    exact ((reaches_iff wellFormed_nestedTree).1 hreach).2 "dist" (by simp) (by decide)

theorem nestedTree_files :
    nestedTree.WellFormed ∧ nestedTree.LinkFree ∧
      (⟨"src/dist/c.js"⟩ : Path) ∈ files nestedTree [⟨"src"⟩, ⟨"src/dist"⟩] ∧
      (⟨"src/dist/c.js"⟩ : Path) ∉ files nestedTree [⟨"src"⟩] := by
  have hcollected := fun arguments =>
    (files_distinct_and_complete_iff nestedTree arguments).2 wellFormed_nestedTree
    linkFree_nestedTree
  have hsource : SourceBelow nestedTree ["w", "src", "dist"] ([] ++ ["c.js"]) :=
    .intro (.here (by decide)) rfl (by rw [language?_generated]; rfl)
  have hother : ∀ earlier ∈ [(⟨"src"⟩ : Path)], ∀ other, StandsFor nestedTree earlier other →
      ¬ nestedTree.Repeats other ⟨"src/dist/c.js"⟩ ∧
        ¬ nestedTree.Clash other ⟨"src/dist/c.js"⟩ := by
    intro earlier hearlier other hstands
    rw [List.mem_singleton.1 hearlier] at hstands
    exact not_or.1 fun hor => not_sameFile_of_source hstands (Tree.sameFile_iff.2 hor)
  have hmet : MetFirst nestedTree [⟨"src"⟩] ⟨"src/dist"⟩ ⟨"src/dist/c.js"⟩ :=
    ⟨.below resolve_generated.1 hsource, fun earlier hearlier other hstands =>
      (hother earlier hearlier other hstands).1⟩
  refine ⟨wellFormed_nestedTree, linkFree_nestedTree, ?_, fun hmem => ?_⟩
  · exact ((hcollected _).2.1 [⟨"src"⟩] ⟨"src/dist"⟩ [] ⟨"src/dist/c.js"⟩ rfl hmet).2
      fun earlier hearlier other hstands =>
      (hother earlier hearlier other hstands).2
  · obtain ⟨before, argument, after, harguments, hstands, -⟩ := (hcollected _).1 _ hmem
    exact (hother argument (by rw [harguments]; simp) _ hstands).1 (.refl _ _)

end Nested

section Hidden

open Pipeline (soleTree linkFree_soleTree resolve_soleTree resolve_slash clash_soleTree)

theorem wellFormed_soleTree : soleTree.WellFormed := by
  refine .of_entries (by decide) fun e he => ?_
  rw [List.mem_singleton.1 he]
  exact ⟨rfl, by decide⟩

theorem isDirectory_slash : soleTree.isDirectory ⟨"/w/a.py/"⟩ = false := by
  obtain ⟨e, hlost⟩ := resolve_slash
  rw [Tree.isDirectory, hlost]

theorem standsFor_soleTree {argument : Path} (h : argument ∈ [(⟨"/w/a.py"⟩ : Path), ⟨"/w"⟩]) :
    StandsFor soleTree argument ⟨"/w/a.py"⟩ := by
  simp only [List.mem_cons, List.not_mem_nil, or_false] at h
  rcases h with rfl | rfl
  · exact .self (by rw [Tree.isDirectory_of_resolve resolve_soleTree]; decide)
  · have hdir : soleTree.resolve ⟨"/w"⟩ = .ok ["w"] :=
      eq_ok_of_toOption ((Tree.toOption_resolve linkFree_soleTree).trans (by decide))
    have hlanguage : (Path.language? ⟨"a.py"⟩).isSome = true := by
      rw [← Path.language?_join ⟨"/w"⟩ (by decide), show Path.join ⟨"/w"⟩ ⟨"a.py"⟩ =
        ⟨"/w/a.py"⟩ by decide,
        Pipeline.language?_soleTree]
      rfl
    have hsource : SourceBelow soleTree ["w"] ([] ++ ["a.py"]) :=
      .intro (.here (by decide)) rfl hlanguage
    exact .below hdir hsource

/-- A file is left out for a path before it that leads nowhere, whether it is named or
its directory. -/
theorem soleTree_left_out :
    soleTree.WellFormed ∧ soleTree.LinkFree ∧ ∀ argument ∈ [(⟨"/w/a.py"⟩ : Path), ⟨"/w"⟩],
      MetFirst soleTree [⟨"/w/a.py/"⟩] argument ⟨"/w/a.py"⟩ ∧
        (⟨"/w/a.py"⟩ : Path) ∉ files soleTree [⟨"/w/a.py/"⟩, argument] := by
  refine ⟨wellFormed_soleTree, linkFree_soleTree, fun argument hargument => ?_⟩
  have hlost : StandsFor soleTree ⟨"/w/a.py/"⟩ ⟨"/w/a.py/"⟩ := .self isDirectory_slash
  have hmet : MetFirst soleTree [⟨"/w/a.py/"⟩] argument ⟨"/w/a.py"⟩ := by
    refine ⟨standsFor_soleTree hargument, fun earlier hearlier other hstands => ?_⟩
    rw [List.mem_singleton.1 hearlier] at hstands
    rw [(StandsFor.iff_of_isDirectory isDirectory_slash).1 hstands]
    exact clash_soleTree.2
  refine ⟨hmet, fun hmem => ?_⟩
  have hnone := (hmet.mem_files_iff wellFormed_soleTree linkFree_soleTree).1 hmem
  exact hnone _ List.mem_cons_self _ hlost clash_soleTree.1

end Hidden

end Collection

end DocGap
