import DocGap.Proofs.Following

/-!
# Paths to what is below a directory

A name that is joined to a path is its last part. If the path leads to a directory, the joined path
leads to the entry of that name in it, whether the path ends with a slash or not. So names that are
joined one after the other lead to where they lead from the directory.
-/
namespace DocGap

def IsName (name : String) : Prop := name ≠ "" ∧ name ≠ "." ∧ name ≠ ".." ∧ '/' ∉ name.toList

instance : DecidablePred IsName := fun name =>
  inferInstanceAs (Decidable (name ≠ "" ∧ name ≠ "." ∧ name ≠ ".." ∧ '/' ∉ name.toList))

theorem IsName.ofPart? {name : String} (h : IsName name) :
    Component.ofPart? name = some (.name name) ∧ Tree.Step.ofPart? name = some (.down name) := by
  simp [Component.ofPart?, Tree.Step.ofPart?, h.1, h.2.1, h.2.2.1]

namespace Path

def spell (top : Path) (names : List String) : Path :=
  names.foldl (fun dir name => dir.join ⟨name⟩) top

theorem spell_concat (top : Path) (names : List String) (name : String) :
    top.spell (names ++ [name]) = (top.spell names).join ⟨name⟩ := by
  rw [spell, List.foldl_append]
  rfl

variable {name : String}

theorem isRooted_of_isName (h : IsName name) : isRooted ⟨name⟩ = false := by
  have hslash : name.toList.head? ≠ some '/' := fun heq => h.2.2.2 (List.mem_of_mem_head? heq)
  simpa [isRooted] using hslash

theorem parts_of_isName (h : IsName name) : parts ⟨name⟩ = [name] := by
  simp [parts, Text.pieces_of_not_mem h.2.2.2]

theorem parts_append_slash (spelling more : String) :
    parts ⟨spelling ++ "/" ++ more⟩ = parts ⟨spelling⟩ ++ parts ⟨more⟩ := by
  simp [parts, Text.pieces_append]

theorem exists_parts_of_slash {spelling : String}
    (h : spelling = "" ∨ spelling.toList.getLast? = some '/') :
    ∃ front, parts ⟨spelling⟩ = front ++ [""] := by
  rcases h with rfl | h
  · exact ⟨[], rfl⟩
  · obtain ⟨init, hinit⟩ := List.getLast?_eq_some_iff.1 h
    refine ⟨(Text.pieces '/' init).map String.ofList, ?_⟩
    simp [parts, hinit, Text.pieces_append, Text.pieces]

/-- The name takes the place of the empty part behind a slash, or comes behind the last part. -/
theorem exists_parts_join (dir : Path) (h : IsName name) :
    ∃ front, (dir.parts = front ∨ dir.parts = front ++ [""]) ∧
      (dir.join ⟨name⟩).parts = front ++ [name] := by
  rw [join, isRooted_of_isName h, if_neg (by simp)]
  split
  · next hslash =>
    obtain ⟨front, hfront⟩ := exists_parts_of_slash hslash
    obtain ⟨front', last, hparts, hlonger⟩ := exists_parts dir.spelling
    obtain ⟨rfl, hlast⟩ := List.append_inj' (hparts.symm.trans hfront) rfl
    obtain rfl : last = "" := by simpa using hlast
    exact ⟨front', .inr hparts, by simpa using hlonger name h.2.2.2⟩
  · exact ⟨dir.parts, .inl rfl, by rw [parts_append_slash, parts_of_isName h]⟩

theorem getLast?_components {p : Path} (h : IsName name) (front : List String)
    (hp : p.parts = front ++ [name]) :
    p.components.getLast? = some (.name name) := by
  have hend : ∀ steps, (steps ++ [Component.name name]).getLast? = some (.name name) :=
    fun steps => by simp
  simp only [components, hp, List.filterMap_append, List.filterMap_cons, h.ofPart?.1,
    List.filterMap_nil]
  split
  · exact hend (.root :: _)
  · split
    · exact hend (.here :: _)
    · exact hend _

theorem language?_join (dir : Path) (h : IsName name) :
    (dir.join ⟨name⟩).language? = language? ⟨name⟩ := by
  obtain ⟨front, -, hparts⟩ := exists_parts_join dir h
  have hextension : (dir.join ⟨name⟩).extension? = extension? ⟨name⟩ := by
    rw [extension?, extension?, getLast?_components h front hparts,
      getLast?_components h [] (parts_of_isName h)]
  rw [language?, language?, hextension]

theorem exists_spelling_join (dir : Path) (h : IsName name) :
    ∃ more, (dir.join ⟨name⟩).spelling = dir.spelling ++ more := by
  rw [join, isRooted_of_isName h, if_neg (by simp)]
  split
  · exact ⟨name, rfl⟩
  · exact ⟨"/" ++ name, String.append_assoc⟩

end Path

namespace Tree

variable {t : Tree} {dir : Path} {name : String} {place : Place}

theorem exists_stepsOf_join (dir : Path) (h : IsName name) :
    ∃ before, (stepsOf dir.spelling = before ∨ stepsOf dir.spelling = before ++ [.slash]) ∧
      stepsOf (dir.join ⟨name⟩).spelling = before ++ [.down name] := by
  obtain ⟨front, hdir, hjoin⟩ := Path.exists_parts_join dir h
  have hlast : (front ++ [name]).getLast? ≠ some "" := by simp [h.1]
  refine ⟨front.filterMap Step.ofPart?, ?_, ?_⟩
  · unfold stepsOf
    rcases hdir with hdir | hdir
    · simp only [hdir]
      split
      · exact .inr rfl
      · exact .inl rfl
    · simp [hdir, Step.ofPart?]
  · simp only [stepsOf, hjoin, hlast, if_false, List.filterMap_append,
      List.filterMap_cons, h.ofPart?.2,
      List.filterMap_nil]

theorem resolve_join (hlinks : t.LinkFree) (hresolve : t.resolve dir = .ok place)
    (hplace : t.isDirectoryAt place = true) (h : IsName name)
    (hentry : (t.lookup? (place ++ [name])).isSome = true) :
    t.resolve (dir.join ⟨name⟩) = .ok (place ++ [name]) := by
  have htarget : t.target? dir = some place := by rw [← toOption_resolve hlinks, hresolve]; rfl
  unfold target? at htarget
  split at htarget
  · cases htarget
  next hne =>
  obtain ⟨hfollow, -⟩ := Option.filter_eq_some_iff.1 htarget
  obtain ⟨before, hdir, hjoin⟩ := exists_stepsOf_join dir h
  obtain ⟨more, hmore⟩ := Path.exists_spelling_join dir h
  have hbefore : follow t.isDirectoryAt (startOf t.home dir.spelling) before = some place := by
    -- a slash at the end stays where it is
    rcases hdir with hdir | hdir
    · rwa [hdir] at hfollow
    · rw [hdir, follow_append] at hfollow
      obtain ⟨found, hfound, hslash⟩ := Option.bind_eq_some_iff.1 hfollow
      rw [follow] at hslash
      split at hslash
      · rw [hfound, ← hslash]
        rfl
      · cases hslash
  have hne' : (dir.join ⟨name⟩).spelling ≠ "" := by
    rw [hmore]
    exact fun heq => hne (String.append_eq_empty_iff.1 heq).1
  apply eq_ok_of_toOption
  rw [toOption_resolve hlinks, target?, if_neg hne', hjoin, hmore, startOf_append hne,
    follow_append, hbefore,
    Option.bind_some, follow, if_pos hplace]
  simp [follow, Step.goFrom, hentry]

end Tree

end DocGap
