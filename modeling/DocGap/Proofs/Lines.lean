import DocGap.Text.Blank
import DocGap.Text.Pieces

/-!
# Lines of a text

Cutting a text into pieces and joining pieces are inverse to each other as long as no piece holds
the mark. Every piece is a part of the text it was cut from.
-/
namespace DocGap.Text

variable {mark : Char}

theorem pieces_cons_mark (mark : Char) (cs : List Char) :
    pieces mark (mark :: cs) = [] :: pieces mark cs := by
  simp [pieces]

theorem pieces_cons_of_ne {c : Char} (h : c ≠ mark) {piece : List Char} {rest : List (List Char)}
    {cs : List Char} (hcs : pieces mark cs = piece :: rest) :
    pieces mark (c :: cs) = (c :: piece) :: rest := by
  simp [pieces, h, hcs]

theorem not_mem_of_mem_pieces {cs piece : List Char} (h : piece ∈ pieces mark cs) :
    mark ∉ piece := by
  induction cs generalizing piece with
  | nil => simp_all [pieces]
  | cons c cs ih =>
    obtain ⟨first, rest, hcs⟩ := List.exists_cons_of_ne_nil (pieces_ne_nil mark cs)
    by_cases hc : c = mark
    · subst hc
      rw [pieces_cons_mark, List.mem_cons] at h
      rcases h with rfl | h
      · simp
      · exact ih h
    · rw [pieces_cons_of_ne hc hcs, List.mem_cons] at h
      rw [hcs] at ih
      rcases h with rfl | h
      · simpa [Ne.symm hc] using ih List.mem_cons_self
      · exact ih (List.mem_cons_of_mem _ h)

theorem pieces_isInfix (cs : List Char) :
    (∀ piece ∈ (pieces mark cs).head?, piece <+: cs) ∧ ∀ piece ∈ pieces mark cs, piece <:+: cs := by
  induction cs with
  | nil => simp [pieces]
  | cons c cs ih =>
    obtain ⟨first, rest, hcs⟩ := List.exists_cons_of_ne_nil (pieces_ne_nil mark cs)
    rw [hcs] at ih
    obtain ⟨hfirst, hall⟩ := ih
    have hfirst : first <+: cs := hfirst first rfl
    by_cases hc : c = mark
    · subst hc
      rw [pieces_cons_mark, hcs]
      refine ⟨by simp, fun piece hp => ?_⟩
      rcases List.mem_cons.1 hp with rfl | hp
      · exact List.nil_infix
      · exact (hall piece hp).trans (List.suffix_cons c cs).isInfix
    · rw [pieces_cons_of_ne hc hcs]
      have hstarts : c :: first <+: c :: cs := (List.prefix_cons_inj c).2 hfirst
      refine ⟨by simpa using hstarts, fun piece hp => ?_⟩
      rcases List.mem_cons.1 hp with rfl | hp
      · exact hstarts.isInfix
      · exact (hall piece (List.mem_cons_of_mem _ hp)).trans (List.suffix_cons c cs).isInfix

theorem length_pieces (mark : Char) (cs : List Char) :
    (pieces mark cs).length = cs.count mark + 1 := by
  induction cs with
  | nil => simp [pieces]
  | cons c cs ih =>
    obtain ⟨first, rest, hcs⟩ := List.exists_cons_of_ne_nil (pieces_ne_nil mark cs)
    by_cases hc : c = mark
    · subst hc
      rw [pieces_cons_mark, List.length_cons, ih, List.count_cons_self]
    · rw [pieces_cons_of_ne hc hcs, List.count_cons_of_ne hc, ← ih, hcs,
        List.length_cons, List.length_cons]

theorem pieces_append (mark : Char) (as bs : List Char) :
    pieces mark (as ++ mark :: bs) = pieces mark as ++ pieces mark bs := by
  induction as with
  | nil => exact pieces_cons_mark mark bs
  | cons c as ih =>
    obtain ⟨first, rest, has⟩ := List.exists_cons_of_ne_nil (pieces_ne_nil mark as)
    by_cases hc : c = mark
    · subst hc
      rw [List.cons_append, pieces_cons_mark, pieces_cons_mark, ih, List.cons_append]
    · rw [has, List.cons_append] at ih
      rw [List.cons_append, pieces_cons_of_ne hc ih, pieces_cons_of_ne hc has, List.cons_append]

theorem pieces_of_not_mem {cs : List Char} (h : mark ∉ cs) : pieces mark cs = [cs] := by
  induction cs with
  | nil => rfl
  | cons c cs ih =>
    rw [List.mem_cons, not_or] at h
    exact pieces_cons_of_ne (Ne.symm h.1) (ih h.2)

theorem pieces_append_mark (piece cs : List Char) (h : mark ∉ piece) :
    pieces mark (piece ++ mark :: cs) = piece :: pieces mark cs := by
  rw [pieces_append, pieces_of_not_mem h, List.singleton_append]

theorem joinWith_cons {ls : List (List Char)} (l : List Char) (h : ls ≠ []) :
    joinWith mark (l :: ls) = l ++ mark :: joinWith mark ls := by
  cases ls with
  | nil => exact absurd rfl h
  | cons next rest => rfl

theorem pieces_append_of_not_mem {front cs piece : List Char} {rest : List (List Char)}
    (h : mark ∉ front)
    (hcs : pieces mark cs = piece :: rest) : pieces mark (front ++ cs) =
    (front ++ piece) :: rest := by
  induction front with
  | nil => exact hcs
  | cons c front ih =>
    rw [List.mem_cons, not_or] at h
    exact pieces_cons_of_ne (Ne.symm h.1) (ih h.2)

theorem pieces_joinWith {ls : List (List Char)} (hne : ls ≠ []) (h : ∀ l ∈ ls, mark ∉ l) :
    pieces mark (joinWith mark ls) = ls := by
  induction ls with
  | nil => exact absurd rfl hne
  | cons l ls ih =>
    cases ls with
    | nil => exact pieces_of_not_mem (h l List.mem_cons_self)
    | cons next rest =>
      rw [joinWith_cons l (by simp), pieces_append_mark _ _ (h l List.mem_cons_self),
        ih (by simp) (fun m hm => h m (List.mem_cons_of_mem _ hm))]

theorem isInfix_joinWith {ls : List (List Char)} {l : List Char} (h : l ∈ ls) :
    l <:+: joinWith mark ls := by
  induction ls with
  | nil => cases h
  | cons first rest ih =>
    cases rest with
    | nil => exact List.mem_singleton.1 h ▸ List.infix_rfl
    | cons next rest =>
      rw [joinWith_cons first (by simp)]
      rcases List.mem_cons.1 h with rfl | h
      · exact (List.prefix_append _ _).isInfix
      · exact (ih h).trans ((List.suffix_cons _ _).trans (List.suffix_append _ _)).isInfix

theorem append_of_cutAt {mark cs before after : List Char}
    (h : cutAt mark cs = some (before, after)) :
    cs = before ++ (mark ++ after) := by
  fun_induction cutAt mark cs generalizing before with
  | case1 hempty => simp_all
  | case2 hempty => cases h
  | case3 c cs hstarts =>
    obtain ⟨rest, hrest⟩ := List.isPrefixOf_iff_prefix.1 hstarts
    simp only [Option.some.injEq, Prod.mk.injEq] at h
    rw [← h.1, ← h.2, ← hrest, List.drop_left, List.nil_append]
  | case4 c cs hstarts ih =>
    obtain ⟨⟨front, rest⟩, hfound, heq⟩ := Option.map_eq_some_iff.1 h
    cases heq
    rw [ih hfound, List.cons_append]

/-- The text is cut where no occurrence of the mark starts any earlier. -/
theorem cutAt_append {mark front : List Char} (hmark : mark ≠ []) (rest : List Char)
    (h : ∀ v, v <:+ front → v ≠ [] → ¬ mark <+: v ++ (mark ++ rest)) :
    cutAt mark (front ++ (mark ++ rest)) = some (front, rest) := by
  induction front with
  | nil =>
    obtain ⟨m, ms, rfl⟩ := List.exists_cons_of_ne_nil hmark
    have hstarts : (m :: ms).isPrefixOf (m :: (ms ++ rest)) = true :=
      List.isPrefixOf_iff_prefix.2 (List.prefix_append (m :: ms) rest)
    rw [List.nil_append, List.cons_append, cutAt, if_pos hstarts,
      ← List.cons_append, List.drop_left]
  | cons c front ih =>
    have hstarts : ¬ mark.isPrefixOf (c :: (front ++ (mark ++ rest))) = true := by
      rw [List.isPrefixOf_iff_prefix]
      exact h (c :: front) List.suffix_rfl (List.cons_ne_nil c front)
    rw [List.cons_append, cutAt, if_neg hstarts, ih fun v hv =>
      h v (hv.trans (List.suffix_cons c front))]
    rfl

theorem cutAt_append_right {mark cs before after : List Char} (hmark : mark ≠ [])
    (h : cutAt mark cs = some (before, after)) (more : List Char) :
    cutAt mark (cs ++ more) = some (before, after ++ more) := by
  fun_induction cutAt mark cs generalizing before with
  | case1 hempty => exact absurd (List.isEmpty_iff.1 hempty) hmark
  | case2 => cases h
  | case3 c cs hstarts =>
    obtain ⟨rfl, rfl⟩ := Prod.mk.inj (Option.some.inj h)
    have hbegins := List.isPrefixOf_iff_prefix.1 hstarts
    have hlonger : mark.isPrefixOf (c :: (cs ++ more)) = true :=
      List.isPrefixOf_iff_prefix.2 (hbegins.trans (List.prefix_append (c :: cs) more))
    rw [List.cons_append, cutAt, if_pos hlonger, ← List.cons_append,
      List.drop_append_of_le_length hbegins.length_le]
  | case4 c cs hstarts ih =>
    obtain ⟨⟨front, rest⟩, hcut, heq⟩ := Option.map_eq_some_iff.1 h
    obtain ⟨rfl, rfl⟩ := Prod.mk.inj heq
    have hlength : mark.length ≤ (c :: cs).length := by
      rw [append_of_cutAt hcut]
      simp only [List.length_cons, List.length_append]
      omega
    have hlonger : ¬ mark.isPrefixOf (c :: (cs ++ more)) = true := by
      rw [List.isPrefixOf_iff_prefix]
      intro hbegins
      apply hstarts
      rw [List.isPrefixOf_iff_prefix]
      exact List.prefix_of_prefix_length_le hbegins (List.prefix_append (c :: cs) more) hlength
    rw [List.cons_append, cutAt, if_neg hlonger, ih hcut]
    rfl

theorem contains_iff_isInfix {part cs : List Char} : contains part cs = true ↔ part <:+: cs := by
  unfold contains
  fun_induction cutAt part cs with
  | case1 hempty => simp_all
  | case2 hempty => simp_all
  | case3 c cs hstarts =>
    simpa using (List.isPrefixOf_iff_prefix.1 hstarts).isInfix
  | case4 c cs hstarts ih =>
    have hno : ¬ part <+: c :: cs := fun h => hstarts (List.isPrefixOf_iff_prefix.2 h)
    rw [Option.isSome_map, ih, List.infix_cons_iff, or_iff_right hno]

theorem splitLines_joinLines {ls : List (List Char)} (hne : ls ≠ []) (h : ∀ l ∈ ls, '\n' ∉ l) :
    splitLines (joinLines ls) = ls := pieces_joinWith hne h

theorem joinLines_splitLines (cs : List Char) : joinLines (splitLines cs) = cs :=
  joinWith_pieces '\n' cs

theorem joinLines_cons {ls : List (List Char)} (l : List Char) (h : ls ≠ []) :
    joinLines (l :: ls) = l ++ '\n' :: joinLines ls := joinWith_cons l h

theorem newline_not_mem_of_mem_splitLines {cs l : List Char} (h : l ∈ splitLines cs) : '\n' ∉ l :=
  not_mem_of_mem_pieces h

theorem splitLines_ne_nil (cs : List Char) : splitLines cs ≠ [] := pieces_ne_nil '\n' cs

theorem splitLines_append_newline (as bs : List Char) :
    splitLines (as ++ '\n' :: bs) = splitLines as ++ splitLines bs := pieces_append '\n' as bs

theorem dropReturn_isPrefix (line : List Char) : dropReturn line <+: line := by
  unfold dropReturn
  split
  · next rest h =>
    have hline : line = rest.reverse ++ ['\r'] := by simpa using congrArg List.reverse h
    rw [hline]
    exact List.prefix_append _ _
  · exact List.prefix_rfl

theorem exists_splitLines_of_mem_bodyLines {cs l : List Char} (h : l ∈ bodyLines cs) :
    ∃ piece ∈ splitLines cs, l <+: piece := by
  rw [bodyLines] at h
  generalize splitLines cs = ls at h
  fun_induction bodyLines.close ls with
  | case1 => cases h
  | case2 last hempty => cases h
  | case3 last hempty => exact ⟨last, by simp, by simp_all⟩
  | case4 line rest hrest ih =>
    rcases List.mem_cons.1 h with rfl | h
    · exact ⟨line, List.mem_cons_self, dropReturn_isPrefix line⟩
    · obtain ⟨piece, hmem, hstarts⟩ := ih h
      exact ⟨piece, List.mem_cons_of_mem _ hmem, hstarts⟩

theorem newline_not_mem_of_mem_bodyLines {cs l : List Char} (h : l ∈ bodyLines cs) : '\n' ∉ l := by
  obtain ⟨piece, hmem, hstarts⟩ := exists_splitLines_of_mem_bodyLines h
  exact fun hl => newline_not_mem_of_mem_splitLines hmem (hstarts.subset hl)

theorem bodyLines_isInfix {cs l : List Char} (h : l ∈ bodyLines cs) : l <:+: cs := by
  obtain ⟨piece, hmem, hstarts⟩ := exists_splitLines_of_mem_bodyLines h
  exact hstarts.isInfix.trans ((pieces_isInfix cs).2 piece hmem)

theorem dropEndWhile_isPrefix (p : Char → Bool) (cs : List Char) : dropEndWhile p cs <+: cs := by
  have h := List.dropWhile_suffix p (l := cs.reverse)
  simpa [dropEndWhile] using List.reverse_prefix.2 h

theorem dropEndWhile_eq_self {p : Char → Bool} {cs : List Char}
    (h : ∀ c ∈ cs.getLast?, p c = false) :
    dropEndWhile p cs = cs := by
  rcases List.eq_nil_or_concat cs with rfl | ⟨init, last, rfl⟩
  · rfl
  · have hlast : p last = false := h last (by simp)
    simp [dropEndWhile, hlast]

theorem trim_isInfix (cs : List Char) : trim cs <:+: cs :=
  (dropEndWhile_isPrefix isBlank _).isInfix.trans (List.dropWhile_suffix isBlank).isInfix

theorem trimEnd_append (cs : List Char) :
    ∃ trail, cs = trimEnd cs ++ trail ∧ ∀ c ∈ trail, isBlank c = true := by
  refine ⟨(cs.reverse.takeWhile isBlank).reverse, ?_, fun c hc => ?_⟩
  · rw [trimEnd, dropEndWhile, ← List.reverse_append, List.takeWhile_append_dropWhile,
      List.reverse_reverse]
  · exact List.all_eq_true.1 List.all_takeWhile c (List.mem_reverse.1 hc)

theorem append_trim_append (cs : List Char) :
    ∃ lead trail, cs = lead ++ (trim cs ++ trail) ∧ (∀ c ∈ lead, isBlank c = true) ∧
      ∀ c ∈ trail, isBlank c = true := by
  obtain ⟨trail, htrail, hblank⟩ := trimEnd_append (trimStart cs)
  refine ⟨cs.takeWhile isBlank, trail, ?_, List.all_eq_true.1 List.all_takeWhile, hblank⟩
  rw [trim, ← htrail, trimStart, List.takeWhile_append_dropWhile]

structure Tight (cs : List Char) : Prop where
  head : ∀ c ∈ cs.head?, isBlank c = false
  last : ∀ c ∈ cs.getLast?, isBlank c = false

theorem head?_trimStart {cs : List Char} {c : Char} (h : c ∈ (trimStart cs).head?) :
    isBlank c = false := by
  have hhead := List.head?_dropWhile_not isBlank cs
  rw [trimStart] at h
  rw [h] at hhead
  exact hhead

theorem tight_trimEnd {cs : List Char} (h : ∀ c ∈ cs.head?, isBlank c = false) : Tight
    (trimEnd cs) := by
  refine ⟨fun c hc => ?_, fun c hc => ?_⟩
  · obtain ⟨rest, hrest⟩ := dropEndWhile_isPrefix isBlank cs
    apply h
    rw [← hrest]
    rw [trimEnd] at hc
    rw [List.head?_append, hc]
    rfl
  · rw [trimEnd, dropEndWhile, List.getLast?_reverse] at hc
    exact head?_trimStart hc

theorem tight_trim (cs : List Char) : Tight (trim cs) := tight_trimEnd fun _ => head?_trimStart

theorem trim_append {lead core trail : List Char} (hlead : ∀ c ∈ lead, isBlank c = true)
    (htrail : ∀ c ∈ trail, isBlank c = true) (hne : core ≠ []) (hcore : Tight core) :
    trim (lead ++ (core ++ trail)) = core := by
  obtain ⟨c, rest, rfl⟩ := List.exists_cons_of_ne_nil hne
  have hc : isBlank c = false := hcore.head c rfl
  have hstart : trimStart (lead ++ (c :: rest ++ trail)) = c :: rest ++ trail := by
    rw [trimStart, List.dropWhile_append_of_pos hlead, List.cons_append,
      List.dropWhile_cons_of_neg (by simp [hc])]
  have hreverse : ∀ d ∈ trail.reverse, isBlank d = true :=
    fun d hd => htrail d (List.mem_reverse.1 hd)
  rw [trim, hstart, trimEnd, dropEndWhile, List.reverse_append,
    List.dropWhile_append_of_pos hreverse]
  exact dropEndWhile_eq_self hcore.last

end DocGap.Text
