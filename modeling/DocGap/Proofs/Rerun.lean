import DocGap.Proofs.Templates

/-!
# Documenting a text twice

A text stays as it is exactly if every covered element is announced, or named by a comment above it.
An element that gets a block is announced afterwards, on the line to which it has moved, if the
window has eight lines, so that the next run has no block for that line. An element that was left
alone can still lose what announced or named it from further up, when the blocks of its neighbours
come in between.
-/
namespace DocGap

namespace Plan

/-- The line to which line `line` moves. -/
def movedLine (applied : List Applied) (line : Nat) : Nat :=
  applied.foldr (fun a moved => if a.insertionLine ≤ line then a.lineCount + moved else moved) line

section Moved

variable {returns : Bool} {lines : List (List Char)} {landed : List Insertion}

theorem take_weave_below {n k : Nat} (hrange : ∀ i ∈ landed, i.insertionLine ≤ lines.length + 1)
    (hk : ∀ i ∈ landed, n < i.insertionLine → k < i.insertionLine) :
    (weave returns lines (landed.filter (n < ·.insertionLine))).take k = lines.take k := by
  refine take_weave (fun i hi => hrange i (List.mem_filter.1 hi).1) fun i hi => ?_
  obtain ⟨hi, hlt⟩ := List.mem_filter.1 hi
  have hk := hk i hi (by simpa using hlt)
  omega

theorem weave_split {n : Nat}
    (hsorted : landed.Pairwise fun i j => i.insertionLine ≤ j.insertionLine)
    (hrange : ∀ i ∈ landed, i.insertionLine ≤ lines.length + 1) (hn : n ≤ lines.length + 1) :
    weave returns lines landed =
      weave returns (lines.take (n - 1)) (landed.filter (·.insertionLine ≤ n)) ++
        (weave returns lines (landed.filter (n < ·.insertionLine))).drop (n - 1) := by
  have hsplit :=
    List.take_append_drop (n - 1) (weave returns lines (landed.filter (n < ·.insertionLine)))
  rw [take_weave_below hrange fun i _ hlt => by omega] at hsplit
  rw [← weave_lines_append, hsplit, ← weave_append, ← filter_append_filter hsorted]
  intro i hi
  have hle : i.insertionLine ≤ n := by simpa using (List.mem_filter.1 hi).2
  rw [List.length_take]
  omega

theorem exists_last_block (hsorted : landed.Pairwise fun i j => i.insertionLine ≤ j.insertionLine)
    (hrange : ∀ i ∈ landed, i.insertionLine ≤ lines.length + 1)
    (hnear : ∃ i ∈ landed, lines.length ≤ i.insertionLine) :
    ∃ i ∈ landed, ∃ front rest,
      weave returns lines landed = front ++ (blockLines returns i.content ++ rest) ∧
        rest.length ≤ 1 := by
  rcases List.eq_nil_or_concat landed with rfl | ⟨above, last, rfl⟩
  · simp at hnear
  · rw [List.concat_eq_append] at *
    have hlast := hrange last (by simp)
    have hle : ∀ i ∈ above, i.insertionLine ≤ last.insertionLine := fun i hi =>
      (List.pairwise_append.1 hsorted).2.2 i hi last List.mem_cons_self
    -- the last block is near as well, since no block is for a later line
    have hclose : lines.length ≤ last.insertionLine := by
      obtain ⟨i, hi, hi'⟩ := hnear
      rcases List.mem_append.1 hi with hi | hi
      · exact Nat.le_trans hi' (hle i hi)
      · rwa [List.mem_singleton.1 hi] at hi'
    refine ⟨last, by simp, weave returns (lines.take (last.insertionLine - 1)) above,
      lines.drop (last.insertionLine - 1), ?_, by rw [List.length_drop]; omega⟩
    rw [weave_append, ← weave_lines_append]
    · rw [← List.append_assoc]
      rfl
    · intro i hi
      have hi := hle i hi
      rw [List.length_take]
      omega

end Moved

section Text

variable (style : Comment.Style) (window : Nat) (text : String) (batch : List Insertion)

variable {style window text batch} in
theorem exists_applied_of_mem_landedIn {i : Insertion} (h : i ∈ landedIn style window text batch) :
    ∃ a ∈ (ofBatch style window text batch).applied,
      a.lineCount = (blockLines (settingFor style window text).returns i.content).length := by
  have hmem := List.mem_map_of_mem (f := Landed.of (settingFor style window text).returns) h
  rw [← map_landed_applied] at hmem
  obtain ⟨a, ha, heq⟩ := List.mem_map.1 hmem
  exact ⟨a, ha, congrArg (·.lineCount) heq⟩

theorem movedLine_applied (line : Nat) :
    movedLine (ofBatch style window text batch).applied line =
      (((landedIn style window text batch).filter (·.insertionLine ≤ line)).flatMap fun i =>
        blockLines (settingFor style window text).returns i.content).length + line := by
  have h : movedLine (ofBatch style window text batch).applied line =
      ((ofBatch style window text batch).applied.map Applied.landed).foldr
        (fun l moved => if l.insertionLine ≤ line then l.lineCount + moved else moved) line := by
    rw [List.foldr_map]
    rfl
  rw [h, map_landed_applied, List.foldr_map]
  generalize landedIn style window text batch = landed
  induction landed with
  | nil => simp
  | cons i landed ih =>
    rw [List.foldr_cons, ih]
    by_cases hi : i.insertionLine ≤ line
    · simp [Landed.of, hi, Nat.add_assoc]
    · simp [Landed.of, hi]

theorem exists_take_splitLines_content {n : Nat} {line : List Char} {front tail : List (List Char)}
    (h : (wovenLines style window text batch).take n = front ++ line :: tail) :
    ∃ front, (Text.splitLines (ofBatch style window text batch).content.toList).take n =
      front ++ tail := by
  -- a byte order mark does not reach beyond the first line
  obtain ⟨first, rest, hwoven, hlines⟩ := exists_wovenLines style window text batch
  rw [hwoven] at h
  rw [hlines]
  cases n with
  | zero => simp at h
  | succ n =>
    rw [List.take_succ_cons] at h ⊢
    cases front with
    | nil => exact ⟨[_], congrArg _ (List.cons.inj h).2⟩
    | cons f front =>
      refine ⟨((splitMark text.toList).1 ++ first) :: front ++ [line], ?_⟩
      simp [(List.cons.inj h).2]

theorem wovenLines_split {n : Nat} (hpos : 1 ≤ n) (hle : n ≤ (linesOf text).length + 1) :
    ∃ above below, wovenLines style window text batch = above ++ below ∧
      above = weave (settingFor style window text).returns ((linesOf text).take (n - 1))
        ((landedIn style window text batch).filter (·.insertionLine ≤ n)) ∧
      above.length = movedLine (ofBatch style window text batch).applied n - 1 ∧
      ∀ k, (∀ i ∈ landedIn style window text batch, n < i.insertionLine → k < i.insertionLine) →
        below.take (k - (n - 1)) = ((linesOf text).take k).drop (n - 1) := by
  have hrange : ∀ i ∈ landedIn style window text batch, i.insertionLine ≤
    (linesOf text).length + 1 :=
    fun i hi => landedIn_range style window text batch hi
  refine ⟨_, _, weave_split (landedIn_sorted style window text batch) hrange hle, rfl,
    ?_, fun k hk => ?_⟩
  · rw [length_weave, movedLine_applied, List.length_take]
    omega
  · rw [← take_weave_below hrange hk, List.drop_take]

theorem getElem?_wovenLines_movedLine {n : Nat} (hpos : 1 ≤ n) (hle : n ≤ (linesOf text).length) :
    (wovenLines style window text batch)[movedLine
      (ofBatch style window text batch).applied n - 1]? =
      (linesOf text)[n - 1]? := by
  obtain ⟨above, below, hsplit, -, hlength, hbelow⟩ :=
    wovenLines_split style window text batch hpos (Nat.le_succ_of_le hle)
  have hlt : n - 1 < n := by omega
  have hfirst := congrArg List.head? (hbelow n fun i _ h => h)
  rw [List.head?_take, if_neg (by omega), List.head?_drop, List.getElem?_take_of_lt hlt] at hfirst
  rw [hsplit, ← hlength, List.getElem?_append_right (Nat.le_refl _), Nat.sub_self,
    ← List.head?_eq_getElem?, hfirst]

/-- If a block goes in above line `n` or above the line before, then some block ends at most one
line above the place to which line `n` moves. -/
theorem exists_block_above_movedLine {n : Nat} (hpos : 1 ≤ n) (hle : n ≤ (linesOf text).length)
    (hnear : ∃ i ∈ landedIn style window text batch, i.insertionLine = insertionLineFor n) :
    ∃ i ∈ landedIn style window text batch, ∃ front rest,
      (wovenLines style window text batch).take
        (movedLine (ofBatch style window text batch).applied n - 1) =
        front ++ (blockLines (settingFor style window text).returns i.content ++ rest) ∧
          rest.length ≤ 1 := by
  obtain ⟨above, below, hsplit, habove, hlength, -⟩ :=
    wovenLines_split style window text batch hpos (Nat.le_succ_of_le hle)
  rw [hsplit, ← hlength, List.take_left, habove]
  have hrange : ∀ i ∈ (landedIn style window text batch).filter (·.insertionLine ≤ n),
      i.insertionLine ≤ ((linesOf text).take (n - 1)).length + 1 := by
    intro i hi
    have hi : i.insertionLine ≤ n := by simpa using (List.mem_filter.1 hi).2
    rw [List.length_take]
    omega
  have hnear : ∃ i ∈ (landedIn style window text batch).filter (·.insertionLine ≤ n),
      ((linesOf text).take (n - 1)).length ≤ i.insertionLine := by
    obtain ⟨i, hi, hline⟩ := hnear
    rw [insertionLineFor] at hline
    refine ⟨i, List.mem_filter.2 ⟨hi, by rw [decide_eq_true_eq]; omega⟩, ?_⟩
    rw [List.length_take]
    omega
  obtain ⟨i, hi, hblock⟩ :=
    exists_last_block ((landedIn_sorted style window text batch).filter _) hrange hnear
  exact ⟨i, (List.mem_filter.1 hi).1, hblock⟩

end Text

end Plan

namespace Settings

open Comment Plan

variable (settings : Settings) (payload : Payload) (path : Path)
  (language : Language) (text : String)

/-- A comment above the place of its block names the element. -/
def named (e : Element) : Bool :=
  namedAbove (.ofLanguage (some language)) settings.mutation.window
    (.inFrontOf (insertionLineFor e.line) (linesOf text)) e.name

variable {settings payload path language text}

theorem refusalOver?_blockFor {e : Element}
    (he : e ∈ (Outline.ofSource path language text).documentable) :
    refusalOver? (settingFor (.ofLanguage (some language)) settings.mutation.window text)
      (linesOf text) []
        (settings.blockFor payload path language e) =
      if settings.named language text e then some .alreadyDocumented else none := by
  have hle := (Outline.wellFormed_of_mem_documentable he).line_le
  rw [← length_linesOf] at hle
  have hcount := length_le_countLines_succ (linesOf text)
  have hrange : ¬ (insertionLineFor e.line = 0 ∨
      countLines (linesOf text) + 1 < insertionLineFor e.line) := by
    unfold insertionLineFor
    omega
  rw [refusalOver?, if_neg (by exact hrange), if_neg (by simp)]
  rfl

theorem documented_eq_self_iff :
    settings.documented payload path language text = text ↔
      ∀ e ∈ (Outline.ofSource path language text).documentable,
        Synthesis.covers settings.synthesis e.kind = true →
        Gap.announced (.ofLanguage (some language)) settings.analysisWindow text e.line = true ∨
          settings.named language text e = true := by
  rw [documented, planFor, content_eq_iff, landedIn, landing_eq_nil_iff]
  constructor
  · intro h e he hcovers
    cases hopen : Gap.announced
      (.ofLanguage (some language)) settings.analysisWindow text e.line with
    | true => exact .inl rfl
    | false =>
      have hmem : settings.blockFor payload path language e ∈
          settings.batchFor payload path language text := by
        rw [batchFor_eq]
        exact List.mem_map_of_mem (List.mem_filter.2 ⟨he, by simp [wants, hopen, hcovers]⟩)
      have hrefused := h _ ((ordered_perm _).symm.subset hmem)
      rw [refusalOver?_blockFor he] at hrefused
      exact .inr (by simpa using hrefused)
  · intro h i hi
    have hmem := (ordered_perm _).subset hi
    rw [batchFor_eq] at hmem
    obtain ⟨e, he, rfl⟩ := List.mem_map.1 hmem
    obtain ⟨he, hwants⟩ := List.mem_filter.1 he
    simp only [wants, Bool.and_eq_true, Bool.not_eq_true'] at hwants
    rcases h e he hwants.2 with hannounced | hnamed
    · rw [hwants.1] at hannounced
      cases hannounced
    · simp [refusalOver?_blockFor he, hnamed]

theorem exists_element_of_mem_applied {a : Applied}
    (ha : a ∈ (settings.planFor payload path language text).applied) :
    ∃ e, e.WellFormed (linesOf text).length ∧ a.target = e.target ∧
      a.lineCount =
        (blockLines (settingFor (.ofLanguage (some language)) settings.mutation.window text).returns
        (settings.blockFor payload path language e).content).length ∧
      settings.blockFor payload path language e ∈
        landedIn (.ofLanguage (some language)) settings.mutation.window text
          (settings.batchFor payload path language text) := by
  have hmem := List.mem_map_of_mem (f := Applied.landed) ha
  rw [planFor, map_landed_applied] at hmem
  obtain ⟨i, hi, hia⟩ := List.mem_map.1 hmem
  obtain ⟨e, he, rfl⟩ := exists_element_of_mem_landedIn hi
  simp only [Landed.of, Applied.landed, Landed.mk.injEq] at hia
  exact ⟨e, he, hia.1.symm, hia.2.2.symm, hi⟩

theorem announced_movedLine_of_fits
    (hfits : ∀ a ∈ (settings.planFor payload path language text).applied, a.lineCount ≤
      settings.analysisWindow)
    {a : Applied} (ha : a ∈ (settings.planFor payload path language text).applied) :
    Gap.announced (.ofLanguage (some language)) settings.analysisWindow
      (settings.documented payload path language text)
      (movedLine (settings.planFor payload path language text).applied a.target.line) = true := by
  obtain ⟨e, he, htarget, -, hi⟩ := exists_element_of_mem_applied ha
  -- the block next above the element may be that of another element for the same line; it will do
  obtain ⟨j, hj, front, rest, habove, hrest⟩ :=
    exists_block_above_movedLine _ _ _ _ he.line_pos he.line_le ⟨_, hi, rfl⟩
  obtain ⟨b, hb, hlength⟩ := exists_applied_of_mem_landedIn hj
  have hfit := hfits b hb
  obtain ⟨d, hd, rfl⟩ := exists_element_of_mem_landedIn hj
  obtain ⟨first, tail, hblock, ⟨technical, ht, htechnical⟩, simple, hs, hsimple⟩ :=
    exists_tail_blockFor settings payload path language hd
      (settingFor (.ofLanguage (some language)) settings.mutation.window text).returns
  rw [hblock, List.length_cons] at hlength
  rw [hblock, List.cons_append] at habove
  obtain ⟨front, hlines⟩ := exists_take_splitLines_content _ _ _ _ habove
  rw [htarget]
  refine Gap.announced_of_tail hlines ?_ ⟨technical, List.mem_append_left _ ht, htechnical⟩
    ⟨simple, List.mem_append_left _ hs, hsimple⟩
  rw [List.length_append]
  omega

theorem announced_movedLine (hwindow : 8 ≤ settings.analysisWindow) {a : Applied}
    (ha : a ∈ (settings.planFor .empty path language text).applied) :
    Gap.announced (.ofLanguage (some language)) settings.analysisWindow
      (settings.documented .empty path language text)
      (movedLine (settings.planFor .empty path language text).applied a.target.line) = true := by
  refine announced_movedLine_of_fits (fun b hb => ?_) ha
  obtain ⟨d, hd, -, hcount, -⟩ := exists_element_of_mem_applied hb
  rw [hcount]
  exact Nat.le_trans (length_blockFor_le settings path language hd _) hwindow

end Settings

end DocGap
