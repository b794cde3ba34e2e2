import DocGap.Proofs.NamedBlocks
import DocGap.Proofs.Recognised
import DocGap.Proofs.Refusals

/-!
# Planning the same blocks again

The blocks for one line form a stack of comment lines right above the place to which the line moves.
A scan that reaches the top of the stack finds every name in it, even if the window is a single
line, so that the same blocks are all left out when they are planned again for that place.
-/
namespace DocGap.Plan

open Comment

section Stack

variable {returns : Bool} {lines : List (List Char)} {landed : List Insertion}

theorem head?_weave {l : List Char} (h : (weave returns lines landed).head? = some l) :
    lines.head? = some l ∨ ∃ i ∈ landed, l ∈ blockLines returns i.content := by
  induction landed with
  | nil => exact .inl h
  | cons i landed ih =>
    change (splice _ _ (weave returns lines landed)).head? = some l at h
    rw [splice, List.append_assoc, List.head?_append] at h
    cases htop : ((weave returns lines landed).take (i.insertionLine - 1)).head? with
    | some first =>
      rw [htop] at h
      have hfirst : (weave returns lines landed).head? = some l := by
        rw [List.head?_take] at htop
        split at htop
        · cases htop
        · rw [htop]
          exact h
      rcases ih hfirst with hline | ⟨j, hj, hl⟩
      · exact .inl hline
      · exact .inr ⟨j, List.mem_cons_of_mem _ hj, hl⟩
    | none =>
      rw [htop, Option.none_or, List.head?_append_of_ne_nil _ (blockLines_ne_nil _ _)] at h
      exact .inr ⟨i, List.mem_cons_self, List.mem_of_head? h⟩

theorem length_le_countLines {above : List (List Char)} (h : above.getLast? ≠ some [])
    (below : List (List Char)) :
    above.length ≤ countLines (above ++ below) := by
  unfold countLines
  rw [List.length_append]
  cases below with
  | nil => simp [h]
  | cons first below =>
    rw [List.length_cons]
    split <;> omega

end Stack

section Mark

theorem splitMark_of_head? {cs : List Char} (h : cs.head? ≠ some byteOrderMark) :
    splitMark cs = ([], cs) := by
  cases cs with
  | nil => rfl
  | cons c cs => exact if_neg (by simpa using h)

theorem splitMark_mark_append {cs rest : List Char}
    (h : (splitMark cs).1 = [] → rest.head? ≠ some byteOrderMark) :
    splitMark ((splitMark cs).1 ++ rest) = ((splitMark cs).1, rest) := by
  by_cases hcs : cs.head? = some byteOrderMark
  · obtain ⟨tail, rfl⟩ := List.head?_eq_some_iff.1 hcs
    rfl
  · rw [splitMark_of_head? hcs] at h ⊢
    exact splitMark_of_head? (h rfl)

theorem not_isCommentLine_mark (style : Style) (cs : List Char) :
    isCommentLine style (byteOrderMark :: cs) = false := by
  cases style <;> rfl

end Mark

section Text

variable {style : Comment.Style} {window : Nat} {text : String} {batch : List Insertion}

/-- The lines of the result are those that were woven, since no block can be taken for a
byte order mark. -/
theorem linesOf_content (hbatch : ∀ i ∈ batch, Names style i) :
    linesOf (ofBatch style window text batch).content = wovenLines style window text batch := by
  have hhead : (splitMark text.toList).1 = [] →
      (Text.joinLines (wovenLines style window text batch)).head? ≠ some byteOrderMark := by
    intro hmark hjoined
    obtain ⟨rest, hrest⟩ := List.head?_eq_some_iff.1 hjoined
    obtain ⟨piece, more, hpieces⟩ := List.exists_cons_of_ne_nil (Text.splitLines_ne_nil rest)
    have hlines := splitLines_wovenLines style window text batch
    rw [hrest, Text.splitLines, Text.pieces_cons_of_ne (by decide) hpieces] at hlines
    have hfirst : (wovenLines style window text batch).head? = some (byteOrderMark :: piece) := by
      rw [← hlines]
      rfl
    rcases head?_weave hfirst with hold | ⟨i, hi, hl⟩
    · obtain ⟨tail, htail⟩ := (Text.pieces_isInfix (splitMark text.toList).2).1 _ hold
      have hcs := splitMark_append text.toList
      rw [hmark, List.nil_append, ← htail] at hcs
      rw [← hcs] at hmark
      cases hmark
    · have hcomment := (hbatch i (mem_of_mem_landedIn _ _ _ _ hi)).comment _ _ hl
      rw [not_isCommentLine_mark] at hcomment
      cases hcomment
  rw [linesOf, content_ofBatch, String.toList_ofList, splitMark_mark_append hhead]
  exact splitLines_wovenLines style window text batch

def stackAt (style : Comment.Style) (window : Nat) (text : String)
    (batch : List Insertion) (line : Nat) :
    List (List Char) :=
  ((landedIn style window text batch).filter (·.insertionLine = line)).flatMap fun i =>
    blockLines (settingFor style window text).returns i.content

theorem length_stackAt (line : Nat) :
    (stackAt style window text batch line).length =
      (((ofBatch style window text batch).applied.filter (·.insertionLine = line)).map
      (·.lineCount)).sum := by
  have hcounts : ((ofBatch style window text batch).applied.filter (·.insertionLine = line)).map
      (·.lineCount) =
      (((ofBatch style window text batch).applied.map Applied.landed).filter
      (·.insertionLine = line)).map
        (·.lineCount) := by
    rw [List.filter_map, List.map_map]
    rfl
  rw [hcounts, map_landed_applied, List.filter_map, List.map_map, stackAt, List.length_flatMap]
  rfl

theorem exists_stackAt {j : Insertion} (hj : j ∈ landedIn style window text batch) :
    ∃ front below, wovenLines style window text batch =
        front ++ stackAt style window text batch j.insertionLine ++ below ∧
      movedLine (ofBatch style window text batch).applied j.insertionLine =
        (front ++ stackAt style window text batch j.insertionLine).length + 1 := by
  have hpos := (mem_range_of_mem_landing hj).1
  have hle := landedIn_range style window text batch hj
  obtain ⟨above, below, hsplit, habove, hlength, -⟩ :=
    wovenLines_split style window text batch hpos hle
  have hbottom : ((linesOf text).take (j.insertionLine - 1)).length + 1 = j.insertionLine := by
    rw [List.length_take]
    omega
  obtain ⟨front, hstack⟩ : ∃ front,
    above = front ++ stackAt style window text batch j.insertionLine := by
    have hrange : ∀ i ∈ (landedIn style window text batch).filter
        (·.insertionLine ≤ j.insertionLine),
        i.insertionLine ≤ ((linesOf text).take (j.insertionLine - 1)).length + 1 := by
      intro i hi
      rw [hbottom]
      exact of_decide_eq_true (List.mem_filter.1 hi).2
    have hstack := weave_eq_append_bottom (settingFor style window text).returns
      ((landedIn_sorted style window text batch).filter _) hrange
    have hsame :
        ((landedIn style window text batch).filter (·.insertionLine ≤ j.insertionLine)).filter
        (·.insertionLine = j.insertionLine) =
          (landedIn style window text batch).filter (·.insertionLine = j.insertionLine) := by
      rw [List.filter_filter]
      refine List.filter_congr fun i _ => ?_
      grind
    rw [hbottom, hsame] at hstack
    exact ⟨_, habove.trans hstack⟩
  have hmoved := movedLine_applied style window text batch j.insertionLine
  rw [hstack] at hsplit hlength
  exact ⟨front, below, hsplit, by omega⟩

theorem refusalOver?_again (hbatch : ∀ i ∈ batch, Names style i)
    (hwindow : 1 ≤ window) {i j : Insertion}
    (hj : j ∈ landedIn style window text batch)
    (hfits : (stackAt style window text batch j.insertionLine).length ≤ window + scanLimit)
    (htarget : i.target = j.target)
    (hline : i.insertionLine =
      movedLine (ofBatch style window text batch).applied j.insertionLine) :
    refusalOver? (settingFor style window (ofBatch style window text batch).content)
      (linesOf (ofBatch style window text batch).content) [] i = some .alreadyDocumented := by
  obtain ⟨front, below, hwoven, hmoved⟩ := exists_stackAt hj
  have hcomment : ∀ l ∈ stackAt style window text batch j.insertionLine,
      isCommentLine style l = true := by
    intro l hl
    obtain ⟨k, hk, hl⟩ := List.mem_flatMap.1 hl
    exact (hbatch k (mem_of_mem_landedIn _ _ _ _ (List.mem_filter.1 hk).1)).comment _ l hl
  obtain ⟨l, hl, hname⟩ :=
    (hbatch j (mem_of_mem_landedIn _ _ _ _ hj)).name (settingFor style window text).returns
  have hmem : l ∈ stackAt style window text batch j.insertionLine :=
    List.mem_flatMap.2 ⟨j, List.mem_filter.2 ⟨hj, decide_eq_true rfl⟩, hl⟩
  have hlast : (front ++ stackAt style window text batch j.insertionLine).getLast? ≠ some [] := by
    rw [List.getLast?_append_of_ne_nil _ (List.ne_nil_of_mem hmem)]
    intro hnil
    have hempty := hcomment [] (List.mem_of_getLast? hnil)
    cases style <;> cases hempty
  have hcount := length_le_countLines hlast below
  rw [← hwoven, ← linesOf_content hbatch] at hcount
  have hrange : ¬ (i.insertionLine = 0 ∨
      countLines (linesOf (ofBatch style window text batch).content) + 1 <
        i.insertionLine) := by omega
  have habove : (linesOf (ofBatch style window text batch).content).take (i.insertionLine - 1) =
      front ++ stackAt style window text batch j.insertionLine := by
    rw [hline, hmoved, Nat.add_sub_cancel, linesOf_content hbatch, hwoven, List.take_left]
  have hnamed : namedAbove style window
      (.inFrontOf i.insertionLine (linesOf (ofBatch style window text batch).content))
      i.target.name = true :=
    namedAbove_of_stack habove hwindow hfits hcomment ⟨l, hmem, htarget ▸ hname⟩
  rw [refusalOver?, if_neg (by exact hrange), if_neg (by simp)]
  exact if_pos hnamed

end Text

/-- Blocks that went in are all left out when they are planned once more for the lines to which
theirs have moved, in any order and whatever they contain, if the scan reaches the top of the blocks
for each line. -/
theorem replanning_changes_nothing (path : Path) (language : Language)
    (text : String) {window : Nat}
    (hwindow : 1 ≤ window) {batch : List Insertion}
    (hbatch : ∀ i ∈ batch, ∃ options, ∃ e ∈ (Outline.ofSource path language text).everything,
      Synthesis.insertion? options (.ofSource path language text) e none = some i) :
    let plan := ofBatch (.ofLanguage (some language)) window text batch
    (∀ line, ((plan.applied.filter (·.insertionLine = line)).map (·.lineCount)).sum ≤
    window + scanLimit) →
    ∀ again : List Insertion,
      (again.map fun i => (i.target, i.insertionLine)).Perm
        (plan.applied.map fun a => (a.target, a.insertionLine +
          ((plan.applied.filter (·.insertionLine ≤ a.insertionLine)).map (·.lineCount)).sum)) →
      let second := ofBatch (.ofLanguage (some language)) window plan.content again
      second.content = plan.content ∧ second.applied = [] ∧
        second.skipped = again.map fun i => .of i .alreadyDocumented := by
  intro plan hfits again hagain
  have hnames : ∀ i ∈ batch, Names (.ofLanguage (some language)) i := by
    intro i hi
    obtain ⟨options, e, he, hi⟩ := hbatch i hi
    exact Synthesis.names_of_insertion? he hi
  have hrefused : ∀ i ∈ again,
      refusalOver? (settingFor (.ofLanguage (some language)) window plan.content)
      (linesOf plan.content) [] i = some .alreadyDocumented := by
    intro i hi
    obtain ⟨a, ha, hia⟩ := List.mem_map.1 (hagain.subset (List.mem_map_of_mem hi))
    obtain ⟨htarget, hline⟩ := Prod.mk.injEq _ _ _ _ ▸ hia
    have hmem := List.mem_map_of_mem (f := Applied.landed) ha
    rw [map_landed_applied] at hmem
    obtain ⟨j, hj, hja⟩ := List.mem_map.1 hmem
    simp only [Landed.of, Applied.landed, Landed.mk.injEq] at hja
    refine refusalOver?_again hnames hwindow hj ?_ (htarget.symm.trans hja.1.symm) ?_
    · rw [length_stackAt]
      exact hfits _
    · rw [movedLine_eq_add_sum, hja.2.1]
      exact hline.symm
  have hnone : landedIn (.ofLanguage (some language)) window plan.content again = [] := by
    refine landing_eq_nil_iff.2 fun i hi => ?_
    rw [hrefused i ((ordered_perm again).subset hi)]
    exact Option.some_ne_none _
  refine ⟨(content_eq_iff _ _ _ _).2 hnone, (applied_eq_nil_iff _ _ _ _).2 hnone, ?_⟩
  rw [skipped_of_landedIn_eq_nil hnone, ← List.filterMap_eq_map]
  refine List.filterMap_congr fun i hi => ?_
  rw [hrefused i hi]
  rfl

section Neighbours

open Settings (neighbours firstNeighbour secondNeighbour narrow documentable_neighbours)

def neighbourBlocks : List Insertion :=
  [firstNeighbour, secondNeighbour].map (narrow.blockFor .empty ⟨"a.py"⟩ .python)

theorem landedIn_neighbourBlocks (window : Nat) :
    landedIn .hash window neighbours neighbourBlocks = neighbourBlocks := by
  have hsorted : neighbourBlocks.Pairwise fun a b => a.insertionLine ≤ b.insertionLine := by decide
  rw [landedIn, ordered_of_pairwise hsorted, landing_first_line (by decide) (by decide)]

theorem length_neighbourBlock (returns : Bool) {e : Element}
    (he : e ∈ [firstNeighbour, secondNeighbour]) :
    (blockLines returns (narrow.blockFor .empty ⟨"a.py"⟩ .python e).content).length = 8 := by
  have hwell := Outline.wellFormed_of_mem_documentable (documentable_neighbours ▸ he)
  rw [Settings.blockLines_blockFor _ _ _ _ hwell, List.length_map]
  simp only [List.mem_cons, List.not_mem_nil, or_false] at he
  rcases he with rfl | rfl <;> decide +kernel

theorem applied_neighbourBlocks (window : Nat) :
    (ofBatch .hash window neighbours neighbourBlocks).applied =
      [⟨firstNeighbour.target, 1, 1, 8⟩, ⟨secondNeighbour.target, 1, 9, 8⟩] := by
  rw [applied_ofBatch, landedIn_neighbourBlocks, neighbourBlocks]
  simp only [List.map_cons, List.map_nil, Landed.of, length_neighbourBlock _ (List.mem_cons_self),
    length_neighbourBlock _ (List.mem_cons_of_mem _ List.mem_cons_self)]
  rfl

/-- A window of one line is enough for both functions, though the name of the first is
fourteen lines above. -/
theorem neighbours_replanned :
    let plan := ofBatch .hash 1 neighbours neighbourBlocks
    let again : List Insertion :=
      [⟨secondNeighbour.target, 17, "x"⟩, ⟨firstNeighbour.target, 17, ""⟩]
    plan.applied = [⟨firstNeighbour.target, 1, 1, 8⟩, ⟨secondNeighbour.target, 1, 9, 8⟩] ∧
      (∀ i ∈ neighbourBlocks, ∃ options,
        ∃ e ∈ (Outline.ofSource ⟨"a.py"⟩ .python neighbours).everything,
          Synthesis.insertion? options (.ofSource ⟨"a.py"⟩ .python neighbours) e none = some i) ∧
      (ofBatch .hash 1 plan.content again).content = plan.content ∧
      (ofBatch .hash 1 plan.content again).skipped =
        [⟨secondNeighbour.target, 17, .alreadyDocumented⟩,
        ⟨firstNeighbour.target, 17, .alreadyDocumented⟩] := by
  intro plan again
  have happlied : plan.applied = _ := applied_neighbourBlocks 1
  have hbatch : ∀ i ∈ neighbourBlocks, ∃ options,
      ∃ e ∈ (Outline.ofSource ⟨"a.py"⟩ .python neighbours).everything,
        Synthesis.insertion? options (.ofSource ⟨"a.py"⟩ .python neighbours) e none = some i := by
    intro i hi
    obtain ⟨e, he, rfl⟩ := List.mem_map.1 hi
    have hcovers : Synthesis.covers ⟨false, .english⟩ e.kind = true := by
      simp only [List.mem_cons, List.not_mem_nil, or_false] at he
      rcases he with rfl | rfl <;> rfl
    rw [← documentable_neighbours] at he
    refine ⟨⟨false, .english⟩, e, List.mem_append_left _ (List.mem_append_left _ he), ?_⟩
    rw [Synthesis.insertion?, if_pos hcovers, (Outline.text_ofSource _ _ _).2.1]
    rfl
  have hfits : ∀ line, ((plan.applied.filter (·.insertionLine = line)).map (·.lineCount)).sum ≤
      1 + scanLimit := by
    intro line
    rw [happlied]
    by_cases hline : 1 = line <;> simp [hline, scanLimit]
  have hagain : (again.map fun i => (i.target, i.insertionLine)).Perm
      (plan.applied.map fun a => (a.target, a.insertionLine +
        ((plan.applied.filter (·.insertionLine ≤ a.insertionLine)).map (·.lineCount)).sum)) := by
    rw [happlied]
    decide
  obtain ⟨hcontent, -, hskipped⟩ :=
    replanning_changes_nothing ⟨"a.py"⟩ .python neighbours (Nat.le_refl 1) hbatch hfits again hagain
  exact ⟨happlied, hbatch, hcontent, hskipped⟩

end Neighbours

end DocGap.Plan
