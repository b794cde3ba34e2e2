import DocGap.Proofs.NoBinary
import DocGap.Proofs.OneLine
import DocGap.Proofs.Replanning

/-!
# The second run

Every element of the documented text stands on a line that the text had before, since blocks declare
nothing. If the elements are those of the text, on the lines to which they have moved, then the
second run is idle exactly if the elements that were left without a block are still announced or
named there. They are if no block went in within reach of the search for markers, or of the guard. A
block that went in there can push a comment out of reach.
-/
namespace DocGap

namespace Plan

section Moved

variable {returns : Bool} {lines : List (List Char)} {landed : List Insertion}

theorem Settled.exists_line_of_merge (h : Settled lines landed) {k : Nat} {l : List Char}
    (hk : (merge returns lines landed)[k]? = some (none, l)) :
    ∃ n, 1 ≤ n ∧ n ≤ lines.length ∧ k + 1 = ((landed.filter (·.insertionLine ≤ n)).flatMap fun i =>
      blockLines returns i.content).length + n := by
  induction landed generalizing k with
  | nil =>
    rw [merge_nil, List.getElem?_map] at hk
    obtain ⟨line, hline, -⟩ := Option.map_eq_some_iff.1 hk
    exact ⟨k + 1, by omega, (List.getElem?_eq_some_iff.1 hline).1, by simp⟩
  | cons i landed ih =>
    have hnone : ∀ {n}, n < i.insertionLine → landed.filter (·.insertionLine ≤ n) = [] := by
      refine fun hn => List.filter_eq_nil_iff.2 fun j hj => ?_
      have hle := h.le j hj
      simp only [decide_eq_true_eq]
      omega
    rw [h.getElem?_merge_cons] at hk
    split at hk
    · next hlt =>
      obtain ⟨line, hline, -⟩ := Option.map_eq_some_iff.1 hk
      have hi : k + 1 < i.insertionLine := by omega
      refine ⟨k + 1, by omega, (List.getElem?_eq_some_iff.1 hline).1, ?_⟩
      rw [List.filter_cons_of_neg (by simpa using hi), hnone hi]
      simp
    · split at hk
      · obtain ⟨line, -, hline⟩ := Option.map_eq_some_iff.1 hk
        cases hline
      · obtain ⟨n, hpos, hle, hn⟩ := ih h.tail hk
        have hi : i.insertionLine ≤ n := by
          by_contra hlt
          rw [hnone (by omega)] at hn
          simp at hn
          omega
        refine ⟨n, hpos, hle, ?_⟩
        rw [List.filter_cons_of_pos (by simpa using hi), List.flatMap_cons, List.length_append]
        omega

theorem reverse_take_weave {reach : Nat}
    (h : ∀ i ∈ landed, i.insertionLine + reach ≤ lines.length + 1)
    (hreach : reach ≤ lines.length) :
    (weave returns lines landed).reverse.take reach = lines.reverse.take reach := by
  have hend : (lines.drop (lines.length - reach)).length = reach := by
    rw [List.length_drop]
    omega
  have hwoven : weave returns lines landed =
      weave returns (lines.take (lines.length - reach)) landed ++
        lines.drop (lines.length - reach) := by
    rw [← weave_lines_append, List.take_append_drop]
    intro i hi
    have hi := h i hi
    rw [List.length_take]
    omega
  rw [hwoven, List.reverse_append, List.take_left' (by rw [List.length_reverse, hend]),
    List.take_reverse]

end Moved

/-- No block goes in among the `above` lines above line `line`, in front of that line, or in front
of the `below` lines behind it. -/
def OutOfReach (applied : List Applied) (line above below : Nat) : Prop :=
  ∀ a ∈ applied, a.insertionLine + above ≤ line ∨ line + below < a.insertionLine

section Text

variable {style : Comment.Style} {window : Nat} {text : String} {batch : List Insertion}

theorem exists_movedLine_of_covers {n : Nat} (hn : n < (wovenLines style window text batch).length)
    (hcovers : ∀ a ∈ (ofBatch style window text batch).applied, a.covers (n + 1) = false) :
    ∃ line, 1 ≤ line ∧ line ≤ (linesOf text).length ∧
      n + 1 = movedLine (ofBatch style window text batch).applied line := by
  have hsettled := settled_landedIn style window text batch
  have hmerged := any_covers_iff (locates_landedIn style window text batch) n
  rw [wovenLines, ← hsettled.map_snd_merge, List.length_map] at hn
  obtain ⟨⟨origin, l⟩, hl⟩ : ∃ x, (merge (settingFor style window text).returns (linesOf text)
      (landedIn style window text batch))[n]? = some x := ⟨_, List.getElem?_eq_getElem hn⟩
  rcases mem_merge (List.mem_of_getElem? hl) with rfl | ⟨i, hi, rfl, -⟩
  · obtain ⟨line, hpos, hle, hline⟩ := hsettled.exists_line_of_merge hl
    exact ⟨line, hpos, hle, hline.trans (movedLine_applied style window text batch line).symm⟩
  · obtain ⟨a, ha, hcovered⟩ := List.any_eq_true.1 (hmerged.2 ⟨i, hi, l, hl⟩)
    rw [hcovers a ha] at hcovered
    cases hcovered

theorem OutOfReach.landed {n above below : Nat}
    (h : OutOfReach (ofBatch style window text batch).applied n above below) :
    ∀ i ∈ landedIn style window text batch, i.insertionLine + above ≤ n ∨
      n + below < i.insertionLine := by
  intro i hi
  have hmem := List.mem_map_of_mem (f := Landed.of (settingFor style window text).returns) hi
  rw [← map_landed_applied] at hmem
  obtain ⟨a, ha, heq⟩ := List.mem_map.1 hmem
  have hline : a.insertionLine = i.insertionLine := congrArg (·.insertionLine) heq
  rw [← hline]
  exact h a ha

/-- Around a line that no block reaches the lines are what they were. -/
theorem OutOfReach.exists_split {n above below : Nat}
    (h : OutOfReach (ofBatch style window text batch).applied n above below) (hpos : 1 ≤ n)
    (hle : n ≤ (linesOf text).length + 1) :
    ∃ front tail, wovenLines style window text batch = front ++ tail ∧
      front.length = movedLine (ofBatch style window text batch).applied n - 1 ∧
      front.reverse.take above = ((linesOf text).take (n - 1)).reverse.take above ∧
      tail.take (below + 1) = ((linesOf text).drop (n - 1)).take (below + 1) := by
  obtain ⟨front, tail, hsplit, hfront, hlength, htail⟩ :=
    wovenLines_split style window text batch hpos hle
  refine ⟨front, tail, hsplit, hlength, ?_, ?_⟩
  · have hnear : ∀ i ∈ (landedIn style window text batch).filter (·.insertionLine ≤ n),
        1 ≤ i.insertionLine ∧ i.insertionLine + above ≤ n := by
      intro i hi
      obtain ⟨hi, hline⟩ := List.mem_filter.1 hi
      have hline : i.insertionLine ≤ n := by simpa using hline
      have hreach := h.landed i hi
      exact ⟨(settled_landedIn style window text batch).pos i hi, by omega⟩
    have hcount : ((linesOf text).take (n - 1)).length = n - 1 := by
      rw [List.length_take]
      omega
    by_cases hfar : above < n
    · rw [hfront]
      refine reverse_take_weave (fun i hi => ?_) (by omega)
      have hi := hnear i hi
      omega
    · have hnil : (landedIn style window text batch).filter (·.insertionLine ≤ n) = [] := by
        refine List.eq_nil_iff_forall_not_mem.2 fun i hi => ?_
        have hi := hnear i hi
        omega
      rw [hfront, hnil]
      rfl
  · have hbelow := htail (n + below) fun i hi hlt => by
      have hreach := h.landed i hi
      omega
    rw [List.drop_take, show n + below - (n - 1) = below + 1 by omega] at hbelow
    exact hbelow

theorem OutOfReach.movedLine_succ {applied : List Applied} {n above below : Nat}
    (h : OutOfReach applied n above below)
    (hbelow : 0 < below) : movedLine applied (n + 1) = movedLine applied n + 1 := by
  have hsame : applied.filter (·.insertionLine ≤ n + 1) = applied.filter (·.insertionLine ≤ n) := by
    refine List.filter_congr fun a ha => ?_
    have ha := h a ha
    simp only [decide_eq_decide]
    omega
  rw [movedLine_eq_add_sum, movedLine_eq_add_sum, hsame]
  omega

theorem OutOfReach.insertionLineFor_movedLine {applied : List Applied} {line above below : Nat}
    (h : OutOfReach applied (insertionLineFor line) above below) (hpos : 1 ≤ line)
    (happlied : ∀ a ∈ applied, 1 ≤ a.insertionLine) (habove : 0 < above) (hbelow : 0 < below) :
    insertionLineFor (movedLine applied line) = movedLine applied (insertionLineFor line) := by
  by_cases hone : line = 1
  · have hnone : applied.filter (·.insertionLine ≤ 1) = [] := by
      refine List.filter_eq_nil_iff.2 fun a ha => ?_
      have hreach := h a ha
      have ha := happlied a ha
      rw [hone, insertionLineFor] at hreach
      simp only [decide_eq_true_eq]
      omega
    rw [hone, show insertionLineFor 1 = 1 from rfl, movedLine_eq_add_sum, hnone]
    rfl
  · have hline : line = insertionLineFor line + 1 := by
      rw [insertionLineFor]
      omega
    have hpos : 1 ≤ insertionLineFor line := Nat.le_max_right _ _
    have hmoved := movedLine_eq_add_sum applied (insertionLineFor line)
    have hnext := h.movedLine_succ hbelow
    rw [← hline] at hnext
    rw [hnext, insertionLineFor, Nat.add_sub_cancel, Nat.max_eq_left (by omega)]

theorem namedAbove_congr {p q : Page} (name : String)
    (habove : p.above.take (window + scanLimit) = q.above.take (window + scanLimit))
    (hbelow : p.below.take scanLimit = q.below.take scanLimit) :
    namedAbove style window p name = namedAbove style window q name := by
  simp only [namedAbove, habove, hbelow]

end Text

section Mark

variable {mark : List Char} {lines others : List (List Char)} {count : Nat}

/-- The lines with a byte order mark, which belongs to the first one. -/
def marking (mark : List Char) : List (List Char) → List (List Char)
  | [] => []
  | first :: rest => (mark ++ first) :: rest

theorem marking_nil (lines : List (List Char)) : marking [] lines = lines := by
  cases lines <;> rfl

theorem take_marking (mark : List Char) (lines : List (List Char)) (n : Nat) :
    (marking mark lines).take n = marking mark (lines.take n) := by
  cases lines with
  | nil => simp [marking]
  | cons first rest => cases n <;> rfl

theorem length_marking (mark : List Char) (lines : List (List Char)) :
    (marking mark lines).length = lines.length := by
  cases lines <;> rfl

theorem reverse_take_marking_of_lt (h : count < lines.length) :
    (marking mark lines).reverse.take count = lines.reverse.take count := by
  cases lines with
  | nil => cases h
  | cons first rest =>
    have hrest : count ≤ rest.reverse.length := by
      rw [List.length_cons] at h
      rw [List.length_reverse]
      omega
    rw [marking, List.reverse_cons, List.reverse_cons, List.take_append_of_le_length hrest,
      List.take_append_of_le_length hrest]

theorem reverse_take_marking
    (h : lines.reverse.take (count + 1) = others.reverse.take (count + 1)) :
    (marking mark lines).reverse.take count = (marking mark others).reverse.take count := by
  have hlength := congrArg List.length h
  simp only [List.length_take, List.length_reverse] at hlength
  by_cases hshort : lines.length ≤ count
  · rw [List.take_of_length_le (by simp; omega), List.take_of_length_le (by simp; omega)] at h
    rw [List.reverse_injective h]
  · rw [reverse_take_marking_of_lt (by omega), reverse_take_marking_of_lt (by omega)]
    have htake := congrArg (List.take count) h
    rwa [List.take_take, List.take_take, Nat.min_eq_left (Nat.le_succ count)] at htake

theorem splitLines_eq_marking (text : String) :
    Text.splitLines text.toList = marking (splitMark text.toList).1 (linesOf text) := by
  obtain ⟨first, rest, hlines, hmarked⟩ := exists_linesOf text
  rw [hlines, hmarked, marking]

theorem splitLines_content_eq_marking (style : Comment.Style) (window : Nat) (text : String)
    (batch : List Insertion) :
    Text.splitLines (ofBatch style window text batch).content.toList =
      marking (splitMark text.toList).1 (wovenLines style window text batch) := by
  obtain ⟨first, rest, hwoven, hlines⟩ := exists_wovenLines style window text batch
  rw [hwoven, hlines, marking]

end Mark

theorem Page.below_inFrontOf (line : Nat) (lines : List (List Char)) :
    (inFrontOf line lines).below = lines.drop (line - 1) := by
  have hlines : (inFrontOf line lines).lines = lines := by simp [inFrontOf]
  rw [Page.lines, above_inFrontOf, List.reverse_reverse] at hlines
  refine List.append_cancel_left (hlines.trans (List.take_append_drop (line - 1) lines).symm)

end Plan

namespace Gap

theorem linesAbove_toArray {α : Type} (window line : Nat) (lines : List α) :
    linesAbove window line lines.toArray =
      ((lines.take (line - 1)).reverse.take window).reverse := by
  rw [List.take_reverse, List.reverse_reverse, List.length_take]
  simp only [linesAbove, Array.toList_extract, List.size_toArray, List.extract_eq_take_drop]
  rw [← List.drop_take, ← List.take_eq_take_min]

theorem announced_congr {style : Comment.Style} {window line line' : Nat} {text text' : String}
    (h : ((Text.splitLines text.toList).take (line - 1)).reverse.take window =
      ((Text.splitLines text'.toList).take (line' - 1)).reverse.take window) :
    announced style window text line = announced style window text' line' := by
  simp only [announced, presence, commentsAbove, linesAbove_toArray, h]

end Gap

namespace Settings

open Comment Plan

variable {settings : Settings} {path : Path} {language : Language} {text : String}

theorem exists_insertion?_of_mem_batchFor {i : Insertion}
    (h : i ∈ settings.batchFor .empty path language text) :
    ∃ e ∈ (Outline.ofSource path language text).everything,
      Synthesis.insertion? settings.synthesis (.ofSource path language text) e none = some i := by
  rw [batchFor_eq] at h
  obtain ⟨e, he, rfl⟩ := List.mem_map.1 h
  obtain ⟨he, hwants⟩ := List.mem_filter.1 he
  refine ⟨e, ?_, ?_⟩
  · rw [Outline.everything, List.append_assoc]
    exact List.mem_append_left _ he
  · rw [Synthesis.insertion?,
      if_pos (by simp only [wants, Bool.and_eq_true] at hwants; exact hwants.2),
      (Outline.text_ofSource path language text).2.1]
    rfl

theorem linesOf_documented :
    linesOf (settings.documented .empty path language text) =
      wovenLines (.ofLanguage (some language)) settings.mutation.window text
        (settings.batchFor .empty path language text) := by
  refine linesOf_content fun i hi => ?_
  obtain ⟨e, he, hinsertion⟩ := exists_insertion?_of_mem_batchFor hi
  exact Synthesis.names_of_insertion? he hinsertion

theorem exists_movedLine_of_mem_everything {e : Element}
    (he : e ∈
      (Outline.ofSource path language (settings.documented .empty path language text)).everything) :
    ∃ line, 1 ≤ line ∧ line ≤ (linesOf text).length ∧
      e.line = movedLine (settings.planFor .empty path language text).applied line := by
  have hwrites : ∀ i ∈ settings.batchFor .empty path language text,
      Synthesis.Writes language i.content := by
    intro i hi
    obtain ⟨d, hd, hinsertion⟩ := exists_insertion?_of_mem_batchFor hi
    exact ⟨_, _, _, d, none, hd, by rw [hinsertion]; rfl⟩
  obtain ⟨f, hf, rfl⟩ := Outline.exists_finding_of_mem_everything he
  obtain ⟨before, line, honLine, -⟩ := Extraction.onLine_of_mem_findings hf
  have hlt := (List.getElem?_eq_some_iff.1 honLine.getElem?_eq).1
  rw [documented, planFor, splitLines_content_eq_marking, length_marking] at hlt
  rw [honLine.number]
  refine exists_movedLine_of_covers hlt fun a ha => ?_
  rw [← honLine.number]
  exact covers_eq_false_of_mem_everything hwrites he ha

theorem announced_of_outOfReach {line : Nat} (hpos : 1 ≤ line) (hle : line ≤ (linesOf text).length)
    (h : OutOfReach (settings.planFor .empty path language text).applied line
      (settings.analysisWindow + 1) 0) :
    Gap.announced (.ofLanguage (some language)) settings.analysisWindow
        (settings.documented .empty path language text)
        (movedLine (settings.planFor .empty path language text).applied line) =
      Gap.announced (.ofLanguage (some language)) settings.analysisWindow text line := by
  obtain ⟨front, tail, hwoven, hlength, habove, -⟩ := h.exists_split hpos (Nat.le_succ_of_le hle)
  apply Gap.announced_congr
  rw [documented, planFor, splitLines_content_eq_marking, splitLines_eq_marking, take_marking,
    take_marking, hwoven, ← hlength, List.take_left]
  exact reverse_take_marking habove

theorem named_of_outOfReach {e : Element} (hpos : 1 ≤ e.line) (hle : e.line ≤ (linesOf text).length)
    (h : OutOfReach (settings.planFor .empty path language text).applied (insertionLineFor e.line)
      (settings.mutation.window + scanLimit) scanLimit) :
    settings.named language (settings.documented .empty path language text)
        { e with line := movedLine (settings.planFor .empty path language text).applied e.line } =
      settings.named language text e := by
  have hline : 1 ≤ insertionLineFor e.line ∧
      insertionLineFor e.line ≤ (linesOf text).length + 1 := by
    rw [insertionLineFor]
    omega
  have happlied : ∀ a ∈ (settings.planFor .empty path language text).applied, 1 ≤ a.insertionLine :=
    (forall_insertionLine_applied _ _ _ _ (1 ≤ ·)).2 (settled_landedIn _ _ _ _).pos
  have hscan : 0 < scanLimit := by decide
  obtain ⟨front, tail, hwoven, hlength, habove, hbelow⟩ := h.exists_split hline.1 hline.2
  rw [← planFor] at hlength
  rw [named, named, linesOf_documented]
  dsimp only
  rw [h.insertionLineFor_movedLine hpos happlied (by omega) hscan]
  apply namedAbove_congr
  · rw [Page.above_inFrontOf, Page.above_inFrontOf, hwoven, ← hlength, List.take_left]
    exact habove
  · rw [Page.below_inFrontOf, Page.below_inFrontOf, hwoven, ← hlength, List.drop_left]
    have htake := congrArg (List.take scanLimit) hbelow
    rwa [List.take_take, List.take_take, Nat.min_eq_left (Nat.le_succ scanLimit)] at htake

variable (settings path language text)

def moved (e : Element) : Element :=
  { e with line := movedLine (settings.planFor .empty path language text).applied e.line }

/-- The functions and classes of the documented text are those of the text, on the lines to
which they move. -/
def Carried : Prop :=
  ∀ target : Target,
    (∃ e ∈ (Outline.ofSource path language
        (settings.documented .empty path language text)).documentable, e.target = target) ↔
    ∃ e ∈ (Outline.ofSource path language text).documentable,
      (settings.moved path language text e).target = target

variable {settings path language text}

theorem splitLines_eq_linesOf (hmark : text.toList.head? ≠ some byteOrderMark) :
    Text.splitLines text.toList = linesOf text := by
  rw [splitLines_eq_marking, splitMark_of_head? hmark, marking_nil]

theorem splitLines_documented (hmark : text.toList.head? ≠ some byteOrderMark) :
    Text.splitLines (settings.documented .empty path language text).toList =
      wovenLines (.ofLanguage (some language)) settings.mutation.window text
        (settings.batchFor .empty path language text) := by
  rw [documented, planFor, splitLines_content_eq_marking, splitMark_of_head? hmark, marking_nil]

theorem mem_zipIdx_movedLine_iff (hmark : text.toList.head? ≠ some byteOrderMark)
    {line : List Char} {n : Nat} (hpos : 1 ≤ n) (hle : n ≤ (linesOf text).length) :
    (line, movedLine (settings.planFor .empty path language text).applied n) ∈
        (Text.splitLines (settings.documented .empty path language text).toList).zipIdx 1 ↔
      (line, n) ∈ (Text.splitLines text.toList).zipIdx 1 := by
  have hmoved := movedLine_eq_add_sum (settings.planFor .empty path language text).applied n
  have hget := getElem?_wovenLines_movedLine (.ofLanguage (some language))
    settings.mutation.window text (settings.batchFor .empty path language text) hpos hle
  rw [← planFor] at hget
  rw [List.mk_mem_zipIdx_iff_le_and_getElem?_sub, List.mk_mem_zipIdx_iff_le_and_getElem?_sub,
    splitLines_documented hmark, splitLines_eq_linesOf hmark, hget]
  exact and_congr_left fun _ => iff_of_true (by omega) hpos

theorem carried_of_declaresByLine (hlanguage : language.declaresByLine = true)
    (hmark : text.toList.head? ≠ some byteOrderMark) (hnull : '\x00' ∉ text.toList) :
    Carried settings path language text := by
  have hbinary := looksBinary_of_null_not_mem hnull
  have honce : Extraction.looksBinary
      (settings.documented .empty path language text).toList = false :=
    looksBinary_of_null_not_mem (null_not_mem_documented hnull)
  -- a line is the same before and after, and a line decides alone what it declares
  intro target
  constructor
  · rintro ⟨e, he, rfl⟩
    obtain ⟨n, hpos, hle, hn⟩ :=
      exists_movedLine_of_mem_everything (List.mem_append_left _ (List.mem_append_left _ he))
    obtain ⟨hkind, line, hline, hdeclares⟩ :=
      (Outline.exists_documentable_iff_declares hlanguage honce e.target).1 ⟨e, he, rfl⟩
    rw [Element.target, hn, mem_zipIdx_movedLine_iff hmark hpos hle] at hline
    obtain ⟨d, hd, htarget⟩ :=
      (Outline.exists_documentable_iff_declares hlanguage hbinary ⟨e.name, e.kind, n⟩).2
        ⟨hkind, line, hline, hdeclares⟩
    refine ⟨d, hd, ?_⟩
    simp only [Element.target, Target.mk.injEq] at htarget
    simp [moved, Element.target, htarget, hn]
  · rintro ⟨e, he, rfl⟩
    have hwell := Outline.wellFormed_of_mem_documentable he
    have hle := hwell.line_le
    rw [splitLines_eq_linesOf hmark] at hle
    obtain ⟨hkind, line, hline, hdeclares⟩ :=
      (Outline.exists_documentable_iff_declares hlanguage hbinary e.target).1 ⟨e, he, rfl⟩
    exact (Outline.exists_documentable_iff_declares hlanguage honce _).2
      ⟨hkind, line, (mem_zipIdx_movedLine_iff hmark hwell.line_pos hle).2 hline, hdeclares⟩

theorem documented_eq_self_iff_of_carried (hwindow : 8 ≤ settings.analysisWindow)
    (hcarried : Carried settings path language text) :
    settings.documented .empty path language (settings.documented .empty path language text) =
        settings.documented .empty path language text ↔
      ∀ e ∈ (Outline.ofSource path language text).documentable,
        Synthesis.covers settings.synthesis e.kind = true →
        (∀ a ∈ (settings.planFor .empty path language text).applied, a.target ≠ e.target) →
        Gap.announced (.ofLanguage (some language)) settings.analysisWindow
            (settings.documented .empty path language text)
            (settings.moved path language text e).line = true ∨
          settings.named language (settings.documented .empty path language text)
            (settings.moved path language text e) = true := by
  rw [documented_eq_self_iff]
  constructor
  · intro h e he hcovers _
    obtain ⟨d, hd, htarget⟩ :=
      (hcarried (settings.moved path language text e).target).2 ⟨e, he, rfl⟩
    simp only [Element.target, Target.mk.injEq] at htarget
    obtain ⟨hname, hkind, hline⟩ := htarget
    have hfound := h d hd (hkind ▸ hcovers)
    rwa [named, hname, hline] at hfound
  · intro h d hd hcovers
    obtain ⟨e, he, htarget⟩ := (hcarried d.target).1 ⟨d, hd, rfl⟩
    simp only [Element.target, Target.mk.injEq] at htarget
    obtain ⟨hname, hkind, hline⟩ := htarget
    rw [named, ← hname, ← hline]
    by_cases hblock : ∃ a ∈ (settings.planFor .empty path language text).applied,
        a.target = e.target
    · obtain ⟨a, ha, hsame⟩ := hblock
      have hannounced := announced_movedLine hwindow ha
      rw [hsame] at hannounced
      exact .inl hannounced
    · exact h e he (hkind ▸ hcovers) fun a ha hsame => hblock ⟨a, ha, hsame⟩

variable (settings path language text)

/-- A second run is idle exactly if it finds every function and class announced or named. It finds
those announced that got a block. The others may have been pushed away from the comment that stood
for them, but only by a block that went in within reach. -/
theorem documented_documented :
    (settings.documented .empty path language (settings.documented .empty path language text) =
        settings.documented .empty path language text ↔
      ∀ e ∈ (Outline.ofSource path language
          (settings.documented .empty path language text)).documentable,
        Synthesis.covers settings.synthesis e.kind = true →
        Gap.announced (.ofLanguage (some language)) settings.analysisWindow
            (settings.documented .empty path language text) e.line = true ∨
          settings.named language (settings.documented .empty path language text) e = true) ∧
    (8 ≤ settings.analysisWindow → ∀ a ∈ (settings.planFor .empty path language text).applied,
      Gap.announced (.ofLanguage (some language)) settings.analysisWindow
        (settings.documented .empty path language text)
        (movedLine (settings.planFor .empty path language text).applied a.target.line) = true) ∧
    (∀ e ∈ (Outline.ofSource path language
        (settings.documented .empty path language text)).everything,
      ∃ line, 1 ≤ line ∧ line ≤ (linesOf text).length ∧
        e.line = movedLine (settings.planFor .empty path language text).applied line) ∧
    (language.declaresByLine = true → text.toList.head? ≠ some byteOrderMark →
      '\x00' ∉ text.toList → Carried settings path language text) ∧
    (8 ≤ settings.analysisWindow → Carried settings path language text →
      (settings.documented .empty path language (settings.documented .empty path language text) =
          settings.documented .empty path language text ↔
        ∀ e ∈ (Outline.ofSource path language text).documentable,
          Synthesis.covers settings.synthesis e.kind = true →
          (∀ a ∈ (settings.planFor .empty path language text).applied, a.target ≠ e.target) →
          Gap.announced (.ofLanguage (some language)) settings.analysisWindow
              (settings.documented .empty path language text)
              (settings.moved path language text e).line = true ∨
            settings.named language (settings.documented .empty path language text)
              (settings.moved path language text e) = true)) ∧
    ∀ e ∈ (Outline.ofSource path language text).documentable,
      (OutOfReach (settings.planFor .empty path language text).applied e.line
          (settings.analysisWindow + 1) 0 →
        Gap.announced (.ofLanguage (some language)) settings.analysisWindow
            (settings.documented .empty path language text)
            (settings.moved path language text e).line =
          Gap.announced (.ofLanguage (some language)) settings.analysisWindow text e.line) ∧
      (OutOfReach (settings.planFor .empty path language text).applied (insertionLineFor e.line)
          (settings.mutation.window + scanLimit) scanLimit →
        settings.named language (settings.documented .empty path language text)
            (settings.moved path language text e) =
          settings.named language text e) := by
  refine ⟨documented_eq_self_iff, fun hwindow _ ha => announced_movedLine hwindow ha,
    fun _ he => exists_movedLine_of_mem_everything he, carried_of_declaresByLine,
    documented_eq_self_iff_of_carried, fun e he => ?_⟩
  have hwell := Outline.wellFormed_of_mem_documentable he
  have hle := hwell.line_le
  rw [← length_linesOf] at hle
  exact ⟨announced_of_outOfReach hwell.line_pos hle, named_of_outOfReach hwell.line_pos hle⟩

section Again

/-- The comment in the first line names the second function, and reaches it with a
window of ten lines. -/
def guarded : String := "/* zq */\nx\nx\nfn ff() {}\nx\nx\nx\nx\nx\nx\nx\nfn zq() {}\n"

def guardedOnce : String :=
  String.ofList (Text.joinLines (List.map String.toList
    ["/* zq */", "x", "/**", " * Technical Explanation:",
     " * The function 'ff' performs a specific operation.", " * Signature: fn ff()", " *",
     " * Simple Explanation:",
     " * This function is like a tool: it takes something in and gives something back.", " */", "x",
     "fn ff() {}", "x", "x", "x", "x", "x", "x", "x", "fn zq() {}", ""]))

def upper : Element := ⟨"ff", .function, 4, 13, some "fn ff()", none, ""⟩

def lower : Element := ⟨"zq", .function, 12, 38, some "fn zq()", none, ""⟩

theorem documentable_guarded : (Outline.ofSource ⟨"a.rs"⟩ .rust guarded).documentable =
    [upper, lower] := by
  have hfinds : Extraction.Finds .rust guarded.toList [upper, lower] := by
    rw [guarded, String.toList_ofList]
    decide
  rw [Outline.documentable_of_finds _ hfinds]
  rfl

theorem landedIn_guarded :
    landedIn .block standard.mutation.window guarded
      (standard.batchFor .empty ⟨"a.rs"⟩ .rust guarded) =
      [standard.blockFor .empty ⟨"a.rs"⟩ .rust upper] := by
  obtain ⟨hupper, hlower⟩ : standard.wants .rust guarded upper = true ∧
      standard.wants .rust guarded lower = true := by
    rw [wants, wants, Gap.announced, Gap.announced, guarded, String.toList_ofList]
    decide
  obtain ⟨hin, hout⟩ : refusalOver? (settingFor .block standard.mutation.window guarded)
    (linesOf guarded) []
        (standard.blockFor .empty ⟨"a.rs"⟩ .rust upper) = none ∧
      refusalOver? (settingFor .block standard.mutation.window guarded) (linesOf guarded) []
        (standard.blockFor .empty ⟨"a.rs"⟩ .rust lower) = some .alreadyDocumented := by
    rw [settingFor, linesOf, guarded, String.toList_ofList]
    decide
  have hsorted : ([upper, lower].map (standard.blockFor .empty ⟨"a.rs"⟩ .rust)).Pairwise fun a b =>
      a.insertionLine ≤ b.insertionLine := by decide
  rw [landedIn, batchFor_eq, documentable_guarded, List.filter_cons_of_pos hupper,
    List.filter_cons_of_pos hlower, List.filter_nil, ordered_of_pairwise hsorted, List.map_cons,
    List.map_singleton, landing, landing, landing, hout, hin]

def upperLines : List String :=
  ["/**", " * Technical Explanation:", " * The function 'ff' performs a specific operation.",
   " * Signature: fn ff()", " *", " * Simple Explanation:",
   " * This function is like a tool: it takes something in and gives something back.", " */"]

theorem template_upper : Synthesis.template .english upper =
    ⟨"The function 'ff' performs a specific operation.\nSignature: fn ff()",
     "This function is like a tool: it takes something in and gives something back."⟩ := by
  rfl

theorem blockLines_upper (returns : Bool) :
    Plan.blockLines returns (standard.blockFor .empty ⟨"a.rs"⟩ .rust upper).content =
      (upperLines.map String.toList).map (endLine returns) := by
  have hcontent : (standard.blockFor .empty ⟨"a.rs"⟩ .rust upper).content =
      render .block "" (Synthesis.sections .english (Synthesis.template .english upper)) := rfl
  rw [hcontent, blockLines_render _ (by simp) (Synthesis.plainLabels_sections _ _),
    Synthesis.blockLines_sections, template_upper, upperLines]
  refine congrArg (List.map (endLine returns)) ?_
  simp only [sectionLines, List.map_cons, List.map_nil]
  -- the characters of the texts, so that nothing has to be decoded
  repeat rw [String.toList_ofList]
  rfl

theorem toList_guardedOnce :
    guardedOnce.toList =
      Text.joinLines
      (splice 3 ((upperLines.map String.toList).map (endLine false)) (linesOf guarded)) := by
  rw [guardedOnce, String.toList_ofList, linesOf, guarded, upperLines]
  simp only [List.map_cons, List.map_nil]
  repeat rw [String.toList_ofList]
  rfl

theorem documented_guarded : standard.documented .empty ⟨"a.rs"⟩ .rust guarded = guardedOnce := by
  have hreturns : (settingFor .block standard.mutation.window guarded).returns = false := by
    rw [settingFor, guarded, String.toList_ofList]
    rfl
  have hmark : (splitMark guarded.toList).1 = [] := by decide
  have hblock : Language.usesHashComments .rust = false := rfl
  rw [← String.toList_inj, toList_guardedOnce, documented, planFor,
    Style.ofLanguage_eq_block hblock,
    content_ofBatch, String.toList_ofList, wovenLines, landedIn_guarded, weave, List.foldr_cons,
    List.foldr_nil, blockLines_upper, hreturns, hmark, List.nil_append]
  rfl

theorem applied_guarded :
    (standard.planFor .empty ⟨"a.rs"⟩ .rust guarded).applied = [⟨upper.target, 3, 3, 8⟩] := by
  have hblock : Language.usesHashComments .rust = false := rfl
  rw [planFor, Style.ofLanguage_eq_block hblock, applied_ofBatch, landedIn_guarded,
    List.map_singleton,
    Landed.of, blockLines_upper, List.length_map]
  rfl

/-- The last function is announced, and the block of the first one stays out of reach. -/
def spread : String :=
  "/* zq */\nx\nx\nfn ff() {}\n\n\n\n\n\n\n\n\n* technical explanation plain explanation\nfn far() {}\n"

def farthest : Element := ⟨"far", .function, 14, 74, some "fn far()", none, ""⟩

theorem documentable_spread : (Outline.ofSource ⟨"a.rs"⟩ .rust spread).documentable =
    [upper, farthest] := by
  have hfinds : Extraction.Finds .rust spread.toList [upper, farthest] := by
    rw [spread, String.toList_ofList]
    decide
  rw [Outline.documentable_of_finds _ hfinds]
  rfl

theorem announced_farthest :
    Gap.announced .block standard.analysisWindow spread farthest.line = true := by
  rw [Gap.announced, spread, String.toList_ofList]
  decide

theorem applied_spread :
    (standard.planFor .empty ⟨"a.rs"⟩ .rust spread).applied = [⟨upper.target, 3, 3, 8⟩] := by
  have hblock : Language.usesHashComments .rust = false := rfl
  have hupper : standard.wants .rust spread upper = true := by
    rw [wants, Gap.announced, spread, String.toList_ofList]
    decide
  have hfarthest : ¬ standard.wants .rust spread farthest = true := by
    rw [wants, Style.ofLanguage_eq_block hblock, announced_farthest]
    decide
  have hin : refusalOver? (settingFor .block standard.mutation.window spread) (linesOf spread) []
      (standard.blockFor .empty ⟨"a.rs"⟩ .rust upper) = none := by
    rw [settingFor, linesOf, spread, String.toList_ofList]
    decide
  rw [planFor, Style.ofLanguage_eq_block hblock, applied_ofBatch, landedIn, batchFor_eq,
    documentable_spread,
    List.filter_cons_of_pos hupper, List.filter_cons_of_neg hfarthest, List.filter_nil,
      List.map_singleton,
    ordered_of_pairwise (List.pairwise_singleton _ _), landing, landing, hin,
    List.map_singleton, Landed.of, blockLines_upper, List.length_map]
  rfl

theorem upper_announced_once :
    (8 ≤ standard.analysisWindow ∧
      ⟨upper.target, 3, 3, 8⟩ ∈ (standard.planFor .empty ⟨"a.rs"⟩ .rust guarded).applied ∧
        Gap.announced .block standard.analysisWindow
          (standard.documented .empty ⟨"a.rs"⟩ .rust guarded) 12 = true) ∧
    Carried standard ⟨"a.rs"⟩ .rust spread ∧
    OutOfReach (standard.planFor .empty ⟨"a.rs"⟩ .rust spread).applied farthest.line
      (standard.analysisWindow + 1) 0 ∧
    standard.documented .empty ⟨"a.rs"⟩ .rust (standard.documented .empty ⟨"a.rs"⟩ .rust spread) =
      standard.documented .empty ⟨"a.rs"⟩ .rust spread := by
  have hwindow : 8 ≤ standard.analysisWindow := by decide
  have hmem : ⟨upper.target, 3, 3, 8⟩ ∈
      (standard.planFor .empty ⟨"a.rs"⟩ .rust guarded).applied := by
    rw [applied_guarded]
    exact List.mem_cons_self
  have hannounced := (documented_documented standard ⟨"a.rs"⟩ .rust guarded).2.1 hwindow _ hmem
  rw [applied_guarded] at hannounced
  obtain ⟨-, -, -, hcarried, hidle, hreach⟩ := documented_documented standard ⟨"a.rs"⟩ .rust spread
  have hcarried : Carried standard ⟨"a.rs"⟩ .rust spread := by
    refine hcarried rfl ?_ ?_
    all_goals
      rw [spread, String.toList_ofList]
      decide
  have hout : OutOfReach (standard.planFor .empty ⟨"a.rs"⟩ .rust spread).applied farthest.line
      (standard.analysisWindow + 1) 0 := by
    rw [applied_spread, OutOfReach]
    decide
  refine ⟨⟨hwindow, hmem, hannounced⟩, hcarried, hout,
    (hidle hwindow hcarried).2 fun e he _ hopen => .inl ?_⟩
  have hmember := he
  rw [documentable_spread, List.mem_cons, List.mem_singleton] at hmember
  rcases hmember with rfl | rfl
  · refine absurd rfl (hopen ⟨upper.target, 3, 3, 8⟩ ?_)
    rw [applied_spread]
    exact List.mem_cons_self
  · exact ((hreach _ he).1 hout).trans announced_farthest

def upperMoved : Element := ⟨"ff", .function, 12, 228, some "fn ff()", none, ""⟩

def lowerMoved : Element := ⟨"zq", .function, 20, 253, some "fn zq()", none, ""⟩

theorem documentable_guardedOnce :
    (Outline.ofSource ⟨"a.rs"⟩ .rust guardedOnce).documentable = [upperMoved, lowerMoved] := by
  have hfinds : Extraction.Finds .rust guardedOnce.toList [upperMoved, lowerMoved] := by
    rw [guardedOnce, String.toList_ofList]
    simp only [List.map_cons, List.map_nil]
    repeat rw [String.toList_ofList]
    decide +kernel
  rw [Outline.documentable_of_finds _ hfinds]
  rfl

/-- The second run finds the second function neither announced nor named, and gives it a block. -/
theorem documented_changes_again :
    standard.documented .empty ⟨"a.rs"⟩ .rust (standard.documented .empty ⟨"a.rs"⟩ .rust guarded) ≠
      standard.documented .empty ⟨"a.rs"⟩ .rust guarded := by
  rw [documented_guarded, ne_eq, documented_eq_self_iff, documentable_guardedOnce]
  obtain ⟨hopen, hunnamed⟩ :
      Gap.announced (.ofLanguage (some .rust)) standard.analysisWindow guardedOnce lowerMoved.line =
        false ∧
        standard.named .rust guardedOnce lowerMoved = false := by
    rw [Gap.announced, named, linesOf, guardedOnce, String.toList_ofList]
    decide +kernel
  intro h
  rcases h lowerMoved (by simp) rfl with h | h
  · rw [hopen] at h
    cases h
  · rw [hunnamed] at h
    cases h

end Again

end Settings

end DocGap
