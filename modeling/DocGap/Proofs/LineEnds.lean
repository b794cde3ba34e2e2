import DocGap.Proofs.Weave

/-!
# Line ends

A text in which every line feed follows a carriage return keeps that form when blocks are put in,
with one exception: a block behind a last line that has no line end. The line feed in front of such
a block follows the last line as it is.
-/
namespace DocGap

namespace Text

/-- Every line feed follows a carriage return. -/
def PairedFeeds (cs : List Char) : Prop :=
  ∀ front back, cs = front ++ '\n' :: back → front.getLast? = some '\r'

theorem pairedFeeds_of_not_mem {cs : List Char} (h : '\n' ∉ cs) : PairedFeeds cs := by
  rintro front back rfl
  exact absurd (List.mem_append_cons_self) h

theorem pairedFeeds_cons {c : Char} {cs : List Char} (hfeed : c ≠ '\n') (hreturn : c ≠ '\r') :
    PairedFeeds (c :: cs) ↔ PairedFeeds cs := by
  constructor
  · rintro h front back rfl
    have hlast := h (c :: front) back rfl
    rw [List.getLast?_cons] at hlast
    cases hfront : front.getLast? with
    | none => simp [hfront, hreturn] at hlast
    | some last => simpa [hfront] using hlast
  · intro h front back hcs
    cases front with
    | nil => exact absurd (List.cons.inj hcs).1 hfeed
    | cons first front =>
      rw [List.getLast?_cons, h front back (List.cons.inj hcs).2]
      rfl

theorem pairedFeeds_append_feed {l cs : List Char} (hl : '\n' ∉ l) :
    PairedFeeds (l ++ '\n' :: cs) ↔ l.getLast? = some '\r' ∧ PairedFeeds cs := by
  have hbehind : ∀ front : List Char, (l ++ '\n' :: front).getLast? = some '\r' ↔
      front.getLast? = some '\r' := by
    intro front
    rw [List.getLast?_append, List.getLast?_cons]
    cases front.getLast? <;> simp
  constructor
  · intro h
    refine ⟨h l cs rfl, ?_⟩
    rintro front back rfl
    exact (hbehind front).1 (h (l ++ '\n' :: front) back (by simp))
  · rintro ⟨hlast, h⟩ front back hcs
    rcases List.append_eq_append_iff.1 hcs with ⟨gap, rfl, hgap⟩ | ⟨gap, rfl, hgap⟩
    · cases gap with
      | nil => simpa using hlast
      | cons c gap =>
        obtain ⟨rfl, hrest⟩ := List.cons.inj hgap
        exact (hbehind gap).2 (h gap back hrest)
    · cases gap with
      | nil => simpa using hlast
      | cons c gap =>
        obtain ⟨rfl, -⟩ := List.cons.inj hgap
        simp at hl

theorem pairedFeeds_joinLines {ls : List (List Char)} (h : ∀ l ∈ ls, '\n' ∉ l) :
    PairedFeeds (joinLines ls) ↔ ∀ l ∈ ls.dropLast, l.getLast? = some '\r' := by
  induction ls with
  | nil => simpa [joinLines, joinWith] using pairedFeeds_of_not_mem List.not_mem_nil
  | cons l ls ih =>
    have hl : '\n' ∉ l := h l List.mem_cons_self
    cases ls with
    | nil => simpa [joinLines, joinWith] using pairedFeeds_of_not_mem hl
    | cons next rest =>
      rw [joinLines_cons l (by simp), pairedFeeds_append_feed hl, ih fun l hl =>
        h l (List.mem_cons_of_mem _ hl),
        List.dropLast_cons_cons, List.forall_mem_cons]

theorem pairedFeeds_iff (cs : List Char) :
    PairedFeeds cs ↔ ∀ l ∈ (splitLines cs).dropLast, l.getLast? = some '\r' := by
  rw [← pairedFeeds_joinLines fun _ => newline_not_mem_of_mem_splitLines, joinLines_splitLines]

instance : DecidablePred PairedFeeds := fun cs => decidable_of_iff _ (pairedFeeds_iff cs).symm

theorem joinLines_concat {ls : List (List Char)} (h : ls ≠ []) (l : List Char) :
    joinLines (ls ++ [l]) = joinLines ls ++ '\n' :: l := by
  induction ls with
  | nil => exact absurd rfl h
  | cons first rest ih =>
    cases rest with
    | nil => rfl
    | cons next rest =>
      rw [List.cons_append, joinLines_cons first (by simp), ih (by simp),
        joinLines_cons first (by simp),
        List.append_assoc, List.cons_append]

end Text

namespace Plan

theorem getLast?_of_mem_blockLines {content : String} {l : List Char}
    (h : l ∈ blockLines true content) :
    l.getLast? = some '\r' := by
  obtain ⟨line, -, rfl⟩ := List.mem_map.1 h
  exact List.getLast?_concat

section Weave

variable {init : List (List Char)} {last : List Char} {landed : List Insertion}

theorem getLast?_of_mem_weave {lines : List (List Char)}
    (h : ∀ l ∈ lines, l.getLast? = some '\r') {l : List Char}
    (hl : l ∈ weave true lines landed) : l.getLast? = some '\r' := by
  rcases mem_weave_iff.1 hl with hl | ⟨i, -, hl⟩
  · exact h l hl
  · exact getLast?_of_mem_blockLines hl

theorem mem_dropLast_weave (hsorted : landed.Pairwise fun i j => i.insertionLine ≤ j.insertionLine)
    (hrange : ∀ i ∈ landed, i.insertionLine ≤ (init ++ [last]).length + 1)
    {i : Insertion} (hi : i ∈ landed)
    (hbehind : (init ++ [last]).length < i.insertionLine) :
    last ∈ (weave true (init ++ [last]) landed).dropLast := by
  have hbottom : i ∈ landed.filter (·.insertionLine = (init ++ [last]).length + 1) := by
    have hle := hrange i hi
    exact List.mem_filter.2 ⟨hi, decide_eq_true (by omega)⟩
  have hne : (landed.filter (·.insertionLine = (init ++ [last]).length + 1)).flatMap
      (fun i => blockLines true i.content) ≠ [] :=
    fun hnil => blockLines_ne_nil true i.content (List.flatMap_eq_nil_iff.1 hnil i hbottom)
  rw [weave_eq_append_bottom true hsorted hrange, List.dropLast_append_of_ne_nil hne]
  exact List.mem_append_left _ (mem_weave_iff.2 (.inl (by simp)))

theorem forall_dropLast_weave_iff (hinit : ∀ l ∈ init, l.getLast? = some '\r')
    (hsorted : landed.Pairwise fun i j => i.insertionLine ≤ j.insertionLine)
    (hrange : ∀ i ∈ landed, i.insertionLine ≤ (init ++ [last]).length + 1) :
    (∀ l ∈ (weave true (init ++ [last]) landed).dropLast, l.getLast? = some '\r') ↔
      last.getLast? = some '\r' ∨ ∀ i ∈ landed, i.insertionLine ≤ (init ++ [last]).length := by
  constructor
  · intro h
    by_cases hlast : last.getLast? = some '\r'
    · exact .inl hlast
    · refine .inr fun i hi => Nat.le_of_not_lt fun hbehind => hlast ?_
      exact h last (mem_dropLast_weave hsorted hrange hi hbehind)
  · rintro (hlast | hwithin) l hl
    · have hall : ∀ l ∈ init ++ [last], l.getLast? = some '\r' := by
        simpa [or_imp, forall_and] using ⟨hinit, hlast⟩
      exact getLast?_of_mem_weave hall ((List.dropLast_sublist _).subset hl)
    · have hlast : weave true (init ++ [last]) landed = weave true init landed ++ [last] :=
        weave_lines_append fun i hi => by simpa using hwithin i hi
      rw [hlast, List.dropLast_concat] at hl
      exact getLast?_of_mem_weave hinit hl

end Weave

section Text

theorem pairedFeeds_mark (cs rest : List Char) :
    Text.PairedFeeds ((splitMark cs).1 ++ rest) ↔ Text.PairedFeeds rest := by
  unfold splitMark
  split
  · split
    · next c _ hc => exact Text.pairedFeeds_cons (hc ▸ by decide) (hc ▸ by decide)
    · rfl
  · rfl

theorem hasReturns_of_pairedFeeds {cs : List Char} (hmem : '\n' ∈ cs) (h : Text.PairedFeeds cs) :
    hasReturns cs = true := by
  obtain ⟨front, back, rfl⟩ := List.append_of_mem hmem
  obtain ⟨front, rfl⟩ := List.getLast?_eq_some_iff.1 (h front back rfl)
  exact Text.contains_iff_isInfix.2 ⟨front, back, by simp⟩

variable {text : String}

theorem exists_linesOf_concat (h : '\n' ∈ (splitMark text.toList).2) :
    ∃ init last, init ≠ [] ∧ linesOf text = init ++ [last] := by
  rcases List.eq_nil_or_concat (linesOf text) with hnil | ⟨init, last, hlines⟩
  · exact absurd hnil (Text.splitLines_ne_nil _)
  · refine ⟨init, last, ?_, by simpa using hlines⟩
    rintro rfl
    have hlength := Text.length_pieces '\n' (splitMark text.toList).2
    have hcount := List.count_pos_iff.2 h
    rw [show Text.pieces '\n' (splitMark text.toList).2 = _ from hlines] at hlength
    simp at hlength
    omega

theorem getLast?_text {init : List (List Char)} {last : List Char} (hinit : init ≠ [])
    (hlines : linesOf text = init ++ [last]) : text.toList.getLast? = some
    (last.getLast?.getD '\n') := by
  have hbody : (splitMark text.toList).2 = Text.joinLines init ++ '\n' :: last := by
    rw [← Text.joinLines_concat hinit, ← hlines, linesOf, Text.joinLines_splitLines]
  rw [← splitMark_append text.toList, hbody, List.getLast?_append, List.getLast?_append,
    List.getLast?_cons]
  rfl

theorem within_lines_iff (style : Comment.Style) (window : Nat) (batch : List Insertion)
    {init : List (List Char)} {last : List Char} (hinit : init ≠ [])
    (hlines : linesOf text = init ++ [last]) :
    (last.getLast? = some '\r' ∨
        ∀ i ∈ landedIn style window text batch, i.insertionLine ≤ (init ++ [last]).length) ↔
      (text.toList.getLast? = some '\n' ∨ text.toList.getLast? = some '\r') ∨
        ∀ a ∈ (ofBatch style window text batch).applied,
          a.insertionLine ≤ (ofBatch style window text batch).lineCount := by
  have hcount : (ofBatch style window text batch).lineCount = countLines (init ++ [last]) := by
    rw [← hlines]
    rfl
  rw [getLast?_text hinit hlines, hcount,
    forall_insertionLine_applied style window text batch (· ≤ countLines (init ++ [last]))]
  cases hlast : last.getLast? with
  | none =>
    -- the last line is empty, so that no block goes behind it
    have hempty : last = [] := List.getLast?_eq_none_iff.1 hlast
    refine iff_of_true (.inr fun i hi => ?_) (.inl (.inl rfl))
    have hle := (mem_range_of_mem_landing hi).2
    rw [show (settingFor style window text).lineCount =
      countLines (init ++ [last]) from hcount, hempty] at hle
    simpa [countLines] using hle
  | some c =>
    have hfeed : c ≠ '\n' := by
      rintro rfl
      have hmem : last ∈ linesOf text := hlines ▸ by simp
      exact Text.newline_not_mem_of_mem_splitLines hmem (List.mem_of_getLast? hlast)
    have hfull : countLines (init ++ [last]) = (init ++ [last]).length := by
      have hne : last ≠ [] := by
        rintro rfl
        cases hlast
      simp [countLines, hne]
    simp [hfull, hfeed]

variable (style : Comment.Style) (window : Nat) (batch : List Insertion)

/-- Carriage returns in front of all line feeds stay there exactly if the text ends with a line feed
or a carriage return, or no block goes behind the last line. -/
theorem pairedFeeds_content_iff (hfeed : '\n' ∈ text.toList)
    (hpaired : Text.PairedFeeds text.toList) :
    Text.PairedFeeds (ofBatch style window text batch).content.toList ↔
      (text.toList.getLast? = some '\n' ∨ text.toList.getLast? = some '\r') ∨
        ∀ a ∈ (ofBatch style window text batch).applied,
          a.insertionLine ≤ (ofBatch style window text batch).lineCount := by
  have hbody : Text.PairedFeeds (splitMark text.toList).2 := by
    rwa [← splitMark_append text.toList, pairedFeeds_mark] at hpaired
  have hmem : '\n' ∈ (splitMark text.toList).2 := by
    rw [← splitMark_append text.toList, List.mem_append] at hfeed
    exact hfeed.resolve_left (newline_not_mem_splitMark _)
  have hreturns : (settingFor style window text).returns = true :=
    hasReturns_of_pairedFeeds hmem hbody
  obtain ⟨init, last, hinit, hlines⟩ := exists_linesOf_concat hmem
  have hends : ∀ l ∈ init, l.getLast? = some '\r' := by
    have hdrop := (Text.pairedFeeds_iff _).1 hbody
    rwa [← linesOf, hlines, List.dropLast_concat] at hdrop
  have hwoven : ∀ l ∈ wovenLines style window text batch, '\n' ∉ l :=
    fun l => newline_not_mem_of_mem_weave fun _ => Text.newline_not_mem_of_mem_splitLines
  rw [content_ofBatch, String.toList_ofList, pairedFeeds_mark, Text.pairedFeeds_joinLines hwoven,
    wovenLines, hreturns,
    hlines, forall_dropLast_weave_iff hends (landedIn_sorted style window text batch)
      fun i hi => hlines ▸ landedIn_range style window text batch hi]
  exact within_lines_iff style window batch hinit hlines

end Text

section Behind

def mixedBlock (line : Nat) : Insertion := ⟨⟨"f", .function, 1⟩, line, "/**\r\n * f\n */"⟩

theorem paired_behind_feed :
    '\n' ∈ "a\r\nb\r\n".toList ∧ Text.PairedFeeds "a\r\nb\r\n".toList ∧
      Text.PairedFeeds (ofBatch .block 10 "a\r\nb\r\n" [mixedBlock 3]).content.toList := by
  have hfeed : '\n' ∈ "a\r\nb\r\n".toList := by decide
  have hpaired : Text.PairedFeeds "a\r\nb\r\n".toList := by decide
  exact ⟨hfeed, hpaired, (pairedFeeds_content_iff .block 10 [mixedBlock 3] hfeed hpaired).2
    (.inl (.inl (by decide)))⟩

/-- The last line has no line end, and gets a line feed only. -/
theorem unpaired_behind_line :
    '\n' ∈ "a\r\nb".toList ∧ Text.PairedFeeds "a\r\nb".toList ∧
      (ofBatch .block 10 "a\r\nb" [mixedBlock 3]).lineCount + 1 = 3 ∧
      ¬ Text.PairedFeeds (ofBatch .block 10 "a\r\nb" [mixedBlock 3]).content.toList := by
  have hfree : refusalOver? (settingFor .block 10 "a\r\nb") (linesOf "a\r\nb") []
      (mixedBlock 3) = none := by
    decide
  have hlanded : landedIn .block 10 "a\r\nb" [mixedBlock 3] = [mixedBlock 3] := by
    rw [landedIn, ordered_of_pairwise (List.pairwise_singleton _ _), landing, landing, hfree]
  refine ⟨by decide, by decide, rfl, ?_⟩
  rw [content_ofBatch, wovenLines, hlanded, String.toList_ofList]
  decide

end Behind

end Plan

end DocGap
