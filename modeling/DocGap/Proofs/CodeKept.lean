import DocGap.Proofs.GapBatch

/-!
# Documenting a text and its code

Blocks have no code of their own, so that a block in front of a line outside all comments changes
nothing. A block in front of a line inside a comment ends the comment, and the rest of the comment
becomes code. In a text whose comments are closed and not nested, the code is kept exactly if no
block goes inside a comment.
-/
namespace DocGap.Plan

open Comment

def Vanishes (block : List (List Char)) : Prop :=
  ∀ inside, afterLines inside block = false ∧ codeLines inside block = []

def openAt (lines : List (List Char)) (line : Nat) : Bool :=
  afterLines false (lines.take (line - 1))

section Woven

variable {returns : Bool} {lines : List (List Char)} {landed : List Insertion} {i : Insertion}

structure Orderly (returns : Bool) (lines : List (List Char)) (landed : List Insertion) : Prop where
  sorted : landed.Pairwise fun i j => i.insertionLine ≤ j.insertionLine
  range : ∀ i ∈ landed, i.insertionLine ≤ lines.length + 1
  vanishes : ∀ i ∈ landed, Vanishes (blockLines returns i.content)

namespace Orderly

theorem tail (h : Orderly returns lines (i :: landed)) : Orderly returns lines landed :=
  ⟨h.sorted.of_cons, fun j hj => h.range j (List.mem_cons_of_mem _ hj),
    fun j hj => h.vanishes j (List.mem_cons_of_mem _ hj)⟩

theorem le (h : Orderly returns lines (i :: landed)) {j : Insertion} (hj : j ∈ landed) :
    i.insertionLine ≤ j.insertionLine := List.rel_of_pairwise_cons h.sorted hj

theorem code_weave_cons (h : Orderly returns lines (i :: landed)) :
    codeLines false (weave returns lines (i :: landed)) =
        codeLines false (lines.take (i.insertionLine - 1)) ++
          codeLines false ((weave returns lines landed).drop (i.insertionLine - 1)) ∧
      codeLines false (weave returns lines landed) =
        codeLines false (lines.take (i.insertionLine - 1)) ++
          codeLines (openAt lines i.insertionLine)
            ((weave returns lines landed).drop (i.insertionLine - 1)) := by
  obtain ⟨hclosed, hnone⟩ := h.vanishes i List.mem_cons_self (openAt lines i.insertionLine)
  have htake : (weave returns lines landed).take (i.insertionLine - 1) =
      lines.take (i.insertionLine - 1) :=
    take_weave h.tail.range fun j hj => Nat.sub_le_sub_right (h.le hj) 1
  constructor
  · rw [weave_cons h.range fun j hj =>
      h.le hj, codeLines_append, codeLines_append, ← openAt, hclosed, hnone,
      List.nil_append]
  · have hsplit := List.take_append_drop (i.insertionLine - 1) (weave returns lines landed)
    rw [htake] at hsplit
    rw [openAt, ← codeLines_append, hsplit]

theorem code_weave_of_outside (h : Orderly returns lines landed)
    (hout : ∀ i ∈ landed, openAt lines i.insertionLine = false) :
    codeLines false (weave returns lines landed) = codeLines false lines := by
  induction landed with
  | nil => rfl
  | cons i landed ih =>
    obtain ⟨hmore, hless⟩ := h.code_weave_cons
    rw [← ih h.tail fun j hj => hout j (List.mem_cons_of_mem _ hj), hmore, hless,
      hout i List.mem_cons_self]

/-- The lines from line `line` on are old lines up to the next block, and what follows them has the
same code in both states. -/
theorem exists_stretch (h : Orderly returns lines landed) {line : Nat}
    (hle : ∀ i ∈ landed, line ≤ i.insertionLine) :
    ∃ stretch below old, (weave returns lines landed).drop (line - 1) = stretch ++ below ∧
      lines = lines.take (line - 1) ++ (stretch ++ old) ∧
        codeLines true below = codeLines false below ∧
      (old = [] ∨ ∃ i ∈ landed, afterLines (openAt lines line) stretch =
        openAt lines i.insertionLine) := by
  cases landed with
  | nil => exact ⟨lines.drop (line - 1), [], [], by simp [weave], by simp, rfl, .inl rfl⟩
  | cons i landed =>
    have hi : line - 1 ≤ i.insertionLine - 1 := Nat.sub_le_sub_right (hle i List.mem_cons_self) 1
    have hrange := h.range i List.mem_cons_self
    have hsplit : lines.take (line - 1) ++ (lines.take (i.insertionLine - 1)).drop (line - 1) =
        lines.take (i.insertionLine - 1) := by
      have happend := List.take_append_drop (line - 1) (lines.take (i.insertionLine - 1))
      rwa [List.take_take, Nat.min_eq_left hi] at happend
    have hvanishes := h.vanishes i List.mem_cons_self
    refine ⟨(lines.take (i.insertionLine - 1)).drop (line - 1),
      blockLines returns i.content ++ (weave returns lines landed).drop (i.insertionLine - 1),
      lines.drop (i.insertionLine - 1), ?_, ?_, ?_, .inr ⟨i, List.mem_cons_self, ?_⟩⟩
    · rw [weave_cons h.range fun j hj => h.le hj, List.drop_append_of_le_length]
      rw [List.length_take]
      omega
    · rw [← List.append_assoc, hsplit, List.take_append_drop]
    · simp only [codeLines_append, (hvanishes _).1, (hvanishes _).2]
    · rw [openAt, openAt, ← afterLines_append, hsplit]

theorem length_code_weave_cons (h : Orderly returns lines (i :: landed))
    (hunnested : unnestedLines false lines = true) :
    (codeLines false (weave returns lines landed)).length ≤
        (codeLines false (weave returns lines (i :: landed))).length ∧
      (openAt lines i.insertionLine = true → afterLines false lines = false →
        (∀ j ∈ landed, openAt lines j.insertionLine = false) →
        (codeLines false (weave returns lines landed)).length <
          (codeLines false (weave returns lines (i :: landed))).length) := by
  obtain ⟨hmore, hless⟩ := h.code_weave_cons
  rw [hmore, hless, List.length_append, List.length_append]
  cases hopen : openAt lines i.insertionLine with
  | false => simp
  | true =>
    obtain ⟨stretch, below, old, hdrop, hlines, hbelow, hend⟩ :=
      h.tail.exists_stretch fun j hj => h.le hj
    rw [hopen] at hend
    have hstretch : unnestedLines true stretch = true := by
      rw [hlines, unnestedLines_append, unnestedLines_append, ← openAt, hopen] at hunnested
      simp only [Bool.and_eq_true] at hunnested
      exact hunnested.2.1
    have hcode : ∀ inside,
        codeLines inside (stretch ++ below) = codeLines inside stretch ++
          codeLines false below := by
      intro inside
      rw [codeLines_append]
      cases afterLines inside stretch with
      | false => rfl
      | true => rw [hbelow]
    simp only [hdrop, hcode, List.length_append]
    rcases read_lines_outside hstretch with ⟨hstay, hnone⟩ | hlonger
    · refine ⟨by simp [hnone], fun _ hclosed hout => ?_⟩
      -- the comment is still open at the end of the stretch, although nothing below opens one
      rcases hend with rfl | ⟨j, hj, hj'⟩
      · rw [hlines, List.append_nil, afterLines_append, ← openAt, hopen, hstay] at hclosed
        cases hclosed
      · rw [hstay, hout j hj] at hj'
        cases hj'
    · exact ⟨by omega, fun _ _ _ => by omega⟩

theorem length_code_weave (h : Orderly returns lines landed)
    (hunnested : unnestedLines false lines = true)
    (hclosed : afterLines false lines = false)
    (hin : ∃ i ∈ landed, openAt lines i.insertionLine = true) :
    (codeLines false lines).length < (codeLines false (weave returns lines landed)).length := by
  induction landed with
  | nil => simp at hin
  | cons i landed ih =>
    obtain ⟨hle, hlt⟩ := h.length_code_weave_cons hunnested
    by_cases hrest : ∃ j ∈ landed, openAt lines j.insertionLine = true
    · exact Nat.lt_of_lt_of_le (ih h.tail hrest) hle
    · have hout : ∀ j ∈ landed, openAt lines j.insertionLine = false := by simpa using hrest
      have hopen : openAt lines i.insertionLine = true := by
        obtain ⟨j, hj, hopen⟩ := hin
        rcases List.mem_cons.1 hj with rfl | hj
        · exact hopen
        · exact absurd ⟨j, hj, hopen⟩ hrest
      rw [← h.tail.code_weave_of_outside hout]
      exact hlt hopen hclosed hout

end Orderly

end Woven

section Mark

theorem scan_mark (cs rest : List Char) :
    code false ((splitMark cs).1 ++ rest) = (splitMark cs).1 ++ code false rest ∧
      after false ((splitMark cs).1 ++ rest) = after false rest ∧
        unnested false ((splitMark cs).1 ++ rest) = unnested false rest := by
  have hmark : (splitMark cs).1 = [] ∨ (splitMark cs).1 = [byteOrderMark] := by
    unfold splitMark
    split
    · split
      · next h => exact .inr (by rw [h])
      · exact .inl rfl
    · exact .inl rfl
  have hslash : byteOrderMark ≠ '/' := by decide
  rcases hmark with h | h
  · rw [h]
    exact ⟨rfl, rfl, rfl⟩
  · rw [h, List.singleton_append, code_outside (by simp [hslash]), after_outside (by simp [hslash]),
      unnested_cons (by simp [hslash]) (by simp), if_neg (by decide)]
    exact ⟨rfl, rfl, rfl⟩

theorem openAt_linesOf (text : String) (line : Nat) :
    openAt (linesOf text) line = openAt (Text.splitLines text.toList) line := by
  obtain ⟨first, rest, hlines, hmarked⟩ := exists_linesOf text
  rw [openAt, openAt, hlines, hmarked]
  cases line - 1 with
  | zero => rfl
  | succ n =>
    rw [List.take_succ_cons, List.take_succ_cons, afterLines_cons, afterLines_cons,
      (scan_mark text.toList first).2.1]

end Mark

end DocGap.Plan

namespace DocGap.Settings

open Comment Plan

variable (settings : Settings) (payload : Payload) (path : Path)
  {language : Language} (text : String)

theorem vanishes_blockFor (hblock : language.usesHashComments = false) {total : Nat} {e : Element}
    (he : e.WellFormed total) (returns : Bool) :
    Vanishes (blockLines returns (settings.blockFor payload path language e).content) := by
  intro inside
  rw [blockFor, Synthesis.content, Style.ofLanguage_eq_block hblock]
  exact scan_block returns inside he.indent_blank (Synthesis.plainLabels_sections _ _)

theorem orderly_landedIn (hblock : language.usesHashComments = false) (window : Nat) :
    Orderly (settingFor .block window text).returns (linesOf text)
      (landedIn .block window text (settings.batchFor payload path language text)) := by
  refine ⟨landedIn_sorted _ _ _ _, fun i hi => landedIn_range _ _ _ _ hi, fun i hi => ?_⟩
  obtain ⟨e, he, rfl⟩ := exists_element_of_mem_landedIn hi
  exact vanishes_blockFor _ _ _ hblock he _

theorem code_text :
    code false text.toList = (splitMark text.toList).1 ++ codeLines false (linesOf text) := by
  have hmark := (scan_mark text.toList (splitMark text.toList).2).1
  rwa [splitMark_append, ← Text.joinLines_splitLines (splitMark text.toList).2,
    (scan_joinLines _ _).2] at hmark

theorem code_documented (hblock : language.usesHashComments = false) :
    code false (settings.documented payload path language text).toList =
      (splitMark text.toList).1 ++ codeLines false (wovenLines .block settings.mutation.window text
        (settings.batchFor payload path language text)) := by
  rw [documented, planFor, Style.ofLanguage_eq_block hblock, content_ofBatch, String.toList_ofList,
    (scan_mark text.toList _).1, (scan_joinLines _ _).2]

theorem tidy_linesOf (h : tidy text.toList = true) :
    unnestedLines false (linesOf text) = true ∧ afterLines false (linesOf text) = false := by
  obtain ⟨-, hafter, hunnested⟩ := scan_mark text.toList (splitMark text.toList).2
  rw [splitMark_append] at hafter hunnested
  rw [tidy, hafter, hunnested, ← Text.joinLines_splitLines (splitMark text.toList).2,
    unnested_joinLines,
    (scan_joinLines _ _).1, ← linesOf] at h
  simpa using h

/-- Documenting a text keeps its code if no block goes inside a comment. If the comments of the text
are closed and not nested, it keeps the code only then. -/
theorem code_kept_iff_outside (hblock : language.usesHashComments = false) :
    ((∀ a ∈ (settings.planFor payload path language text).applied,
          openAt (Text.splitLines text.toList) a.insertionLine = false) →
        code false (settings.documented payload path language text).toList =
          code false text.toList) ∧
      (tidy text.toList = true →
        code false (settings.documented payload path language text).toList =
          code false text.toList →
        ∀ a ∈ (settings.planFor payload path language text).applied,
          openAt (Text.splitLines text.toList) a.insertionLine = false) := by
  have horderly := orderly_landedIn settings payload path text hblock settings.mutation.window
  have happlied := forall_insertionLine_applied .block settings.mutation.window text
    (settings.batchFor payload path language text) (openAt (linesOf text) · = false)
  simp only [code_documented settings payload path text hblock, code_text,
    List.append_cancel_left_eq,
    ← openAt_linesOf]
  rw [planFor, Style.ofLanguage_eq_block hblock, happlied, wovenLines]
  refine ⟨horderly.code_weave_of_outside, fun htidy hkept i hi => ?_⟩
  obtain ⟨hunnested, hclosed⟩ := tidy_linesOf text htidy
  cases hopen : openAt (linesOf text) i.insertionLine with
  | false => rfl
  | true =>
    have hlonger := horderly.length_code_weave hunnested hclosed ⟨i, hi, hopen⟩
    rw [hkept] at hlonger
    exact absurd hlonger (Nat.lt_irrefl _)

theorem code_kept_below_line_comment :
    Language.usesHashComments .rust = false ∧
      code false (standard.documented .empty ⟨"a.rs"⟩ .rust "/* x */\n\nfn f() {}").toList =
        "fnf(){}".toList := by
  have hout : ∀ line, openAt (Text.splitLines "/* x */\n\nfn f() {}".toList) line = false := by
    intro line
    have hlines : Text.splitLines "/* x */\n\nfn f() {}".toList =
        ["/* x */".toList, [], "fn f() {}".toList] := by decide
    rw [openAt, hlines]
    match line - 1 with
    | 0 => rfl
    | 1 => rfl
    | 2 => rfl
    | n + 3 => simp; rfl
  refine ⟨rfl, ((code_kept_iff_outside standard .empty ⟨"a.rs"⟩ _ rfl).1 fun a _ => hout _).trans
    ?_⟩
  decide

section Lost

def closedAbove : String := "/*\n*/\nfn f() {}"

def closedAboveElement : Element := ⟨"f", .function, 3, 6, some "fn f()", none, ""⟩

theorem documentable_closedAbove :
    (Outline.ofSource ⟨"a.rs"⟩ .rust closedAbove).documentable = [closedAboveElement] := by
  have hfinds : Extraction.Finds .rust closedAbove.toList [closedAboveElement] := by decide +kernel
  rw [Outline.documentable_of_finds _ hfinds]
  rfl

theorem landedIn_closedAbove :
    landedIn .block standard.mutation.window closedAbove
        (standard.batchFor .empty ⟨"a.rs"⟩ .rust closedAbove) =
      [standard.blockFor .empty ⟨"a.rs"⟩ .rust closedAboveElement] := by
  have hwants : standard.wants .rust closedAbove closedAboveElement = true := by decide +kernel
  have hfree : refusalOver? (settingFor .block standard.mutation.window closedAbove)
      (linesOf closedAbove) []
      (standard.blockFor .empty ⟨"a.rs"⟩ .rust closedAboveElement) = none := by decide +kernel
  rw [landedIn, batchFor_eq, documentable_closedAbove,
    List.filter_cons_of_pos hwants, List.filter_nil,
    List.map_singleton, ordered_of_pairwise (by simp), landing, landing, hfree]

/-- The block goes between the first and the last line of the comment, whose end becomes code. -/
theorem code_not_kept :
    closedAbove.toList.all (fun c => c ≠ '\'' && c ≠ '"' && c ≠ '\x60') = true ∧
      Text.contains "//".toList closedAbove.toList = false ∧ tidy closedAbove.toList = true ∧
        code false closedAbove.toList = "fnf(){}".toList ∧
          code false (standard.documented .empty ⟨"a.rs"⟩ .rust closedAbove).toList =
            "*/fnf(){}".toList := by
  refine ⟨by decide, by decide, by decide, by decide, ?_⟩
  have hblock : Language.usesHashComments .rust = false := rfl
  have horderly :=
    orderly_landedIn standard .empty ⟨"a.rs"⟩ closedAbove hblock standard.mutation.window
  rw [landedIn_closedAbove] at horderly
  rw [code_documented _ _ _ _ hblock, wovenLines, landedIn_closedAbove, horderly.code_weave_cons.1]
  decide

end Lost

end DocGap.Settings
