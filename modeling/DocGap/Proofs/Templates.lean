import DocGap.Proofs.Announce

/-!
# What blocks announce

Behind its first line, a block announces both explanations. If it has no more lines than a window,
then the window reaches them from the element, with one line in between. A block whose texts come
from templates has at most eight lines.
-/
namespace DocGap

namespace Text

def breaks (cs : List Char) : Nat := cs.count '\n' + cs.count '\r'

theorem breaks_append (as bs : List Char) : breaks (as ++ bs) = breaks as + breaks bs := by
  simp only [breaks, List.count_append]
  omega

theorem breaks_eq_zero {cs : List Char} (h : ∀ c ∈ cs, c ≠ '\n' ∧ c ≠ '\r') : breaks cs = 0 := by
  have hfeed : cs.count '\n' = 0 := List.count_eq_zero.2 fun hc => (h _ hc).1 rfl
  have hreturn : cs.count '\r' = 0 := List.count_eq_zero.2 fun hc => (h _ hc).2 rfl
  rw [breaks, hfeed, hreturn]

theorem length_bodyLines_le (cs : List Char) : (bodyLines cs).length ≤ cs.count '\n' + 1 := by
  have hclose : ∀ ls : List (List Char), (bodyLines.close ls).length ≤ ls.length := by
    intro ls
    fun_induction bodyLines.close ls with
    | case1 => simp
    | case2 => simp
    | case3 => simp
    | case4 line rest hrest ih => simpa using ih
  rw [bodyLines, ← length_pieces]
  exact hclose _

theorem not_blank_of_mem_go {front cs w : List Char} (hfront : ∀ c ∈ front, isBlank c = false)
    (hw : w ∈ words.go front cs) : ∀ c ∈ w, isBlank c = false := by
  fun_induction words.go front cs with
  | case1 front hempty => cases hw
  | case2 front hempty =>
    rw [List.mem_singleton.1 hw]
    simpa using hfront
  | case3 front c cs hblank hempty ih => exact ih (by simp) hw
  | case4 front c cs hblank hempty ih =>
    rcases List.mem_cons.1 hw with rfl | hw
    · simpa using hfront
    · exact ih (by simp) hw
  | case5 front c cs hblank ih =>
    refine ih (fun d hd => ?_) hw
    rcases List.mem_cons.1 hd with rfl | hd
    · simpa using hblank
    · exact hfront d hd

theorem mem_joinWith {mark c : Char} {ls : List (List Char)} (h : c ∈ joinWith mark ls) :
    c = mark ∨ ∃ l ∈ ls, c ∈ l := by
  induction ls with
  | nil => cases h
  | cons l rest ih =>
    cases rest with
    | nil => exact .inr ⟨l, List.mem_cons_self, h⟩
    | cons next rest =>
      rw [joinWith_cons l (by simp), List.mem_append, List.mem_cons] at h
      rcases h with h | h | h
      · exact .inr ⟨l, List.mem_cons_self, h⟩
      · exact .inl h
      · rcases ih h with h | ⟨m, hm, hc⟩
        · exact .inl h
        · exact .inr ⟨m, List.mem_cons_of_mem _ hm, hc⟩

end Text

namespace Comment

theorem count_unifyLineEnds_le (cs : List Char) :
    (unifyLineEnds cs).count '\n' ≤ Text.breaks cs := by
  fun_induction unifyLineEnds cs with
  | case1 cs ih => simp [Text.breaks] at ih ⊢; omega
  | case2 cs h ih => simp [Text.breaks] at ih ⊢; omega
  | case3 c cs h1 h2 ih =>
    simp only [Text.breaks, List.count_cons] at ih ⊢
    omega
  | case4 => simp

theorem count_breakClosers (cs : List Char) : (breakClosers cs).count '\n' = cs.count '\n' := by
  fun_induction breakClosers cs with
  | case1 cs ih => simpa using ih
  | case2 c cs h ih => simp [List.count_cons, ih]
  | case3 => rfl

theorem count_sanitize_le (style : Style) (cs : List Char) :
    (sanitize style cs).count '\n' ≤ Text.breaks cs := by
  cases style with
  | block =>
    rw [sanitize, count_breakClosers]
    exact count_unifyLineEnds_le cs
  | hash => exact count_unifyLineEnds_le cs

theorem length_sectionLines_le (style : Style) (indent : List Char) (s : Section) :
    (sectionLines style indent s).length ≤ Text.breaks s.body.toList + 2 := by
  have htrim : (Text.trim (sanitize style s.body.toList)).count '\n' ≤
      (sanitize style s.body.toList).count '\n' :=
    (Text.trim_isInfix _).sublist.count_le _
  have hbody := Text.length_bodyLines_le (Text.trim (sanitize style s.body.toList))
  have hbreaks := count_sanitize_le style s.body.toList
  rw [sectionLines, List.length_cons, List.length_map]
  omega

end Comment

namespace Plan

open Comment

theorem endLine_labelLine (returns : Bool) (style : Style) (indent : List Char) (label : String) :
    endLine returns (labelLine style indent label) =
      labelLine style indent label ++ if returns then ['\r'] else [] :=
  endLine_eq (by rw [labelLine, List.getLast?_concat]; decide)

theorem isCommentLine_labelLine {indent : List Char} (hindent : ∀ c ∈ indent, Text.isBlank c = true)
    (returns : Bool) (style : Style) (label : String) :
    isCommentLine style (endLine returns (labelLine style indent label)) = true := by
  have htrim : ∀ cs, Text.trimStart (indent ++ cs) = Text.trimStart cs := fun cs =>
    List.dropWhile_append_of_pos hindent
  rw [endLine_labelLine]
  simp only [labelLine, List.append_assoc]
  cases style with
  | block =>
    rw [isCommentLine, looksLikeBlock, htrim]
    rfl
  | hash =>
    rw [isCommentLine, isHashLine, htrim]
    rfl

theorem marks_labelLine {markers : List String} {marker label : String} (hmarker : marker ∈ markers)
    (hlabel : label.toList.map Gap.lowerCase = marker.toList) (returns : Bool) (style : Style)
    (indent : List Char) :
    Gap.marks markers (endLine returns (labelLine style indent label)) := by
  refine ⟨marker, hmarker, ?_⟩
  rw [← hlabel, endLine_labelLine, labelLine]
  have hpart : label.toList <:+:
      (indent ++ style.continuation.toList ++ ' ' :: label.toList ++ [':']) ++
      if returns then ['\r'] else [] :=
    ⟨indent ++ style.continuation.toList ++ [' '], [':'] ++ if returns then ['\r'] else [], by simp⟩
  exact hpart.map Gap.lowerCase

end Plan

theorem Grammar.isIdentifierPart_of_mem {name : List Char} (h : isIdentifier name = true) {c : Char}
    (hc : c ∈ name) : isIdentifierPart c = true := by
  cases name with
  | nil => cases hc
  | cons first rest =>
    simp only [isIdentifier, Bool.and_eq_true, List.all_eq_true] at h
    rcases List.mem_cons.1 hc with rfl | hc
    · have hstart := h.1.1
      simp only [isIdentifierStart, isIdentifierPart, Char.isAlphanum, Bool.or_eq_true] at hstart ⊢
      exact hstart.imp_left (.imp_left .inl)
    · exact h.2 c hc

namespace Synthesis

open Text (breaks)

theorem breaks_collapse (text : String) : breaks (collapse text).toList = 0 := by
  refine Text.breaks_eq_zero fun c hc => ?_
  rw [collapse, String.toList_ofList] at hc
  rcases Text.mem_joinWith hc with rfl | ⟨w, hw, hc⟩
  · decide
  · have hblank : Text.isBlank c = false := Text.not_blank_of_mem_go (by simp) hw c hc
    constructor <;> rintro rfl <;> simp [Text.isBlank, Text.blankRanges] at hblank

theorem breaks_withSignature_le (sentence label : String) (signature : Option String) :
    breaks (withSignature sentence label signature).toList ≤
      breaks sentence.toList + breaks label.toList + 1 := by
  have hends : breaks "\n".toList = 1 ∧ breaks ": ".toList = 0 := by decide
  unfold withSignature
  split
  · omega
  · dsimp only
    split
    · omega
    · simp only [String.toList_append, Text.breaks_append, breaks_collapse, hends]
      omega

theorem breaks_of_isIdentifier {name : List Char} (h : Grammar.isIdentifier name = true) :
    breaks name = 0 := by
  refine Text.breaks_eq_zero fun c hc => ?_
  have hc := Grammar.isIdentifierPart_of_mem h hc
  constructor <;> rintro rfl <;> exact absurd hc (by decide)

theorem breaks_ofList_le {cs : List Char} {n : Nat} (h : breaks cs ≤ n) :
    breaks (String.ofList cs).toList ≤ n := by
  rwa [String.toList_ofList]

theorem breaks_template {total : Nat} {e : Element} (he : e.WellFormed total) (locale : Locale) :
    breaks (template locale e).technical.toList ≤ 1 ∧
      breaks (template locale e).simple.toList ≤ 0 := by
  have hname := breaks_of_isIdentifier he.name
  have hclass : ∀ a b c : String, breaks a.toList ≤ 0 → breaks b.toList ≤ 1 → breaks c.toList ≤ 0 →
      breaks (a ++ e.name ++ b ++ c).toList ≤ 1 := by
    intro a b c ha hb hc
    simp only [String.toList_append, Text.breaks_append]
    omega
  have hfunction : ∀ a b label : String, breaks a.toList ≤ 0 → breaks b.toList ≤ 0 →
      breaks label.toList ≤ 0 →
      breaks (withSignature (a ++ e.name ++ b) label e.signature).toList ≤ 1 := by
    intro a b label ha hb hlabel
    have hsignature := breaks_withSignature_le (a ++ e.name ++ b) label e.signature
    simp only [String.toList_append, Text.breaks_append] at hsignature
    omega
  unfold template
  split <;> refine ⟨?_, breaks_ofList_le (by decide)⟩
  case h_1 | h_2 => apply hclass <;> exact breaks_ofList_le (by decide)
  case h_3 | h_4 => apply hfunction <;> exact breaks_ofList_le (by decide)

theorem blockLines_sections (style : Comment.Style) (indent : List Char) (locale : Locale)
    (text : Explanation) :
    Comment.blockLines style indent (sections locale text) =
      (indent ++ style.opening.toList) ::
        (Comment.sectionLines style indent ⟨locale.technicalLabel, text.technical⟩ ++
          Comment.bodyLine style indent [] ::
            (Comment.sectionLines style indent ⟨locale.simpleLabel, text.simple⟩ ++
              [indent ++ style.closing.toList])) := by
  simp [Comment.blockLines, sections, Comment.bodyLines]

theorem lowerCase_labels (locale : Locale) :
    (∃ marker ∈ Gap.technicalMarkers,
      locale.technicalLabel.toList.map Gap.lowerCase = marker.toList) ∧
      ∃ marker ∈ Gap.simpleMarkers, locale.simpleLabel.toList.map Gap.lowerCase =
        marker.toList := by
  cases locale with
  | english =>
    exact ⟨⟨"technical explanation", by decide, by decide⟩, "simple explanation",
      by decide, by decide⟩
  | german =>
    exact ⟨⟨"technische erklärung", by decide, by decide⟩, "einfache erklärung",
      by decide, by decide⟩

end Synthesis

namespace Settings

open Comment Plan

section Block

variable (settings : Settings) (payload : Payload) (path : Path) (language : Language)
  {total : Nat} {e : Element}

theorem blockLines_blockFor (he : e.WellFormed total) (returns : Bool) :
    blockLines returns (settings.blockFor payload path language e).content =
      (Comment.blockLines (.ofLanguage (some language)) e.indent.toList
        (Synthesis.sections settings.synthesis.locale
          (Synthesis.explanation settings.synthesis.locale e
          (payload.find? path e.name e.line)))).map
        (endLine returns) :=
  blockLines_render returns (fun hn => (he.indent_blank _ hn).2 rfl)
    (Synthesis.plainLabels_sections _ _)

theorem exists_tail_blockFor (he : e.WellFormed total) (returns : Bool) :
    ∃ first tail, blockLines returns
      (settings.blockFor payload path language e).content = first :: tail ∧
      (∃ line ∈ tail, isCommentLine (.ofLanguage (some language)) line = true ∧
        Gap.marks Gap.technicalMarkers line) ∧
      ∃ line ∈ tail, isCommentLine (.ofLanguage (some language)) line = true ∧
        Gap.marks Gap.simpleMarkers line := by
  have hblank : ∀ c ∈ e.indent.toList, Text.isBlank c = true := fun c hc => (he.indent_blank c hc).1
  obtain ⟨⟨technical, hmtechnical, hltechnical⟩, simple, hmsimple, hlsimple⟩ :=
    Synthesis.lowerCase_labels settings.synthesis.locale
  rw [blockLines_blockFor settings payload path language he,
    Synthesis.blockLines_sections, List.map_cons]
  refine ⟨_, _, rfl,
    ⟨_, List.mem_map_of_mem ?_, isCommentLine_labelLine hblank _ _ _,
      marks_labelLine hmtechnical hltechnical _ _ _⟩,
    ⟨_, List.mem_map_of_mem ?_, isCommentLine_labelLine hblank _ _ _,
      marks_labelLine hmsimple hlsimple _ _ _⟩⟩
  · simp [sectionLines, labelLine]
  · simp [sectionLines, labelLine]

theorem length_blockFor_le (he : e.WellFormed total) (returns : Bool) :
    (blockLines returns (settings.blockFor .empty path language e).content).length ≤ 8 := by
  obtain ⟨htechnical, hsimple⟩ := Synthesis.breaks_template he settings.synthesis.locale
  have htechnicalLines := length_sectionLines_le (.ofLanguage (some language)) e.indent.toList
    ⟨settings.synthesis.locale.technicalLabel,
      (Synthesis.template settings.synthesis.locale e).technical⟩
  have hsimpleLines := length_sectionLines_le (.ofLanguage (some language)) e.indent.toList
    ⟨settings.synthesis.locale.simpleLabel, (Synthesis.template settings.synthesis.locale e).simple⟩
  have htemplate : Synthesis.explanation settings.synthesis.locale e
      (Payload.empty.find? path e.name e.line) = Synthesis.template settings.synthesis.locale e :=
      rfl
  rw [blockLines_blockFor settings .empty path language he, htemplate, List.length_map,
    Synthesis.blockLines_sections]
  -- three lines for the technical text, two for the simple one, and those around and between them
  dsimp only at htechnicalLines hsimpleLines
  simp only [List.length_append, List.length_cons, List.length_nil]
  omega

end Block

end Settings

end DocGap
