import DocGap.Plan
import DocGap.Proofs.CodeView

/-!
# Rendered blocks

The lines of a block are known: an opening line, labels and texts that cannot end a comment, and a
closing line. Cutting a rendered block into lines gives these lines back, with the line ends of the
text they go into.
-/
namespace DocGap.Comment

theorem Style.ofLanguage_eq_block {language : Language} (h : language.usesHashComments = false) :
    Style.ofLanguage (some language) = .block := by
  simp [Style.ofLanguage, h]

def Inner (cs : List Char) : Prop := ¬ ['*', '/'] <:+: cs

namespace Inner

variable {as bs cs : List Char} {c : Char}

theorem of_part (h : Inner cs) (hpart : as <:+: cs) : Inner as :=
  fun hclose => h (hclose.trans hpart)

theorem of_not_mem (h : '/' ∉ cs) : Inner cs := fun hclose => h (hclose.subset (by simp))

theorem of_cons (h : Inner (c :: cs)) : Inner cs := h.of_part (List.suffix_cons c cs).isInfix

theorem cons (h : Inner cs) (hc : ∀ r, c = '*' → cs ≠ '/' :: r) : Inner (c :: cs) := by
  intro hclose
  rcases List.infix_cons_iff.1 hclose with hstarts | hpart
  · obtain ⟨r, hr⟩ := hstarts
    simp only [List.cons_append, List.nil_append, List.cons.injEq] at hr
    exact hc r hr.1.symm hr.2.symm
  · exact h hpart

theorem append_cons (ha : Inner as) (hb : Inner bs) (hslash : c ≠ '/') (hstar : c ≠ '*') :
    Inner (as ++ c :: bs) := by
  induction as with
  | nil => exact hb.cons fun r hc => absurd hc hstar
  | cons x as ih =>
    refine (ih ha.of_cons).cons fun r hx => append_cons_ne_cons hslash (fun r hr => ?_) r
    subst hx hr
    exact ha ⟨[], r, rfl⟩

theorem scan (h : Inner cs) : after true cs = true ∧ code true cs = [] := by
  induction cs with
  | nil => exact ⟨rfl, rfl⟩
  | cons c cs ih =>
    have hc : ∀ r, c = '*' → cs ≠ '/' :: r := by
      rintro r rfl rfl
      exact h ⟨[], r, rfl⟩
    rw [after_inside hc, code_inside hc]
    exact ih h.of_cons

end Inner

theorem inner_breakClosers (cs : List Char) : Inner (breakClosers cs) := by
  fun_induction breakClosers cs with
  | case1 cs ih =>
    refine Inner.cons (Inner.cons (Inner.cons ih ?_) ?_) ?_ <;> simp
  | case2 c cs h ih =>
    refine ih.cons fun r hc hr => ?_
    -- the first character is kept, so that a slash in front was there before
    cases cs with
    | nil => simp [breakClosers] at hr
    | cons d ds =>
      have hd : d = '/' := by
        unfold breakClosers at hr
        split at hr <;> simp_all
      exact h ds hc (by rw [hd])
  | case3 => exact .of_not_mem (by simp)

theorem inner_sanitize (text : List Char) : Inner (sanitize .block text) := inner_breakClosers _

def labelLine (style : Style) (indent : List Char) (label : String) : List Char :=
  indent ++ style.continuation.toList ++ ' ' :: label.toList ++ [':']

theorem mem_bodyLines {style : Style} {indent l : List Char} {sections : List Section}
    (h : l ∈ bodyLines style indent sections) :
    ∃ s ∈ sections, l = labelLine style indent s.label ∨
      ∃ text, text <:+: sanitize style s.body.toList ∧ '\n' ∉ text ∧
        l = bodyLine style indent text := by
  have hsection : ∀ s, l ∈ sectionLines style indent s → l = labelLine style indent s.label ∨
      ∃ text, text <:+: sanitize style s.body.toList ∧ '\n' ∉ text ∧
        l = bodyLine style indent text := by
    intro s hs
    rcases List.mem_cons.1 hs with hlabel | htext
    · exact .inl hlabel
    · obtain ⟨line, hline, rfl⟩ := List.mem_map.1 htext
      have htrim : Text.trimEnd line <+: line := Text.dropEndWhile_isPrefix _ line
      refine .inr ⟨Text.trimEnd line, ?_, ?_, rfl⟩
      · exact htrim.isInfix.trans ((Text.bodyLines_isInfix hline).trans (Text.trim_isInfix _))
      · exact fun hn => Text.newline_not_mem_of_mem_bodyLines hline (htrim.subset hn)
  fun_induction bodyLines style indent sections with
  | case1 => cases h
  | case2 s => exact ⟨s, List.mem_cons_self, hsection s h⟩
  | case3 s rest hrest ih =>
    rcases List.mem_append.1 h with hs | h
    · exact ⟨s, List.mem_cons_self, hsection s hs⟩
    · rcases List.mem_cons.1 h with rfl | h
      · -- the empty line between two sections
        exact ⟨s, List.mem_cons_self, .inr ⟨[], List.nil_infix, by simp, rfl⟩⟩
      · obtain ⟨t, ht, hl⟩ := ih h
        exact ⟨t, List.mem_cons_of_mem _ ht, hl⟩

def PlainLabels (sections : List Section) : Prop :=
  ∀ s ∈ sections, '\n' ∉ s.label.toList ∧ Inner s.label.toList

/-- The marks of a comment hold no control characters, so that one in a block is a label's, a
text's or the indent's. -/
theorem not_mem_blockLines {style : Style} {indent l : List Char} {sections : List Section}
    {c : Char} (hcontrol : c.toNat < 32) (hindent : c ∉ indent)
    (hlabels : ∀ s ∈ sections, c ∉ s.label.toList)
    (htexts : ∀ s ∈ sections, ∀ text, text <:+: sanitize style s.body.toList → '\n' ∉ text →
      c ∉ text)
    (h : l ∈ blockLines style indent sections) : c ∉ l := by
  have hmark : ∀ mark : List Char, mark.all (32 ≤ ·.toNat) = true → c ∉ mark := fun mark hd hc =>
    absurd (of_decide_eq_true (List.all_eq_true.1 hd c hc)) (by omega)
  have hopening : c ∉ style.opening.toList := hmark _ (by cases style <;> rfl)
  have hcontinuation : c ∉ style.continuation.toList := hmark _ (by cases style <;> rfl)
  have hclosing : c ∉ style.closing.toList := hmark _ (by cases style <;> rfl)
  obtain ⟨hspace, hcolon⟩ : c ≠ ' ' ∧ c ≠ ':' := by simpa using hmark [' ', ':'] rfl
  simp only [blockLines, List.cons_append, List.mem_cons, List.mem_append,
    List.not_mem_nil, or_false] at h
  rcases h with rfl | h | rfl
  · simp [hindent, hopening]
  · obtain ⟨s, hs, rfl | ⟨text, htext, hfeed, rfl⟩⟩ := mem_bodyLines h
    · simp [labelLine, hindent, hcontinuation, hlabels s hs, hspace, hcolon]
    · have hnone := htexts s hs text htext hfeed
      unfold bodyLine
      split <;> simp [hindent, hcontinuation, hnone, hspace]
  · simp [hindent, hclosing]

theorem newline_not_mem_blockLines {style : Style} {indent l : List Char} {sections : List Section}
    (hindent : '\n' ∉ indent) (hlabels : PlainLabels sections)
    (h : l ∈ blockLines style indent sections) :
    '\n' ∉ l :=
  not_mem_blockLines (by decide) hindent (fun s hs => (hlabels s hs).1)
    (fun _ _ _ _ hfeed => hfeed) h

theorem inner_of_mem_bodyLines {indent l : List Char} {sections : List Section}
    (hindent : ∀ c ∈ indent, Text.isBlank c = true) (hlabels : PlainLabels sections)
    (h : l ∈ bodyLines .block indent sections) : Inner l := by
  have hinner : Inner (indent ++ ' ' :: ['*']) := by
    refine Inner.append_cons (.of_not_mem fun hslash => ?_) (.of_not_mem (by decide))
      (by decide) (by decide)
    exact absurd (hindent '/' hslash) (by decide)
  obtain ⟨s, hs, rfl | ⟨text, htext, -, rfl⟩⟩ := mem_bodyLines h
  · have hlabel : Inner (s.label.toList ++ [':']) :=
      (hlabels s hs).2.append_cons (.of_not_mem (by decide)) (by decide) (by decide)
    simpa [labelLine, Style.continuation] using hinner.append_cons hlabel (c := ' ')
      (by decide) (by decide)
  · unfold bodyLine
    split
    · exact hinner
    · have hpart : Inner text := (inner_sanitize _).of_part htext
      simpa [Style.continuation] using hinner.append_cons hpart (c := ' ') (by decide) (by decide)

end DocGap.Comment

namespace DocGap.Plan

open Comment

def endLine (returns : Bool) (line : List Char) : List Char :=
  if returns then Text.dropEndWhile (· = '\r') line ++ ['\r'] else Text.dropEndWhile (· = '\r') line

theorem blockLines_render {style : Style} {indent : String}
    {sections : List Section} (returns : Bool)
    (hindent : '\n' ∉ indent.toList) (hlabels : PlainLabels sections) :
    blockLines returns (render style indent sections) =
      (Comment.blockLines style indent.toList sections).map (endLine returns) := by
  have hsplit : Text.splitLines (Text.joinLines (Comment.blockLines style indent.toList sections)) =
      Comment.blockLines style indent.toList sections :=
    Text.splitLines_joinLines (by simp [Comment.blockLines])
      fun l hl => newline_not_mem_blockLines hindent hlabels hl
  rw [blockLines, render, String.toList_ofList, hsplit]
  rfl

theorem endLine_eq {returns : Bool} {line : List Char} (h : line.getLast? ≠ some '\r') :
    endLine returns line = line ++ if returns then ['\r'] else [] := by
  have hline : Text.dropEndWhile (· = '\r') line = line := Text.dropEndWhile_eq_self (by grind)
  cases returns <;> simp [endLine, hline]

theorem inner_endLine {returns : Bool} {line : List Char} (h : Inner line) :
    Inner (endLine returns line) := by
  have hdrop : Inner (Text.dropEndWhile (· = '\r') line) :=
    h.of_part (Text.dropEndWhile_isPrefix _ line).isInfix
  cases returns with
  | false => exact hdrop
  | true => exact hdrop.append_cons (.of_not_mem (by decide)) (by decide) (by decide)

theorem scan_inner_lines {lines : List (List Char)} (h : ∀ l ∈ lines, Inner l) :
    afterLines true lines = true ∧ codeLines true lines = [] := by
  induction lines with
  | nil => exact ⟨rfl, rfl⟩
  | cons line rest ih =>
    obtain ⟨hafter, hcode⟩ := (h line List.mem_cons_self).scan
    simpa [codeLines, hafter, hcode] using ih fun l hl => h l (List.mem_cons_of_mem _ hl)

/-- A block has no code and leaves no comment open, whether it is read inside a comment or not. -/
theorem scan_block {indent : String} {sections : List Section} (returns inside : Bool)
    (hindent : ∀ c ∈ indent.toList, Text.isBlank c = true ∧ c ≠ '\n')
    (hlabels : PlainLabels sections) :
    afterLines inside (blockLines returns (render .block indent sections)) = false ∧
      codeLines inside (blockLines returns (render .block indent sections)) = [] := by
  have hblank : ∀ c ∈ indent.toList, Text.isBlank c = true := fun c hc => (hindent c hc).1
  rw [blockLines_render returns (fun hn => (hindent _ hn).2 rfl) hlabels]
  obtain ⟨hopen, hnone⟩ : after inside (endLine returns (indent.toList ++ "/**".toList)) = true ∧
      code inside (endLine returns (indent.toList ++ "/**".toList)) = [] := by
    rw [endLine_eq (by simp), List.append_assoc]
    obtain ⟨hafter, hcode⟩ :=
      scan_blanks_append hblank inside ("/**".toList ++ if returns then ['\r'] else [])
    rw [hafter, hcode]
    -- inside a comment the opening line is no more than a part of it
    cases inside <;> cases returns <;> exact ⟨rfl, rfl⟩
  obtain ⟨hclosed, hlast⟩ : after true (endLine returns (indent.toList ++ " */".toList)) = false ∧
      code true (endLine returns (indent.toList ++ " */".toList)) = [] := by
    rw [endLine_eq (by simp), List.append_assoc]
    obtain ⟨hafter, hcode⟩ :=
      scan_blanks_append hblank true (" */".toList ++ if returns then ['\r'] else [])
    rw [hafter, hcode]
    cases returns <;> exact ⟨rfl, rfl⟩
  have hinner : ∀ l ∈ (Comment.bodyLines .block indent.toList sections).map
      (endLine returns), Inner l := by
    intro l hl
    obtain ⟨line, hline, rfl⟩ := List.mem_map.1 hl
    exact inner_endLine (inner_of_mem_bodyLines hblank hlabels hline)
  obtain ⟨hstay, hbody⟩ := scan_inner_lines hinner
  simp only [Comment.blockLines, Style.opening, Style.closing, List.cons_append, List.map_cons,
    List.map_append, List.map_nil, afterLines_cons, afterLines_append, codeLines,
      codeLines_append, hopen,
    hnone, hstay, hbody, hclosed, hlast, List.append_nil, afterLines_nil, and_self]

end DocGap.Plan
