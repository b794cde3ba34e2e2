import DocGap.Proofs.CommentLines

/-!
# Blocks name their elements

The name of an element is a word that survives whatever is done to a text before it becomes the
lines of a comment. So the block that is written for an element without a payload has a line with
its name, and a comment that starts there and goes on to the line of an insertion keeps another
block for that name away.
-/
namespace DocGap

namespace Text

section Word

variable {w cs : List Char}

theorem isInfix_dropWhile {p : Char → Bool} (hw : ∀ c ∈ w, p c = false) (h : w <:+: cs) :
    w <:+: cs.dropWhile p := by
  obtain ⟨as, bs, rfl⟩ := h
  cases w with
  | nil => exact List.nil_infix
  | cons c w =>
    have hc : p c = false := hw c List.mem_cons_self
    have hdrop : (as ++ c :: w ++ bs).dropWhile p = as.dropWhile p ++ c :: w ++ bs := by
      rw [List.append_assoc, List.dropWhile_append, List.cons_append,
        List.dropWhile_cons_of_neg (by simp [hc])]
      split <;> simp_all
    rw [hdrop]
    exact ⟨_, _, rfl⟩

theorem isInfix_dropEndWhile {p : Char → Bool} (hw : ∀ c ∈ w, p c = false) (h : w <:+: cs) :
    w <:+: dropEndWhile p cs := by
  rw [← List.reverse_infix, dropEndWhile, List.reverse_reverse]
  exact isInfix_dropWhile (by simpa using hw) (List.reverse_infix.2 h)

theorem isInfix_trim (hw : ∀ c ∈ w, isBlank c = false) (h : w <:+: cs) : w <:+: trim cs :=
  isInfix_dropEndWhile hw (isInfix_dropWhile hw h)

theorem isInfix_dropReturn (hw : '\r' ∉ w) (h : w <:+: cs) : w <:+: dropReturn cs := by
  unfold dropReturn
  split
  · next rest hrest =>
    rw [← List.reverse_infix, hrest, List.infix_cons_iff] at h
    rcases h with hstarts | h
    · rcases List.prefix_cons_iff.1 hstarts with hnil | ⟨front, hfront, -⟩
      · simp [List.reverse_eq_nil_iff.1 hnil]
      · exact absurd (List.mem_reverse.1 (hfront ▸ List.mem_cons_self)) hw
    · rwa [← List.reverse_infix, List.reverse_reverse]
  · exact h

theorem exists_piece_of_isInfix {mark : Char} (hw : mark ∉ w) (h : w <:+: cs) :
    ∃ piece ∈ pieces mark cs, w <:+: piece := by
  obtain ⟨as, bs, rfl⟩ := h
  rw [List.append_assoc]
  induction as with
  | nil =>
    obtain ⟨first, rest, hbs⟩ := List.exists_cons_of_ne_nil (pieces_ne_nil mark bs)
    rw [List.nil_append, pieces_append_of_not_mem hw hbs]
    exact ⟨_, List.mem_cons_self, (List.prefix_append w first).isInfix⟩
  | cons c as ih =>
    obtain ⟨piece, hmem, hpiece⟩ := ih
    obtain ⟨first, rest, hcs⟩ := List.exists_cons_of_ne_nil (pieces_ne_nil mark (as ++ (w ++ bs)))
    rw [List.cons_append]
    by_cases hc : c = mark
    · rw [hc, pieces_cons_mark]
      exact ⟨piece, List.mem_cons_of_mem _ hmem, hpiece⟩
    · rw [pieces_cons_of_ne hc hcs]
      rw [hcs] at hmem
      rcases List.mem_cons.1 hmem with rfl | hmem
      · exact ⟨_, List.mem_cons_self, hpiece.trans (List.suffix_cons c piece).isInfix⟩
      · exact ⟨piece, List.mem_cons_of_mem _ hmem, hpiece⟩

theorem exists_bodyLine_of_isInfix (hne : w ≠ []) (hfeed : '\n' ∉ w)
    (hreturn : '\r' ∉ w) (h : w <:+: cs) :
    ∃ line ∈ bodyLines cs, w <:+: line := by
  obtain ⟨piece, hmem, hpiece⟩ := exists_piece_of_isInfix hfeed h
  rw [bodyLines]
  change piece ∈ splitLines cs at hmem
  generalize splitLines cs = ls at hmem
  fun_induction bodyLines.close ls with
  | case1 => cases hmem
  | case2 last hempty =>
    rw [List.mem_singleton.1 hmem, List.isEmpty_iff.1 hempty, List.infix_nil] at hpiece
    exact absurd hpiece hne
  | case3 last hempty => exact ⟨piece, hmem, hpiece⟩
  | case4 line rest hrest ih =>
    rcases List.mem_cons.1 hmem with rfl | hmem
    · exact ⟨_, List.mem_cons_self, isInfix_dropReturn hreturn hpiece⟩
    · obtain ⟨found, hfound, hword⟩ := ih hmem
      exact ⟨found, List.mem_cons_of_mem _ hfound, hword⟩

theorem isInfix_of_append_cons {f : List Char → List Char} (hnil : f [] = [])
    (hf : ∀ c ∈ w, ∀ as bs, f (as ++ c :: bs) = f as ++ c :: f bs)
    (h : w <:+: cs) : w <:+: f cs := by
  obtain ⟨as, bs, rfl⟩ := h
  have hstarts : ∀ v, (∀ c ∈ v, c ∈ w) → f (v ++ bs) = v ++ f bs := by
    intro v hv
    induction v with
    | nil => rfl
    | cons c v ih =>
      have hc := hf c (hv c List.mem_cons_self) [] (v ++ bs)
      rw [List.nil_append, hnil, List.nil_append, ih fun d hd =>
        hv d (List.mem_cons_of_mem _ hd)] at hc
      exact hc
  cases w with
  | nil => exact List.nil_infix
  | cons c w =>
    rw [List.append_assoc, List.cons_append, hf c List.mem_cons_self,
      hstarts w fun d hd => List.mem_cons_of_mem _ hd]
    exact ⟨f as, f bs, by simp⟩

end Word

end Text

namespace Comment

theorem unifyLineEnds_append_cons {c : Char} (hfeed : c ≠ '\n') (hreturn : c ≠ '\r')
    (as bs : List Char) :
    unifyLineEnds (as ++ c :: bs) = unifyLineEnds as ++ c :: unifyLineEnds bs := by
  fun_induction unifyLineEnds as with
  | case1 as ih => simp [unifyLineEnds, ih]
  | case2 as hnext ih =>
    cases as with
    | nil => simp_all [unifyLineEnds]
    | cons d as => simp_all [unifyLineEnds]
  | case3 d as hfirst hsecond ih => simp_all [unifyLineEnds]
  | case4 => simp_all [unifyLineEnds]

theorem breakClosers_append_cons {c : Char} (hslash : c ≠ '/') (hstar : c ≠ '*')
    (as bs : List Char) :
    breakClosers (as ++ c :: bs) = breakClosers as ++ c :: breakClosers bs := by
  fun_induction breakClosers as with
  | case1 as ih => simp [breakClosers, ih]
  | case2 d as hnext ih =>
    cases as with
    | nil => simp_all [breakClosers]
    | cons e as => simp_all [breakClosers]
  | case3 => simp_all [breakClosers]

/-- Nothing is done to the word: it has no blanks, and nothing of what ends a comment. -/
def Plain (w : List Char) : Prop := ∀ c ∈ w, Text.isBlank c = false ∧ c ≠ '/' ∧ c ≠ '*'

namespace Plain

variable {w : List Char}

theorem of_isIdentifier (h : Grammar.isIdentifier w = true) : Plain w := by
  intro c hc
  have hpart := Grammar.isIdentifierPart_of_mem h hc
  have hblanks : Text.blanks.all (Grammar.isIdentifierPart · = false) = true := by decide
  refine ⟨Bool.eq_false_iff.2 fun hblank => ?_, ?_, ?_⟩
  · rw [of_decide_eq_true (List.all_eq_true.1 hblanks c (Text.mem_blanks hblank))] at hpart
    cases hpart
  · rintro rfl
    exact absurd hpart (by decide)
  · rintro rfl
    exact absurd hpart (by decide)

theorem not_mem (h : Plain w) {c : Char} (hc : Text.isBlank c = true) : c ∉ w := fun hmem => by
  rw [(h c hmem).1] at hc
  cases hc

theorem isInfix_sanitize (h : Plain w) {cs : List Char} (hpart : w <:+: cs) (style : Style) :
    w <:+: sanitize style cs := by
  have hunify : w <:+: unifyLineEnds cs := by
    refine Text.isInfix_of_append_cons rfl (fun c hc as bs => ?_) hpart
    apply unifyLineEnds_append_cons
    · exact fun heq => h.not_mem (by decide) (heq ▸ hc)
    · exact fun heq => h.not_mem (by decide) (heq ▸ hc)
  cases style with
  | hash => exact hunify
  | block =>
    rw [sanitize]
    refine Text.isInfix_of_append_cons rfl (fun c hc as bs => ?_) hunify
    exact breakClosers_append_cons (h c hc).2.1 (h c hc).2.2 as bs

theorem exists_sectionLine (h : Plain w) (hne : w ≠ []) {s : Section} (hpart : w <:+: s.body.toList)
    (style : Style) (indent : List Char) : ∃ l ∈ sectionLines style indent s, w <:+: l := by
  have hblank : ∀ c ∈ w, Text.isBlank c = false := fun c hc => (h c hc).1
  have htrim : w <:+: Text.trim (sanitize style s.body.toList) :=
    Text.isInfix_trim hblank (h.isInfix_sanitize hpart style)
  obtain ⟨line, hline, hword⟩ :=
    Text.exists_bodyLine_of_isInfix hne (h.not_mem (by decide)) (h.not_mem (by decide)) htrim
  refine ⟨_, List.mem_cons_of_mem _ (List.mem_map_of_mem hline), ?_⟩
  have hend : w <:+: Text.trimEnd line := Text.isInfix_dropEndWhile hblank hword
  unfold bodyLine
  split
  · next hempty =>
    rw [List.isEmpty_iff.1 hempty, List.infix_nil] at hend
    exact absurd hend hne
  · exact hend.trans ((List.suffix_cons _ _).trans (List.suffix_append _ _)).isInfix

end Plain

def Style.leaders : Style → List (List Char)
  | .block => [['/', '*'], ['*']]
  | .hash => [['#']]

theorem isCommentLine_iff {style : Style} {line : List Char} :
    isCommentLine style line = true ↔ ∃ leader ∈ style.leaders, leader <+: Text.trimStart line := by
  cases style with
  | block =>
    simp only [isCommentLine, looksLikeBlock, Style.leaders, List.mem_cons,
      List.not_mem_nil, or_false,
      exists_eq_or_imp, exists_eq_left]
    generalize Text.trimStart line = cs
    rcases cs with - | ⟨c, - | ⟨d, cs⟩⟩ <;> grind
  | hash =>
    simp only [isCommentLine, isHashLine, Style.leaders, List.mem_singleton, exists_eq_left]
    generalize Text.trimStart line = cs
    cases cs with
    | nil => simp
    | cons c cs => simp [eq_comm]

theorem isCommentLine_of_isPrefix {style : Style} {part line : List Char} (hpart : part <+: line)
    (h : isCommentLine style part = true) : isCommentLine style line = true := by
  obtain ⟨leader, hleader, hstarts⟩ := isCommentLine_iff.1 h
  have hne : leader ≠ [] := by
    rintro rfl
    revert hleader
    cases style <;> decide
  exact isCommentLine_iff.2 ⟨leader, hleader, Text.isPrefix_trimStart hne hstarts hpart⟩

theorem isCommentLine_start {style : Style} {start : String}
    (h : start ∈ [style.opening, style.continuation, style.closing]) :
    start.toList.getLast? ≠ some '\r' ∧ start.toList ≠ [] ∧
      isCommentLine style start.toList = true := by
  revert start
  cases style <;> decide

end Comment

namespace Plan

open Comment

theorem isCommentLine_of_mem_block {style : Style} {indent : String}
    {sections : List Section} {returns : Bool}
    (hindent : ∀ c ∈ indent.toList, Text.isBlank c = true ∧ c ≠ '\n')
    (hlabels : PlainLabels sections)
    {l : List Char} (h : l ∈ blockLines returns (render style indent sections)) :
    isCommentLine style l = true := by
  rw [blockLines_render returns (fun hn => (hindent _ hn).2 rfl) hlabels] at h
  obtain ⟨line, hline, rfl⟩ := List.mem_map.1 h
  obtain ⟨start, hstart, hprefix⟩ := exists_start_of_mem_blockLines hline
  obtain ⟨hlast, hne, hcomment⟩ := isCommentLine_start hstart
  have htrim : Text.trimStart (indent.toList ++ start.toList) = Text.trimStart start.toList :=
    List.dropWhile_append_of_pos fun c hc => (hindent c hc).1
  rw [isCommentLine_iff, ← htrim, ← isCommentLine_iff] at hcomment
  refine isCommentLine_of_isPrefix (isPrefix_endLine hprefix ?_) hcomment
  rwa [List.getLast?_append_of_ne_nil _ hne]

theorem isInfix_endLine {returns : Bool} {w line : List Char} (hw : '\r' ∉ w) (h : w <:+: line) :
    w <:+: endLine returns line := by
  have hdrop : w <:+: Text.dropEndWhile (· = '\r') line :=
    Text.isInfix_dropEndWhile (fun c hc => decide_eq_false fun heq => hw (heq ▸ hc)) h
  cases returns with
  | false => exact hdrop
  | true => exact hdrop.trans (List.prefix_append _ _).isInfix

/-- Every line of the block is a comment line, and one of them has the name of the target. -/
structure Names (style : Style) (i : Insertion) : Prop where
  comment : ∀ returns, ∀ l ∈ blockLines returns i.content, isCommentLine style l = true
  name : ∀ returns, ∃ l ∈ blockLines returns i.content, i.target.name.toList <:+: l

end Plan

theorem Outline.mem_documentable_of_covers {path : Path} {language : Language}
    {source : String} {e : Element}
    (h : e ∈ (Outline.ofSource path language source).everything) {options : Synthesis.Options}
    (hcovers : Synthesis.covers options e.kind = true) :
    e ∈ (Outline.ofSource path language source).documentable := by
  rw [everything_eq_flatMap] at h
  obtain ⟨kind, -, h⟩ := List.mem_flatMap.1 h
  obtain ⟨f, -, rfl, hkind⟩ := exists_finding_of_mem_elements kind h
  rw [show (Extraction.toElement language f).kind = kind from hkind] at hcovers
  cases kind with
  | function => exact List.mem_append_left _ h
  | classType => exact List.mem_append_right _ h
  | importPath => cases hcovers
  | exportName => cases hcovers

namespace Synthesis

theorem isInfix_withSignature (sentence label : String) (signature : Option String) :
    sentence.toList <:+: (withSignature sentence label signature).toList := by
  unfold withSignature
  split
  · exact List.infix_rfl
  · dsimp only
    split
    · exact List.infix_rfl
    · simp only [String.toList_append, List.append_assoc]
      exact (List.prefix_append _ _).isInfix

theorem name_isInfix_template (locale : Locale) (e : Element) :
    e.name.toList <:+: (template locale e).technical.toList := by
  have hsentence : ∀ a b : String, e.name.toList <:+: (a ++ e.name ++ b).toList := fun a b => by
    rw [String.toList_append, String.toList_append]
    exact List.infix_append _ _ _
  unfold template
  split
  · rw [String.append_assoc]
    exact hsentence _ _
  · rw [String.append_assoc]
    exact hsentence _ _
  · exact (hsentence _ _).trans (isInfix_withSignature _ _ _)
  · exact (hsentence _ _).trans (isInfix_withSignature _ _ _)

theorem names_of_insertion? {options : Options} {path : Path}
    {language : Language} {source : String}
    {e : Element} (he : e ∈ (Outline.ofSource path language source).everything) {i : Insertion}
    (hi : insertion? options (.ofSource path language source) e none = some i) :
    Plan.Names (.ofLanguage (some language)) i := by
  unfold insertion? at hi
  split at hi
  case isFalse => cases hi
  case isTrue hcovers =>
    rw [(Outline.text_ofSource path language source).2.1] at hi
    obtain rfl := Option.some.inj hi
    have hwell := Outline.wellFormed_of_mem_documentable
      (Outline.mem_documentable_of_covers he hcovers)
    have hplain := Comment.Plain.of_isIdentifier hwell.name
    have hlabels := plainLabels_sections options.locale (template options.locale e)
    have hne : e.name.toList ≠ [] := by
      intro hnil
      have hname := hwell.name
      rw [hnil] at hname
      cases hname
    refine ⟨fun returns l hl => Plan.isCommentLine_of_mem_block hwell.indent_blank hlabels hl,
      fun returns => ?_⟩
    obtain ⟨l, hl, hword⟩ := hplain.exists_sectionLine hne
      (s := ⟨options.locale.technicalLabel, (template options.locale e).technical⟩)
      (name_isInfix_template options.locale e) (.ofLanguage (some language)) e.indent.toList
    refine ⟨Plan.endLine returns l, ?_, Plan.isInfix_endLine (hplain.not_mem (by decide)) hword⟩
    have hblock : l ∈ Comment.blockLines (.ofLanguage (some language)) e.indent.toList
        (sections options.locale (template options.locale e)) := by
      rw [blockLines_sections]
      exact List.mem_cons_of_mem _ (List.mem_append_left _ hl)
    exact Plan.blockLines_render returns (fun hn => (hwell.indent_blank _ hn).2 rfl) hlabels ▸
      List.mem_map_of_mem hblock

end Synthesis

namespace Plan

open Comment

/-- A stack of comment lines that ends above the line and has the name keeps a block away, if the
scan reaches its first line. -/
theorem namedAbove_of_stack {style : Style} {window line : Nat}
    {lines front stack : List (List Char)}
    {name : String} (hlines : lines.take (line - 1) = front ++ stack) (hwindow : 1 ≤ window)
    (hfits : stack.length ≤ window + scanLimit)
    (hcomment : ∀ l ∈ stack, isCommentLine style l = true)
    (hname : ∃ l ∈ stack, name.toList <:+: l) :
    namedAbove style window (.inFrontOf line lines) name = true := by
  obtain ⟨l, hl, hword⟩ := hname
  have hpos : 0 < stack.length := List.length_pos_of_mem hl
  obtain ⟨near, hregion⟩ : ∃ near,
      ((Page.inFrontOf line lines).above.take (window + scanLimit)).reverse = near ++ stack := by
    rw [Page.above_inFrontOf, hlines, List.take_reverse, List.reverse_reverse, List.length_append,
      List.drop_append_of_le_length (by omega)]
    exact ⟨_, rfl⟩
  have hstop := congrArg List.length hregion
  rw [List.length_reverse, List.length_append] at hstop
  obtain ⟨r, hr, hstart, hend⟩ := exists_run_of_stretch (List.length_pos_iff.1 hpos) hcomment near
    ((Page.inFrontOf line lines).below.take scanLimit)
  obtain ⟨k, hk⟩ := List.mem_iff_getElem?.1 hl
  have hin : k < stack.length := (List.getElem?_eq_some_iff.1 hk).1
  have hmem : l ∈ r.of (near ++ stack ++ (Page.inFrontOf line lines).below.take scanLimit) := by
    refine Run.mem_of (k := near.length + k) ?_ (by omega) (by omega)
    rw [List.append_assoc, List.getElem?_append_right (by omega), Nat.add_sub_cancel_left,
      List.getElem?_append_left hin, hk]
  simp only [namedAbove, hstop, hregion]
  rw [if_neg (by omega)]
  refine List.any_eq_true.2
    ⟨r, hr, Bool.and_eq_true_iff.2 ⟨decide_eq_true ⟨by omega, by omega⟩, ?_⟩⟩
  exact List.any_eq_true.2 ⟨l, hmem, Text.contains_iff_isInfix.2 hword⟩

end Plan

end DocGap
