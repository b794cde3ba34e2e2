import DocGap.Proofs.NamedBlocks

/-!
# A block is one comment

Nothing in a block but its last two characters ends a comment. Every line of a block is a comment
line, so that a block is a single run of them. A reader is outside of all comments behind a block,
even if the reading started inside one. No carriage return is left of the texts.
-/
namespace DocGap

namespace Text

theorem joinLines_cons_eq_flatMap (l : List Char) (ls : List (List Char)) :
    joinLines (l :: ls) = l ++ ls.flatMap ('\n' :: ·) := by
  induction ls generalizing l with
  | nil => simp [joinLines, joinWith]
  | cons next rest ih => rw [joinLines_cons l (by simp), ih, List.flatMap_cons, List.cons_append]

end Text

namespace Comment

theorem return_not_mem_unifyLineEnds (cs : List Char) : '\r' ∉ unifyLineEnds cs := by
  fun_induction unifyLineEnds cs with
  | case1 cs ih => simpa using ih
  | case2 cs h ih => simpa using ih
  | case3 c cs hpair hreturn ih =>
    rw [List.mem_cons, not_or]
    exact ⟨fun hc => hreturn hc.symm, ih⟩
  | case4 => simp

theorem mem_of_mem_breakClosers {c : Char} {cs : List Char} (h : c ∈ breakClosers cs) :
    c ∈ cs ∨ c = ' ' := by
  fun_induction breakClosers cs with
  | case1 cs ih => grind
  | case2 d cs hnext ih => grind
  | case3 => cases h

theorem return_not_mem_sanitize (style : Style) (cs : List Char) : '\r' ∉ sanitize style cs := by
  cases style with
  | block =>
    intro h
    rcases mem_of_mem_breakClosers h with h | h
    · exact return_not_mem_unifyLineEnds cs h
    · exact absurd h (by decide)
  | hash => exact return_not_mem_unifyLineEnds cs

section Block

variable {style : Style} {sections : List Section}

theorem return_not_mem_blockLines {indent l : List Char} (hindent : '\r' ∉ indent)
    (hlabels : ∀ s ∈ sections, '\r' ∉ s.label.toList)
    (h : l ∈ blockLines style indent sections) : '\r' ∉ l := by
  refine not_mem_blockLines (by decide) hindent hlabels (fun s hs text htext hfeed hmem => ?_) h
  exact return_not_mem_sanitize style _ (htext.subset hmem)

variable {indent : String}

theorem splitLines_render (hindent : '\n' ∉ indent.toList) (hlabels : PlainLabels sections) :
    Text.splitLines (render style indent sections).toList =
      blockLines style indent.toList sections := by
  rw [render, String.toList_ofList]
  exact Text.splitLines_joinLines (by simp [blockLines]) fun l hl =>
    newline_not_mem_blockLines hindent hlabels hl

theorem return_not_mem_render (hindent : '\r' ∉ indent.toList)
    (hlabels : ∀ s ∈ sections, '\r' ∉ s.label.toList) : '\r' ∉
    (render style indent sections).toList := by
  rw [render, String.toList_ofList]
  intro h
  rcases Text.mem_joinWith h with h | ⟨l, hl, h⟩
  · exact absurd h (by decide)
  · exact return_not_mem_blockLines hindent hlabels hl h

end Block

theorem blockLines_of_not_mem {content : String} (h : '\r' ∉ content.toList) :
    Plan.blockLines false content = Text.splitLines content.toList := by
  change (Text.splitLines content.toList).map (Plan.endLine false) = _
  refine (List.map_congr_left fun l hl => ?_).trans (List.map_id _)
  have hpart : l <:+: content.toList := (Text.pieces_isInfix content.toList).2 l hl
  have hlast : l.getLast? ≠ some '\r' := fun hl => h (hpart.subset (List.mem_of_getLast? hl))
  have hend : Plan.endLine false l = _ := Plan.endLine_eq hlast
  simpa using hend

/-- All of a block from `/*` to `*/` but its last three characters. -/
def beforeEnd (indent : List Char) (sections : List Section) : List Char :=
  indent ++ "/**".toList ++ (bodyLines .block indent sections ++ [indent]).flatMap ('\n' :: ·)

theorem toList_render_block (indent : String) (sections : List Section) :
    (render .block indent sections).toList = beforeEnd indent.toList sections ++ " */".toList := by
  rw [render, String.toList_ofList, blockLines, List.cons_append,
    Text.joinLines_cons_eq_flatMap, beforeEnd,
    List.flatMap_append, List.flatMap_append, List.flatMap_singleton, List.flatMap_singleton]
  simp [Style.opening, Style.closing]

theorem Inner.append_lines {cs : List Char} {ls : List (List Char)} (hcs : Inner cs)
    (hls : ∀ l ∈ ls, Inner l) :
    Inner (cs ++ ls.flatMap ('\n' :: ·)) := by
  induction ls generalizing cs with
  | nil => simpa using hcs
  | cons l ls ih =>
    have hfirst : Inner (cs ++ '\n' :: l) :=
      hcs.append_cons (hls l List.mem_cons_self) (by decide) (by decide)
    simpa using ih hfirst fun m hm => hls m (List.mem_cons_of_mem _ hm)

theorem Inner.blanks_append {blanks cs : List Char} (hblanks : ∀ c ∈ blanks, Text.isBlank c = true)
    (h : Inner cs) : Inner (blanks ++ cs) := by
  induction blanks with
  | nil => exact h
  | cons c blanks ih =>
    have hstar : c ≠ '*' := ne_of_isBlank (hblanks c List.mem_cons_self) (by decide)
    exact (ih fun d hd => hblanks d (List.mem_cons_of_mem _ hd)).cons fun r hc => absurd hc hstar

theorem Inner.eq_of_append_closer {inner before behind : List Char} (h : Inner (inner ++ ['*']))
    (heq : inner ++ ['*', '/'] = before ++ ['*', '/'] ++ behind) :
    before = inner ∧ behind = [] := by
  rcases List.eq_nil_or_concat behind with rfl | ⟨init, last, rfl⟩
  · rw [List.append_nil] at heq
    exact ⟨(List.append_cancel_right heq).symm, rfl⟩
  · -- the other end would be finished before the last character
    have hinit : inner ++ ['*'] = before ++ ['*', '/'] ++ init := by
      have hconcat : inner ++ ['*'] ++ ['/'] = before ++ ['*', '/'] ++ init ++ [last] := by
        simpa using heq
      exact List.append_inj_left' hconcat rfl
    exact absurd ⟨before, init, hinit.symm⟩ h

theorem inner_beforeEnd {indent : List Char} {sections : List Section}
    (hindent : ∀ c ∈ indent, Text.isBlank c = true) (hlabels : PlainLabels sections) :
    Inner (beforeEnd indent sections) := by
  have hopening : Inner (indent ++ "/**".toList) := .blanks_append hindent (by unfold Inner; decide)
  refine hopening.append_lines fun l hl => ?_
  rcases List.mem_append.1 hl with hl | hl
  · exact inner_of_mem_bodyLines hindent hlabels hl
  · rw [List.mem_singleton.1 hl, ← List.append_nil indent]
    exact .blanks_append hindent (.of_not_mem List.not_mem_nil)

theorem inner_beforeEnd_star {indent : List Char} {sections : List Section}
    (hindent : ∀ c ∈ indent, Text.isBlank c = true) (hlabels : PlainLabels sections) :
    Inner (beforeEnd indent sections ++ ' ' :: ['*']) :=
  (inner_beforeEnd hindent hlabels).append_cons (.of_not_mem (by decide)) (by decide) (by decide)

theorem flags_eq_replicate {style : Style} {lines : List (List Char)}
    (h : ∀ l ∈ lines, isCommentLine style l = true) :
    flags style lines = List.replicate lines.length true := by
  cases style with
  | block =>
    have hall : ∀ inside, blockFlags inside lines = List.replicate lines.length true := by
      induction lines with
      | nil => exact fun _ => rfl
      | cons line rest ih =>
        intro inside
        have hline : looksLikeBlock line = true := h line List.mem_cons_self
        simp [blockFlags, hline, ih (fun l hl => h l (List.mem_cons_of_mem _ hl)),
          List.replicate_succ]
    exact hall false
  | hash => exact List.map_eq_replicate_iff.2 h

theorem runsFrom_replicate (i start n : Nat) :
    runsFrom i (some start) (List.replicate n true) = [⟨start, i + n⟩] := by
  induction n generalizing i with
  | zero => rfl
  | succ n ih =>
    rw [List.replicate_succ, runsFrom, Option.getD_some, ih]
    congr 2
    omega

theorem runs_of_forall {style : Style} {lines : List (List Char)} (hne : lines ≠ [])
    (h : ∀ l ∈ lines, isCommentLine style l = true) : runs style lines = [⟨0, lines.length⟩] := by
  obtain ⟨line, rest, rfl⟩ := List.exists_cons_of_ne_nil hne
  rw [runs, flags_eq_replicate h, List.length_cons, List.replicate_succ, runsFrom, Option.getD_none,
    runsFrom_replicate]
  congr 2
  omega

/-- A rendered block is one comment. No carriage return is left in it. A block from `/*` to `*/` is
closed by its last two characters and nowhere before, all its lines start as comment lines do, they
form a single run, and a reader who comes to it inside or outside a comment is outside behind it.
Otherwise every line starts with `#`. -/
theorem render_single_comment (indent : String) (sections : List Section)
    (hindent : ∀ c ∈ indent.toList, c = ' ' ∨ c = '\t') (hlabels : PlainLabels sections)
    (hreturns : ∀ s ∈ sections, '\r' ∉ s.label.toList) :
    (∀ style, '\r' ∉ (render style indent sections).toList) ∧
    (let block := (render .block indent sections).toList
     let lines := Text.splitLines block
     (∃ inner, block = inner ++ ['*', '/'] ∧
       ∀ before behind, block = before ++ ['*', '/'] ++ behind → before = inner ∧ behind = []) ∧
     (∀ l ∈ lines, ∃ start ∈ ["/**", " *"], indent.toList ++ start.toList <+: l) ∧
     runs .block lines = [⟨0, lines.length⟩] ∧
     ∀ inside, afterLines inside lines = false) ∧
    ∀ l ∈ Text.splitLines (render .hash indent sections).toList, indent.toList ++ ['#'] <+: l := by
  have hblank : ∀ c ∈ indent.toList, Text.isBlank c = true ∧ c ≠ '\n' := by
    intro c hc
    rcases hindent c hc with rfl | rfl <;> decide
  have hfeed : '\n' ∉ indent.toList := fun hmem => (hblank _ hmem).2 rfl
  have hnone : ∀ style, '\r' ∉ (render style indent sections).toList := fun style =>
    return_not_mem_render (fun hmem => by simpa using hindent _ hmem) hreturns
  have hread := blockLines_of_not_mem (hnone .block)
  have hblock : (render .block indent sections).toList = beforeEnd indent.toList sections ++
      [' '] ++ ['*', '/'] := by
    rw [toList_render_block]
    simp
  refine ⟨hnone, ⟨⟨_, hblock, fun before behind heq => ?_⟩, fun l hl => ?_, ?_, fun inside => ?_⟩,
    fun l hl => ?_⟩
  · have hends := inner_beforeEnd_star (fun c hc => (hblank c hc).1) hlabels
    refine Inner.eq_of_append_closer ?_ (hblock.symm.trans heq)
    simpa using hends
  · rw [splitLines_render hfeed hlabels] at hl
    have hshort : ∀ start ∈ [Style.block.opening, Style.block.continuation, Style.block.closing],
        ∃ short ∈ ["/**", " *"], short.toList <+: start.toList := by decide
    obtain ⟨start, hstart, hprefix⟩ := exists_start_of_mem_blockLines hl
    obtain ⟨short, hshort, hstarts⟩ := hshort start hstart
    exact ⟨short, hshort, ((List.prefix_append_right_inj _).2 hstarts).trans hprefix⟩
  · refine runs_of_forall (Text.splitLines_ne_nil _) fun l hl => ?_
    exact Plan.isCommentLine_of_mem_block hblank hlabels (hread ▸ hl)
  · rw [← hread]
    exact (Plan.scan_block false inside hblank hlabels).1
  · rw [splitLines_render hfeed hlabels] at hl
    obtain ⟨start, hstart, hprefix⟩ := exists_start_of_mem_blockLines hl
    obtain rfl : start = "#" := by
      simpa [Style.opening, Style.continuation, Style.closing] using hstart
    exact hprefix

/-- Texts that would end or open comments, with line ends of every sort. -/
def hostile : List Section := [⟨"/* a", "*/\r**/\r\n*\n/"⟩, ⟨"b", ""⟩]

theorem hostile_single_comment :
    (∀ c ∈ "\t ".toList, c = ' ' ∨ c = '\t') ∧ PlainLabels hostile ∧
      (∀ s ∈ hostile, '\r' ∉ s.label.toList) ∧
      runs .block (Text.splitLines (render .block "\t " hostile).toList) = [⟨0, 9⟩] ∧
        ∀ inside, afterLines inside
          (Text.splitLines (render .block "\t " hostile).toList) = false := by
  have hindent : ∀ c ∈ "\t ".toList, c = ' ' ∨ c = '\t' := by simp
  have hlabels : PlainLabels hostile := by unfold PlainLabels Inner; decide
  have hreturns : ∀ s ∈ hostile, '\r' ∉ s.label.toList := by decide
  have hlength : (Text.splitLines (render .block "\t " hostile).toList).length = 9 := by
    rw [splitLines_render (by decide) hlabels]
    decide
  obtain ⟨-, ⟨-, -, hruns, hread⟩, -⟩ :=
    render_single_comment "\t " hostile hindent hlabels hreturns
  exact ⟨hindent, hlabels, hreturns, hlength ▸ hruns, hread⟩

end Comment

end DocGap
