import Mathlib.Algebra.GroupWithZero.Nat
import Mathlib.Data.List.Induction
import DocGap.Proofs.Leads
import DocGap.Proofs.Merge
import DocGap.Proofs.Templates

/-!
# Comment lines declare nothing

An element on a line with a comment leader would start behind the leader, and such an element is
refused. Every line of a block has a comment leader, so that no element is found among the blocks of
a plan. A byte order mark may stand in front of the leader on the first line, but there the block
has nothing that an element starts with.
-/
namespace DocGap

namespace Text

theorem byteLength_le_of_isPrefix {as bs : List Char} (h : as <+: bs) :
    byteLength as ≤ byteLength bs := by
  obtain ⟨cs, rfl⟩ := h
  rw [byteLength_append]
  omega

def linesLength (lines : List (List Char)) : Nat := (lines.map fun l => byteLength l + 1).sum

theorem linesLength_eq {lines : List (List Char)} (h : lines ≠ []) :
    linesLength lines = byteLength (joinLines lines) + 1 := by
  induction lines with
  | nil => exact absurd rfl h
  | cons line rest ih =>
    cases rest with
    | nil => simp [linesLength, joinLines, joinWith]
    | cons next rest =>
      have hrest := ih (by simp)
      have hfeed : '\n'.utf8Size = 1 := rfl
      rw [joinLines_cons line (by simp), byteLength_append, byteLength_cons, hfeed,
        linesLength, List.map_cons,
        List.sum_cons, ← linesLength, hrest]
      omega

theorem isPrefix_of_splitLines {part cs line : List Char}
    {after : List (List Char)} (h : part <+: cs)
    (hpart : '\n' ∉ part) (hcs : splitLines cs = line :: after) : part <+: line := by
  obtain ⟨rest, rfl⟩ := h
  obtain ⟨first, more, hrest⟩ := List.exists_cons_of_ne_nil (splitLines_ne_nil rest)
  have hline : part ++ first = line := by
    rw [splitLines, pieces_append_of_not_mem hpart hrest] at hcs
    exact (List.cons.inj hcs).1
  exact hline ▸ List.prefix_append part first

theorem isPrefix_append_cases {part as bs : List Char} (h : part <+: as ++ bs) :
    part <+: as ∨ ∃ c excess, c :: excess <+: bs ∧ part = as ++ c :: excess := by
  rcases List.prefix_or_prefix_of_prefix h (List.prefix_append as bs) with hshort | ⟨excess, rfl⟩
  · exact .inl hshort
  · cases excess with
    | nil => exact .inl (by simp)
    | cons c excess => exact .inr ⟨c, excess, (List.prefix_append_right_inj as).1 h, rfl⟩

theorem isPrefix_trimStart {leader as bs : List Char} (hne : leader ≠ [])
    (h : leader <+: trimStart as)
    (hpart : as <+: bs) : leader <+: trimStart bs := by
  obtain ⟨rest, rfl⟩ := hpart
  have hcons : (as.dropWhile isBlank).isEmpty = false := by
    apply List.isEmpty_eq_false_iff.2
    intro hnil
    rw [trimStart, hnil, List.prefix_nil] at h
    exact hne h
  rw [trimStart, List.dropWhile_append, hcons]
  exact h.trans (List.prefix_append _ _)

theorem isPrefix_dropEndWhile {p : Char → Bool} {part cs : List Char} (h : part <+: cs)
    (hlast : ∀ c ∈ part.getLast?, p c = false) : part <+: dropEndWhile p cs := by
  obtain ⟨rest, rfl⟩ := h
  induction rest using List.reverseRecOn with
  | nil =>
    have hself : dropEndWhile p part = part := dropEndWhile_eq_self hlast
    simp [hself]
  | append_singleton rest c ih =>
    cases hc : p c with
    | true => simpa [dropEndWhile, hc] using ih
    | false =>
      rw [dropEndWhile_eq_self (by simpa using hc)]
      exact List.prefix_append _ _

/-- A leader at the start of the line ends before a character that it does not have, and before the
blanks in front of that one. -/
theorem leader_isPrefix {cs front gap more leader : List Char} {y : Char}
    (hcs : cs = front ++ gap ++ y :: more)
    (hgap : ∀ c ∈ gap, isBlank c = true) (hy : isBlank y = false)
    (hleader : ∀ c ∈ leader, isBlank c = false)
    (hmem : y ∉ leader) (hne : leader ≠ []) (h : leader <+: trimStart cs) :
    cs.takeWhile isBlank ++ leader <+: front := by
  have hwhole : cs.takeWhile isBlank ++ leader <+: front ++ gap ++ y :: more := by
    rw [← hcs]
    have happend := (List.prefix_append_right_inj (cs.takeWhile isBlank)).2 h
    rwa [trimStart, List.takeWhile_append_dropWhile] at happend
  rcases isPrefix_append_cases hwhole with hshort | ⟨c, excess, hexcess, hpart⟩
  · rcases isPrefix_append_cases hshort with hdone | ⟨c, excess, hexcess, hpart⟩
    · exact hdone
    · -- the leader would end in the gap, with a blank
      have hlast := congrArg List.getLast? hpart
      rw [List.getLast?_append, List.getLast?_append, List.getLast?_eq_some_getLast hne] at hlast
      have hblank := hgap (leader.getLast hne)
        (hexcess.subset (List.mem_of_getLast? (by simpa using hlast.symm)))
      rw [hleader _ (List.getLast_mem hne)] at hblank
      cases hblank
  · have hfirst : c = y := (List.cons_prefix_cons.1 hexcess).1
    have hin : y ∈ cs.takeWhile isBlank ++ leader := by
      rw [hpart, hfirst]
      simp
    rcases List.mem_append.1 hin with hblank | hin
    · rw [List.mem_takeWhile_imp hblank] at hy
      cases hy
    · exact absurd hin hmem

end Text

theorem Spot.Stands.exists_line {text above lead : List Char} {s : Spot}
    (h : s.Stands text above lead) :
    ∃ before line after, Text.splitLines text = before ++ line :: after ∧
      Text.splitLines (lead ++ s.rest) = line :: after ∧ s.line.number = before.length + 1 ∧
        Text.linesLength before = Text.byteLength above := by
  obtain ⟨line, after, hline⟩ :=
    List.exists_cons_of_ne_nil (Text.splitLines_ne_nil (lead ++ s.rest))
  rcases List.eq_nil_or_concat above with rfl | ⟨init, last, rfl⟩
  · exact ⟨[], line, after, h.text_eq ▸ hline, hline, h.number_eq, rfl⟩
  · have hlast : last = '\n' := by simpa using h.above_end
    refine ⟨Text.splitLines init, line, after, ?_, hline, ?_, ?_⟩
    · rw [h.text_eq, hlast, List.concat_eq_append, List.append_assoc, List.singleton_append,
        Text.splitLines_append_newline, hline]
    · rw [h.number_eq, hlast, List.concat_eq_append, List.count_append, Text.splitLines,
        Text.length_pieces]
      rfl
    · rw [Text.linesLength_eq (Text.splitLines_ne_nil init), Text.joinLines_splitLines, hlast,
        List.concat_eq_append, Text.byteLength_append]
      rfl

structure Element.OnLine (text : List Char) (e : Element) (before : List (List Char))
    (line : List Char) :
    Prop where
  lines : ∃ after, Text.splitLines text = before ++ line :: after
  number : e.line = before.length + 1
  start : Text.linesLength before ≤ e.offset
  stop : e.offset ≤ Text.linesLength before + Text.byteLength line

theorem Element.OnLine.getElem?_eq {text line : List Char} {e : Element} {before : List (List Char)}
    (h : e.OnLine text before line) : (Text.splitLines text)[before.length]? = some line := by
  obtain ⟨after, hlines⟩ := h.lines
  rw [hlines, List.getElem?_append_right (Nat.le_refl _), Nat.sub_self, List.getElem?_cons_zero]

section Anchored

variable {language : Language} {lead rest line : List Char}

theorem isBlank_of_isGap {c : Char} (h : Rule.isGap c = true) :
    Text.isBlank c = true ∧ c ≠ '\n' := by
  simp only [Rule.isGap, Bool.or_eq_true, decide_eq_true_eq] at h
  rcases h with rfl | rfl <;> decide

theorem Language.isBlank_of_not_mem_foreign {y : Char} (h : y ∉ language.foreign) :
    Text.isBlank y = false := by
  cases hy : Text.isBlank y with
  | false => rfl
  | true => exact absurd (language.mem_foreign_of_isBlank hy) h

theorem Anchored.exists_mem (h : Anchored language lead rest) (hlead : '\n' ∉ lead)
    {after : List (List Char)}
    (hline : Text.splitLines (lead ++ rest) = line :: after) :
    ∃ y ∈ line, y ∉ language.foreign := by
  obtain ⟨front, gap, y, more, hcs, hfront, hgap, hy⟩ := h
  have hpart : front ++ gap ++ [y] <+: lead ++ rest := ⟨more, by rw [hcs]; simp⟩
  have hfeed : '\n' ∉ front ++ gap ++ [y] := by
    simp only [List.mem_append, List.mem_singleton, not_or]
    refine ⟨⟨fun hmem => hlead (hfront.subset hmem), fun hmem =>
      (isBlank_of_isGap (hgap _ hmem)).2 rfl⟩, ?_⟩
    rintro rfl
    exact hy (language.mem_foreign_of_isBlank (by decide))
  exact ⟨y, (Text.isPrefix_of_splitLines hpart hfeed hline).subset (by simp), hy⟩

theorem Anchored.leader_isPrefix (h : Anchored language lead rest) {leader : String}
    (hleader : leader ∈ language.commentLeaders)
    (hstarts : leader.toList <+: Text.trimStart (lead ++ rest)) :
    (lead ++ rest).takeWhile Text.isBlank ++ leader.toList <+: lead := by
  obtain ⟨front, gap, y, more, hcs, hfront, hgap, hy⟩ := h
  obtain ⟨hne, hsolid⟩ := Language.solid_of_mem_leader hleader
  rw [← List.append_assoc] at hcs
  refine (Text.leader_isPrefix hcs ?_
    (Language.isBlank_of_not_mem_foreign hy) hsolid ?_ hne hstarts).trans hfront
  · exact fun c hc => (isBlank_of_isGap (hgap c hc)).1
  · exact fun hmem => hy (Language.mem_foreign_of_mem_leader hleader hmem)

theorem not_leader_of_anchored {text above : List Char} {s : Spot} (hs : s.Stands text above lead)
    (hanchored : Anchored language lead s.rest)
    (hoff : Extraction.standsInComment language s = false)
    (hline : line <+: lead ++ s.rest) {leader : String}
    (hleader : leader ∈ language.commentLeaders) :
    ¬ leader.toList <+: Text.trimStart line := by
  intro hstarts
  have hwhole := Text.isPrefix_trimStart (Language.solid_of_mem_leader hleader).1 hstarts hline
  have hends := Text.byteLength_le_of_isPrefix (hanchored.leader_isPrefix hleader hwhole)
  rw [Text.byteLength_append] at hends
  have hcolumn : s.column = Text.byteLength lead := by
    rw [Spot.column, hs.offset_eq, hs.line_offset, Nat.add_sub_cancel_left]
  -- the leader ends before the spot, which is refused
  have hin : Extraction.standsInComment language s = true := by
    refine List.any_eq_true.2 ⟨leader, hleader, Bool.and_eq_true_iff.2 ⟨?_, decide_eq_true ?_⟩⟩
    · rw [hs.line_text]
      exact List.isPrefixOf_iff_prefix.2 hwhole
    · rw [hs.line_text, hcolumn]
      exact hends
  rw [hin] at hoff
  cases hoff

end Anchored

theorem Extraction.onLine_of_mem_findings {language : Language} {text : List Char} {f : Finding}
    (h : f ∈ findings language text) :
    ∃ before line, (toElement language f).OnLine text before line ∧
      (∀ leader ∈ language.commentLeaders, ¬ leader.toList <+: Text.trimStart line) ∧
        ∃ y ∈ line, y ∉ language.foreign := by
  obtain ⟨above, lead, hs, hanchored, hoff⟩ := anchored_of_mem_findings h
  obtain ⟨before, line, after, hlines, hline, hnumber, hbytes⟩ := hs.exists_line
  have hlead : lead <+: line :=
    Text.isPrefix_of_splitLines (List.prefix_append _ _) hs.lead_line hline
  have hwhole : line <+: lead ++ f.spot.rest :=
    (Text.pieces_isInfix (lead ++ f.spot.rest)).1 line (by rw [← Text.splitLines, hline]; rfl)
  have hle := Text.byteLength_le_of_isPrefix hlead
  have hoffset : (toElement language f).offset = Text.byteLength above + Text.byteLength lead :=
    hs.offset_eq
  refine ⟨before, line, ⟨⟨after, hlines⟩, hnumber, by omega, by omega⟩, ?_,
    hanchored.exists_mem hs.lead_line hline⟩
  exact fun leader hleader => not_leader_of_anchored hs hanchored hoff hwhole hleader

namespace Comment

theorem exists_start_of_mem_blockLines {style : Style} {indent l : List Char}
    {sections : List Section}
    (h : l ∈ blockLines style indent sections) :
    ∃ start ∈ [style.opening, style.continuation, style.closing], indent ++ start.toList <+: l := by
  simp only [blockLines, List.cons_append, List.mem_cons, List.mem_append,
    List.not_mem_nil, or_false] at h
  rcases h with rfl | h | rfl
  · exact ⟨style.opening, by simp, List.prefix_rfl⟩
  · refine ⟨style.continuation, by simp, ?_⟩
    obtain ⟨s, hs, rfl | ⟨text, -, -, rfl⟩⟩ := mem_bodyLines h
    · rw [labelLine, List.append_assoc]
      exact List.prefix_append _ _
    · unfold bodyLine
      split
      · exact List.prefix_rfl
      · exact List.prefix_append _ _
  · exact ⟨style.closing, by simp, List.prefix_rfl⟩

theorem leader_of_start {language : Language} {style : Style}
    (hstyle : style = .ofLanguage (some language))
    {start : String} (h : start ∈ [style.opening, style.continuation, style.closing]) :
    start.toList.getLast? ≠ some '\r' ∧ start.toList ≠ [] ∧
      ∃ leader ∈ language.commentLeaders, leader.toList <+: Text.trimStart start.toList := by
  subst hstyle
  revert start
  cases language <;> decide

theorem mem_foreign_of_mem_opening {language : Language} {c : Char}
    (h : c ∈ (Style.ofLanguage (some language)).opening.toList) : c ∈ language.foreign := by
  have hall : (Style.ofLanguage (some language)).opening.toList.all (fun c =>
      language.commentLeaders.any fun leader => leader.toList.contains c) = true := by
    cases language <;> decide
  obtain ⟨leader, hleader, hc⟩ := List.any_eq_true.1 (List.all_eq_true.1 hall c h)
  exact Language.mem_foreign_of_mem_leader hleader (by simpa using hc)

end Comment

namespace Plan

open Comment

section Block

variable {language : Language} {indent : String} {sections : List Section}

theorem isPrefix_endLine {returns : Bool} {part line : List Char} (h : part <+: line)
    (hlast : part.getLast? ≠ some '\r') : part <+: endLine returns line := by
  have hdrop : part <+: Text.dropEndWhile (· = '\r') line :=
    Text.isPrefix_dropEndWhile h fun c hc => decide_eq_false fun heq => hlast (heq ▸ hc)
  cases returns with
  | false => exact hdrop
  | true => exact hdrop.trans (List.prefix_append _ _)

theorem mem_of_mem_endLine {returns : Bool} {line : List Char} {c : Char}
    (h : c ∈ endLine returns line) :
    c ∈ line ∨ c = '\r' := by
  have hdrop : Text.dropEndWhile (· = '\r') line <+: line := Text.dropEndWhile_isPrefix _ line
  cases returns with
  | false => exact .inl (hdrop.subset h)
  | true =>
    rcases List.mem_append.1 h with h | h
    · exact .inl (hdrop.subset h)
    · exact .inr (List.mem_singleton.1 h)

theorem exists_leader_of_mem_block {returns : Bool}
    (hindent : ∀ c ∈ indent.toList, Text.isBlank c = true ∧ c ≠ '\n')
    (hlabels : PlainLabels sections)
    {l : List Char}
    (h : l ∈ blockLines returns (render (.ofLanguage (some language)) indent sections)) :
    ∃ leader ∈ language.commentLeaders, leader.toList <+: Text.trimStart l := by
  rw [blockLines_render returns (fun hn => (hindent _ hn).2 rfl) hlabels] at h
  obtain ⟨line, hline, rfl⟩ := List.mem_map.1 h
  obtain ⟨start, hstart, hprefix⟩ := exists_start_of_mem_blockLines hline
  obtain ⟨hlast, hne, leader, hleader, hleads⟩ := leader_of_start rfl hstart
  have htrim : Text.trimStart (indent.toList ++ start.toList) = Text.trimStart start.toList :=
    List.dropWhile_append_of_pos fun c hc => (hindent c hc).1
  have hwhole : indent.toList ++ start.toList <+: endLine returns line :=
    isPrefix_endLine hprefix (by rwa [List.getLast?_append_of_ne_nil _ hne])
  rw [← htrim] at hleads
  exact ⟨leader, hleader,
    Text.isPrefix_trimStart (Language.solid_of_mem_leader hleader).1 hleads hwhole⟩

theorem mem_foreign_of_mem_first_line {returns : Bool}
    (hindent : ∀ c ∈ indent.toList, Text.isBlank c = true ∧ c ≠ '\n')
    (hlabels : PlainLabels sections)
    {l : List Char}
    (h : (blockLines returns (render (.ofLanguage (some language)) indent sections))[0]? = some l)
    {c : Char} (hc : c ∈ l) : c ∈ language.foreign := by
  rw [blockLines_render returns (fun hn => (hindent _ hn).2 rfl) hlabels] at h
  have hl : endLine returns
      (indent.toList ++ (Style.ofLanguage (some language)).opening.toList) = l := by
    simpa [Comment.blockLines] using h
  rw [← hl] at hc
  rcases mem_of_mem_endLine hc with hc | rfl
  · rcases List.mem_append.1 hc with hc | hc
    · exact language.mem_foreign_of_isBlank (hindent c hc).1
    · exact mem_foreign_of_mem_opening hc
  · exact language.mem_foreign_of_isBlank (by decide)

end Block

end Plan

namespace Synthesis

/-- The text is what is written for an element of some text in the language. -/
def Writes (language : Language) (content : String) : Prop :=
  ∃ options path source e given, e ∈ (Outline.ofSource path language source).everything ∧
    (insertion? options (.ofSource path language source) e given).map (·.content) = some content

theorem Writes.exists_render {language : Language} {content : String}
    (h : Writes language content) :
    ∃ indent sections, content = Comment.render (.ofLanguage (some language)) indent sections ∧
      (∀ c ∈ indent.toList, Text.isBlank c = true ∧ c ≠ '\n') ∧ Comment.PlainLabels sections := by
  obtain ⟨options, path, source, e, given, he, hcontent⟩ := h
  obtain ⟨f, -, rfl⟩ := Outline.exists_finding_of_mem_everything he
  unfold insertion? at hcontent
  split at hcontent
  · rw [Option.map_some, (Outline.text_ofSource path language source).2.1] at hcontent
    refine ⟨_, _, (Option.some.inj hcontent).symm, fun c hc => ?_, plainLabels_sections _ _⟩
    rcases Extraction.indent_toElement hc with rfl | rfl <;> decide
  · cases hcontent

end Synthesis

namespace Plan

section Text

variable {style : Comment.Style} {window : Nat} {text : String} {batch : List Insertion}

/-- A line that a record covers is a line of its block, and the first line of the text can only be
the first line of a block. -/
theorem exists_line_of_covers {a : Applied}
    (ha : a ∈ (ofBatch style window text batch).applied) {n : Nat}
    (hcovers : a.covers (n + 1) = true) :
    ∃ i ∈ batch, ∃ k l, (blockLines (settingFor style window text).returns i.content)[k]? = some l ∧
      (wovenLines style window text batch)[n]? = some l ∧ (n = 0 → k = 0) := by
  obtain ⟨i, hi, hlocates⟩ := exists_locates (locates_landedIn style window text batch) ha
  obtain ⟨l, hl⟩ := (hlocates.covers_iff n).1 hcovers
  have hsettled := settled_landedIn style window text batch
  have hpos := hsettled.pos i hi
  have hstart := hlocates.startLine
  refine ⟨i, mem_of_mem_landedIn _ _ _ _ hi, _, l, ((hlocates.lines n l).1 hl).2, ?_, by omega⟩
  rw [wovenLines, ← hsettled.map_snd_merge, List.getElem?_map, hl, Option.map_some]

theorem comment_of_covers {language : Language}
    (hbatch : ∀ i ∈ batch, Synthesis.Writes language i.content)
    {a : Applied} (ha : a ∈ (ofBatch style window text batch).applied) {n : Nat}
    (hcovers : a.covers (n + 1) = true) :
    ∃ line, (Text.splitLines (ofBatch style window text batch).content.toList)[n]? = some line ∧
      ((∃ leader ∈ language.commentLeaders, leader.toList <+: Text.trimStart line) ∨
        ∀ c ∈ line, c ∈ language.foreign) := by
  obtain ⟨i, hi, k, l, hblock, hwoven, hfirst⟩ := exists_line_of_covers ha hcovers
  obtain ⟨indent, sections, hcontent, hindent, hlabels⟩ := (hbatch i hi).exists_render
  rw [hcontent] at hblock
  refine ⟨_, getElem?_content _ _ _ _ hwoven, ?_⟩
  by_cases hn : n = 0
  · -- the leader may stand behind a byte order mark
    rw [if_pos hn]
    rw [hfirst hn] at hblock
    refine .inr fun c hc => ?_
    rcases List.mem_append.1 hc with hc | hc
    · exact eq_byteOrderMark_of_mem_splitMark hc ▸ language.byteOrderMark_mem_foreign
    · exact mem_foreign_of_mem_first_line hindent hlabels hblock hc
  · rw [if_neg hn]
    exact .inl (exists_leader_of_mem_block hindent hlabels (List.mem_of_getElem? hblock))

theorem covers_eq_false_of_mem_everything {language : Language}
    (hbatch : ∀ i ∈ batch, Synthesis.Writes language i.content) {path : Path} {e : Element}
    (he : e ∈ (Outline.ofSource path language (ofBatch style window text batch).content).everything)
    {a : Applied}
    (ha : a ∈ (ofBatch style window text batch).applied) : a.covers e.line = false := by
  obtain ⟨f, hf, rfl⟩ := Outline.exists_finding_of_mem_everything he
  obtain ⟨before, line, honLine, hoff, y, hy, hforeign⟩ := Extraction.onLine_of_mem_findings hf
  rw [honLine.number]
  apply Bool.eq_false_iff.2
  intro hcovers
  obtain ⟨line', hline', hcomment⟩ := comment_of_covers hbatch ha hcovers
  obtain rfl : line = line' := Option.some.inj (honLine.getElem?_eq.symm.trans hline')
  rcases hcomment with ⟨leader, hleader, hleads⟩ | hall
  · exact hoff leader hleader hleads
  · exact hforeign (hall y hy)

end Text

/-- No element starts on a comment line. So no element of a text is on a line of the blocks that a
plan has put in, whatever they say. -/
theorem blocks_declare_nothing (language : Language) :
    (∀ path source, ∀ e ∈ (Outline.ofSource path language source).everything,
      ∃ before line, e.OnLine source.toList before line ∧
        ∀ leader ∈ language.commentLeaders, ¬ leader.toList <+: Text.trimStart line) ∧
    ∀ style window text batch, (∀ i ∈ batch, Synthesis.Writes language i.content) →
      ∀ path, ∀ e ∈
        (Outline.ofSource path language (ofBatch style window text batch).content).everything,
        ∀ a ∈ (ofBatch style window text batch).applied, a.covers e.line = false := by
  refine ⟨fun path source e he => ?_, fun style window text batch hbatch path e he a ha => ?_⟩
  · obtain ⟨f, hf, rfl⟩ := Outline.exists_finding_of_mem_everything he
    obtain ⟨before, line, honLine, hoff, -⟩ := Extraction.onLine_of_mem_findings hf
    exact ⟨before, line, honLine, hoff⟩
  · exact covers_eq_false_of_mem_everything hbatch he ha

section Marked

def marked : String := "\uFEFFfunction f() \x7b\x7d"

def markedElement : Element := ⟨"f", .function, 1, 3, some "function f()", none, ""⟩

def codeTexts : Explanation := ⟨"function g() \x7b\x7d", "class C"⟩

def quoting : Insertion :=
  ⟨markedElement.target, 1,
    Synthesis.content ⟨false, .english⟩ .block markedElement (some codeTexts)⟩

def quotingLines : List String :=
  ["/**", " * Technical Explanation:", " * function g() \x7b\x7d", " *",
    " * Simple Explanation:", " * class C",
    " */"]

def markedOnce : String :=
  String.ofList (byteOrderMark ::
    Text.joinLines ((quotingLines ++ ["function f() \x7b\x7d"]).map String.toList))

def markedMoved : Element := ⟨"f", .function, 8, 93, some "function f()", none, ""⟩

theorem everything_marked :
    (Outline.ofSource ⟨"a.js"⟩ .javascript marked).everything = [markedElement] ∧
    (Outline.ofSource ⟨"a.js"⟩ .javascript markedOnce).everything = [markedMoved] := by
  have hfinds : Extraction.Finds .javascript marked.toList [markedElement] ∧
      Extraction.Finds .javascript markedOnce.toList [markedMoved] := by
    rw [marked, markedOnce, quotingLines]
    simp only [List.map_cons, List.map_nil, List.cons_append, List.nil_append]
    repeat rw [String.toList_ofList]
    decide +kernel
  rw [Outline.everything_of_finds _ hfinds.1, Outline.everything_of_finds _ hfinds.2]
  exact ⟨rfl, rfl⟩

theorem writes_quoting : Synthesis.Writes .javascript quoting.content := by
  refine ⟨⟨false, .english⟩, ⟨"a.js"⟩, marked, markedElement, some codeTexts, ?_, ?_⟩
  · rw [everything_marked.1]
    exact List.mem_cons_self
  · rw [Synthesis.insertion?, if_pos (by rfl), (Outline.text_ofSource _ _ _).2.1]
    rfl

theorem blockLines_quoting (returns : Bool) :
    blockLines returns quoting.content = (quotingLines.map String.toList).map
      (endLine returns) := by
  have hcontent : quoting.content =
    Comment.render .block "" (Synthesis.sections .english codeTexts) := by rfl
  rw [hcontent, blockLines_render _ (by simp) (Synthesis.plainLabels_sections _ _),
    Synthesis.blockLines_sections, codeTexts, quotingLines]
  refine congrArg (List.map (endLine returns)) ?_
  simp only [Comment.sectionLines, List.map_cons, List.map_nil]
  -- the characters of the texts, so that nothing has to be decoded
  repeat rw [String.toList_ofList]
  rfl

theorem landedIn_marked : landedIn .block 10 marked [quoting] = [quoting] := by
  rw [landedIn, ordered_of_pairwise (by simp), landing_first_line (by decide) (by decide)]

theorem ofBatch_marked : (ofBatch .block 10 marked [quoting]).content = markedOnce ∧
    (ofBatch .block 10 marked [quoting]).applied = [⟨markedElement.target, 1, 1, 7⟩] := by
  constructor
  · rw [content_ofBatch, wovenLines, landedIn_marked, weave, List.foldr_cons, List.foldr_nil,
      blockLines_quoting,
      markedOnce, settingFor, linesOf, quotingLines, marked]
    simp only [List.map_cons, List.map_nil, List.cons_append, List.nil_append]
    repeat rw [String.toList_ofList]
    rfl
  · rw [applied_ofBatch, landedIn_marked, List.map_singleton, Landed.of,
      blockLines_quoting, List.length_map]
    rfl

theorem quoting_declares_nothing :
    (∃ before line, markedElement.OnLine marked.toList before line ∧
      ∀ leader ∈ Language.commentLeaders .javascript, ¬ leader.toList <+: Text.trimStart line) ∧
    ⟨markedElement.target, 1, 1, 7⟩ ∈ (ofBatch .block 10 marked [quoting]).applied ∧
    markedMoved ∈
      (Outline.ofSource ⟨"a.js"⟩ .javascript
      (ofBatch .block 10 marked [quoting]).content).everything ∧
    Applied.covers ⟨markedElement.target, 1, 1, 7⟩ markedMoved.line = false := by
  obtain ⟨hcontent, happlied⟩ := ofBatch_marked
  have helement : markedElement ∈ (Outline.ofSource ⟨"a.js"⟩ .javascript marked).everything := by
    rw [everything_marked.1]
    exact List.mem_cons_self
  have hmoved : markedMoved ∈
      (Outline.ofSource ⟨"a.js"⟩ .javascript
      (ofBatch .block 10 marked [quoting]).content).everything := by
    rw [hcontent, everything_marked.2]
    exact List.mem_cons_self
  have hmem : ⟨markedElement.target, 1, 1, 7⟩ ∈ (ofBatch .block 10 marked [quoting]).applied := by
    rw [happlied]
    exact List.mem_cons_self
  obtain ⟨hoff, hnone⟩ := blocks_declare_nothing .javascript
  have hwrites : ∀ i ∈ [quoting], Synthesis.Writes .javascript i.content := by
    intro i hi
    rw [List.mem_singleton.1 hi]
    exact writes_quoting
  exact ⟨hoff _ _ _ helement, hmem, hmoved, hnone .block 10 marked _ hwrites _ _ hmoved _ hmem⟩

end Marked

end Plan

end DocGap
