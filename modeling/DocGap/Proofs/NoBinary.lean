import DocGap.Proofs.OwnSignature
import DocGap.Proofs.Rerun
import DocGap.Proofs.SingleComment

/-!
# Documented texts are no binaries

A text with a null character among its first bytes counts as binary and declares nothing. What a
block says comes from its template, and what the template takes from the text are a name and a
signature. So a text without a null character still has none when it is documented.
-/
namespace DocGap

namespace Text

theorem mem_of_mem_go {front cs w : List Char} (hw : w ∈ words.go front cs)
    {c : Char} (hc : c ∈ w) :
    c ∈ front ∨ c ∈ cs := by
  fun_induction words.go front cs with
  | case1 front hempty => cases hw
  | case2 front hempty =>
    rw [List.mem_singleton.1 hw, List.mem_reverse] at hc
    exact .inl hc
  | case3 front d cs hblank hempty ih =>
    exact .inr (List.mem_cons_of_mem _ ((ih hw).resolve_left List.not_mem_nil))
  | case4 front d cs hblank hempty ih =>
    rcases List.mem_cons.1 hw with rfl | hw
    · exact .inl (List.mem_reverse.1 hc)
    · exact .inr (List.mem_cons_of_mem _ ((ih hw).resolve_left List.not_mem_nil))
  | case5 front d cs hblank ih =>
    rcases ih hw with hc | hc
    · rcases List.mem_cons.1 hc with rfl | hc
      · exact .inr List.mem_cons_self
      · exact .inl hc
    · exact .inr (List.mem_cons_of_mem _ hc)

theorem takeBytes_isPrefix (n : Nat) (cs : List Char) : takeBytes n cs <+: cs := by
  fun_induction takeBytes n cs with
  | case1 cs => exact List.nil_prefix
  | case2 => exact List.prefix_rfl
  | case3 n c cs hfits ih => exact (List.prefix_cons_inj c).2 ih
  | case4 => exact List.nil_prefix

end Text

namespace Comment

theorem mem_of_mem_unifyLineEnds {c : Char} {cs : List Char} (h : c ∈ unifyLineEnds cs) :
    c ∈ cs ∨ c = '\n' := by
  fun_induction unifyLineEnds cs with
  | case1 cs ih => grind
  | case2 cs hpair ih => grind
  | case3 d cs hpair hreturn ih => grind
  | case4 => cases h

theorem null_not_mem_sanitize (style : Style) {cs : List Char} (h : '\x00' ∉ cs) :
    '\x00' ∉ sanitize style cs := by
  have hunified : '\x00' ∉ unifyLineEnds cs := fun hmem =>
    (mem_of_mem_unifyLineEnds hmem).elim h (by decide)
  cases style with
  | block => exact fun hmem => (mem_of_mem_breakClosers hmem).elim hunified (by decide)
  | hash => exact hunified

theorem null_not_mem_blockLines {style : Style} {indent l : List Char} {sections : List Section}
    (hindent : '\x00' ∉ indent)
    (hsections : ∀ s ∈ sections, '\x00' ∉ s.label.toList ∧ '\x00' ∉ s.body.toList)
    (h : l ∈ blockLines style indent sections) : '\x00' ∉ l := by
  refine not_mem_blockLines (by decide) hindent (fun s hs => (hsections s hs).1)
    (fun s hs text htext hfeed hmem => ?_) h
  exact null_not_mem_sanitize style (hsections s hs).2 (htext.subset hmem)

end Comment

namespace Synthesis

theorem null_not_mem_withSignature {sentence label : String} {signature : Option String}
    (hsentence : '\x00' ∉ sentence.toList) (hlabel : '\x00' ∉ label.toList)
    (hsignature : ∀ text ∈ signature, '\x00' ∉ text.toList) :
    '\x00' ∉ (withSignature sentence label signature).toList := by
  unfold withSignature
  split
  · exact hsentence
  · next text =>
    have hcollapsed : '\x00' ∉ (collapse text).toList := by
      intro hmem
      rw [collapse, String.toList_ofList] at hmem
      rcases Text.mem_joinWith hmem with hmem | ⟨w, hw, hmem⟩
      · exact absurd hmem (by decide)
      · exact hsignature text rfl ((Text.mem_of_mem_go hw hmem).resolve_left List.not_mem_nil)
    dsimp only
    split
    · exact hsentence
    · simp [hsentence, hlabel, hcollapsed]

theorem null_not_mem_template {total : Nat} {e : Element} (he : e.WellFormed total)
    (hsignature : ∀ text ∈ e.signature, '\x00' ∉ text.toList) (locale : Locale) :
    '\x00' ∉ (template locale e).technical.toList ∧ '\x00' ∉ (template locale e).simple.toList := by
  have hname : '\x00' ∉ e.name.toList := fun hmem =>
    absurd (Grammar.isIdentifierPart_of_mem he.name hmem) (by decide)
  have hfixed : ∀ {cs : List Char}, '\x00' ∉ cs → '\x00' ∉ (String.ofList cs).toList := fun h => by
    rwa [String.toList_ofList]
  have hclass : ∀ a b c : String, '\x00' ∉ a.toList → '\x00' ∉ b.toList → '\x00' ∉ c.toList →
      '\x00' ∉ (a ++ e.name ++ b ++ c).toList := by
    intro a b c ha hb hc
    simp [ha, hb, hc, hname]
  have hfunction : ∀ a b label : String, '\x00' ∉ a.toList → '\x00' ∉ b.toList →
      '\x00' ∉ label.toList →
      '\x00' ∉ (withSignature (a ++ e.name ++ b) label e.signature).toList := by
    intro a b label ha hb hlabel
    exact null_not_mem_withSignature (by simp [ha, hb, hname]) hlabel hsignature
  unfold template
  split <;> refine ⟨?_, hfixed (by decide)⟩
  case h_1 | h_2 => apply hclass <;> exact hfixed (by decide)
  case h_3 | h_4 => apply hfunction <;> exact hfixed (by decide)

end Synthesis

theorem Outline.null_not_mem_signature {path : Path} {language : Language} {source : String}
    (hsource : '\x00' ∉ source.toList) {e : Element}
    (he : e ∈ (ofSource path language source).documentable) :
    ∀ text ∈ e.signature, '\x00' ∉ text.toList := by
  obtain ⟨f, hf, rfl, -⟩ := exists_finding_of_mem_documentable he
  obtain ⟨above, lead, hs⟩ := (Extraction.of_mem_findings hf).2.1
  intro text htext hmem
  obtain ⟨found, hfound, rfl⟩ := Option.map_eq_some_iff.1 htext
  rw [String.toList_ofList] at hmem
  refine hsource ?_
  have hrest : '\x00' ∈ f.spot.rest := by
    unfold Extraction.signature? at hfound
    split at hfound
    case h_1 | h_2 =>
      obtain ⟨rfl, -⟩ := Signature.ofTail_eq_some_iff.1 hfound
      obtain ⟨rest, -, htail, -⟩ := Signature.untilOpener_spec language .start 0 f.spot.rest
      rw [htail]
      exact List.mem_append_left _ ((Text.trim_isInfix _).subset hmem)
    case h_3 | h_4 => cases hfound
  rw [hs.text_eq]
  simp [hrest]

namespace Settings

open Comment Plan

variable {settings : Settings} {path : Path} {language : Language} {text : String}

theorem null_not_mem_blockFor (h : '\x00' ∉ text.toList) {e : Element}
    (he : e ∈ (Outline.ofSource path language text).documentable) {returns : Bool} {l : List Char}
    (hl : l ∈ blockLines returns (settings.blockFor .empty path language e).content) :
    '\x00' ∉ l := by
  have hwell := Outline.wellFormed_of_mem_documentable he
  have htemplate := Synthesis.null_not_mem_template hwell (Outline.null_not_mem_signature h he)
    settings.synthesis.locale
  have hlabels : '\x00' ∉ settings.synthesis.locale.technicalLabel.toList ∧
      '\x00' ∉ settings.synthesis.locale.simpleLabel.toList := by
    cases settings.synthesis.locale <;> decide
  rw [blockLines_blockFor settings .empty path language hwell] at hl
  obtain ⟨line, hline, rfl⟩ := List.mem_map.1 hl
  intro hmem
  rcases mem_of_mem_endLine hmem with hmem | hmem
  · refine null_not_mem_blockLines ?_ (fun s hs => ?_) hline hmem
    · intro hindent
      rcases hwell.indent _ hindent with hblank | hblank <;> exact absurd hblank (by decide)
    · simp only [Synthesis.sections, List.mem_cons, List.not_mem_nil, or_false] at hs
      rcases hs with rfl | rfl
      · exact ⟨hlabels.1, htemplate.1⟩
      · exact ⟨hlabels.2, htemplate.2⟩
  · exact absurd hmem (by decide)

theorem null_not_mem_documented (h : '\x00' ∉ text.toList) :
    '\x00' ∉ (settings.documented .empty path language text).toList := by
  rw [documented, planFor, content_ofBatch, String.toList_ofList, List.mem_append, not_or]
  refine ⟨fun hmem => ?_, fun hmem => ?_⟩
  · exact absurd (eq_byteOrderMark_of_mem_splitMark hmem) (by decide)
  · rcases Text.mem_joinWith hmem with hmem | ⟨l, hl, hmem⟩
    · exact absurd hmem (by decide)
    · rw [wovenLines, mem_weave_iff] at hl
      rcases hl with hl | ⟨i, hi, hl⟩
      · have hrest : '\x00' ∈ (splitMark text.toList).2 :=
          ((Text.pieces_isInfix _).2 l hl).subset hmem
        refine h ?_
        rw [← splitMark_append text.toList]
        exact List.mem_append_right _ hrest
      · have hi := mem_of_mem_landedIn _ _ _ _ hi
        rw [batchFor_eq] at hi
        obtain ⟨e, he, rfl⟩ := List.mem_map.1 hi
        exact null_not_mem_blockFor h (List.mem_filter.1 he).1 hl hmem

theorem looksBinary_of_null_not_mem {cs : List Char} (h : '\x00' ∉ cs) :
    Extraction.looksBinary cs = false := by
  refine Bool.eq_false_iff.2 fun hbinary => h ?_
  exact (Text.takeBytes_isPrefix _ cs).subset (List.contains_iff_mem.1 hbinary)

end Settings

end DocGap
