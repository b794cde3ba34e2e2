import DocGap.Proofs.SingleComment

/-!
# Blocks where comments nest

In some languages every `/*` inside a comment opens a comment of its own. Nothing in a block ends it
too early, but there it stays open if a `/*` is in its texts. A text is kept as it is but for line
ends, blanks at its ends and the ends of comments, so that every `/*` of a given text or of a quoted
signature is still in the block.
-/
namespace DocGap

namespace Comment

/-- How many comments are open behind the text, where comments nest and `depth` of them are
open in front. -/
def nestedDepth : Nat → List Char → Nat
  | depth, '/' :: '*' :: cs => nestedDepth (depth + 1) cs
  | depth + 1, '*' :: '/' :: cs => nestedDepth depth cs
  | depth, _ :: cs => nestedDepth depth cs
  | depth, [] => depth

/-- Read from the front, the text leaves all comments behind its last character, and nowhere before
that once `opening` has been read. -/
def Complete (opening content : List Char) : Prop :=
  ∀ part, opening <+: part → part <+: content → (nestedDepth 0 part = 0 ↔ part = content)

def opens : List Char → Nat
  | [] => 0
  | c :: cs => opens cs + if c = '/' ∧ cs.head? = some '*' then 1 else 0

section Opens

variable {c : Char} {as bs cs : List Char}

theorem opens_cons (h : c = '/' → cs.head? ≠ some '*') : opens (c :: cs) = opens cs := by
  rw [opens, if_neg fun hopen => h hopen.1 hopen.2, Nat.add_zero]

theorem opens_eq_zero_iff : opens cs = 0 ↔ ¬ ['/', '*'] <:+: cs := by
  induction cs with
  | nil => simp [opens]
  | cons c cs ih =>
    have hstarts : ['/', '*'] <+: c :: cs ↔ c = '/' ∧ cs.head? = some '*' := by
      cases cs <;> simp [eq_comm]
    rw [List.infix_cons_iff, not_or, ← ih, hstarts, opens]
    split <;> simp_all

theorem opens_append_of_not_mem (h : '/' ∉ as) (bs : List Char) : opens (as ++ bs) = opens bs := by
  induction as with
  | nil => rfl
  | cons c as ih =>
    rw [List.mem_cons, not_or] at h
    rw [List.cons_append, opens_cons fun hc => absurd hc.symm h.1, ih h.2]

theorem opens_eq_zero_of_not_mem (h : '/' ∉ cs) : opens cs = 0 := by
  simpa [opens] using opens_append_of_not_mem h []

theorem opens_append_cons (hslash : c ≠ '/') (hstar : c ≠ '*') (as bs : List Char) :
    opens (as ++ c :: bs) = opens as + opens bs := by
  induction as with
  | nil => rw [List.nil_append, opens_cons fun hc => absurd hc hslash, opens, Nat.zero_add]
  | cons x as ih =>
    -- `c` is not the second half of a `/*`
    have hhead : (as ++ c :: bs).head? = some '*' ↔ as.head? = some '*' := by
      cases as <;> simp [hstar]
    simp only [List.cons_append, opens, ih, hhead]
    omega

theorem opens_joinWith {mark : Char} (hslash : mark ≠ '/') (hstar : mark ≠ '*')
    (ls : List (List Char)) :
    opens (Text.joinWith mark ls) = (ls.map opens).sum := by
  fun_induction Text.joinWith mark ls with
  | case1 => rfl
  | case2 l => simp
  | case3 l rest hrest ih => rw [opens_append_cons hslash hstar, ih, List.map_cons, List.sum_cons]

theorem opens_blanks_append (h : ∀ c ∈ as, Text.isBlank c = true) (bs : List Char) :
    opens (as ++ bs) = opens bs :=
  opens_append_of_not_mem (fun hmem => absurd (h _ hmem) (by decide)) bs

theorem opens_append_blanks (h : ∀ c ∈ bs, Text.isBlank c = true) (as : List Char) :
    opens (as ++ bs) = opens as := by
  cases bs with
  | nil => rw [List.append_nil]
  | cons c bs =>
    have hc := h c List.mem_cons_self
    have hrest : opens bs = 0 := opens_eq_zero_of_not_mem fun hmem =>
      absurd (h _ (List.mem_cons_of_mem c hmem)) (by decide)
    rw [opens_append_cons (ne_of_isBlank hc (by decide)) (ne_of_isBlank hc (by decide)),
      hrest, Nat.add_zero]

theorem opens_trimEnd (cs : List Char) : opens (Text.trimEnd cs) = opens cs := by
  obtain ⟨trail, hcs, htrail⟩ := Text.trimEnd_append cs
  conv_rhs => rw [hcs]
  exact (opens_append_blanks htrail _).symm

theorem opens_trim (cs : List Char) : opens (Text.trim cs) = opens cs := by
  obtain ⟨lead, trail, hcs, hlead, htrail⟩ := Text.append_trim_append cs
  conv_rhs => rw [hcs, opens_blanks_append hlead, opens_append_blanks htrail]

theorem opens_dropReturn (line : List Char) : opens (Text.dropReturn line) = opens line := by
  unfold Text.dropReturn
  split
  · next rest hrest =>
    have hline : line = rest.reverse ++ ['\r'] := by simpa using congrArg List.reverse hrest
    rw [hline, opens_append_cons (by decide) (by decide), opens, Nat.add_zero]
  · rfl

theorem opens_unifyLineEnds (cs : List Char) : opens (unifyLineEnds cs) = opens cs := by
  have hhead : ∀ cs, (unifyLineEnds cs).head? = some '*' ↔ cs.head? = some '*' := by
    intro cs
    fun_cases unifyLineEnds cs <;> simp
  fun_induction unifyLineEnds cs with
  | case1 cs ih => simp [opens, ih]
  | case2 cs h ih => simp [opens, ih]
  | case3 c cs hpair hreturn ih => simp only [opens, ih, hhead]
  | case4 => rfl

theorem opens_breakClosers (cs : List Char) : opens (breakClosers cs) = opens cs := by
  have hhead : ∀ cs, (breakClosers cs).head? = cs.head? := by
    intro cs
    fun_cases breakClosers cs <;> rfl
  fun_induction breakClosers cs with
  | case1 cs ih => simp [opens, ih, hhead]
  | case2 c cs h ih => rw [opens, opens, ih, hhead]
  | case3 => rfl

theorem opens_sanitize (style : Style) (cs : List Char) : opens (sanitize style cs) = opens cs := by
  cases style with
  | block => rw [sanitize, opens_breakClosers, opens_unifyLineEnds]
  | hash => exact opens_unifyLineEnds cs

end Opens

section Lines

theorem sum_opens_bodyLines (cs : List Char) : ((Text.bodyLines cs).map opens).sum = opens cs := by
  have hclose : ∀ ls, ((Text.bodyLines.close ls).map opens).sum = (ls.map opens).sum := by
    intro ls
    fun_induction Text.bodyLines.close ls with
    | case1 => rfl
    | case2 last h => simp [List.isEmpty_iff.1 h, opens]
    | case3 last h => rfl
    | case4 line rest h ih =>
      rw [List.map_cons, List.sum_cons, opens_dropReturn, ih, List.map_cons, List.sum_cons]
  have hjoin : opens (Text.joinLines (Text.splitLines cs)) = _ :=
    opens_joinWith (by decide) (by decide) _
  rw [Text.bodyLines, hclose, ← hjoin, Text.joinLines_splitLines]

variable {indent : List Char}

theorem opens_bodyLine (hindent : ∀ c ∈ indent, Text.isBlank c = true) (text : List Char) :
    opens (bodyLine .block indent text) = opens text := by
  unfold bodyLine
  split
  · next h => simp [Style.continuation, List.isEmpty_iff.1 h, opens_blanks_append hindent, opens]
  · simp [Style.continuation, opens_blanks_append hindent, opens]

theorem opens_labelLine (hindent : ∀ c ∈ indent, Text.isBlank c = true) (label : String) :
    opens (labelLine .block indent label) = opens label.toList := by
  have hcolon := opens_append_cons (c := ':') (by decide) (by decide) label.toList []
  simpa [labelLine, Style.continuation, opens_blanks_append hindent, opens] using hcolon

theorem sum_opens_sectionLines (hindent : ∀ c ∈ indent, Text.isBlank c = true) (s : Section) :
    ((sectionLines .block indent s).map opens).sum =
      opens s.label.toList + opens s.body.toList := by
  have hbody : (opens ∘ fun line => bodyLine .block indent (Text.trimEnd line)) = opens := by
    funext line
    rw [Function.comp_apply, opens_bodyLine hindent, opens_trimEnd]
  rw [sectionLines, ← labelLine, List.map_cons, List.sum_cons, opens_labelLine hindent,
    List.map_map, hbody,
    sum_opens_bodyLines, opens_trim, opens_sanitize]

theorem sum_opens_blockBody (hindent : ∀ c ∈ indent, Text.isBlank c = true)
    (sections : List Section) :
    ((bodyLines .block indent sections).map opens).sum =
      (sections.map fun s => opens s.label.toList + opens s.body.toList).sum := by
  fun_induction bodyLines .block indent sections with
  | case1 => rfl
  | case2 s => simp [sum_opens_sectionLines hindent]
  | case3 s rest hrest ih =>
    simp [sum_opens_sectionLines hindent, opens_bodyLine hindent, opens, ih]

end Lines

section Depth

theorem nestedDepth_of_inner {n : Nat} {cs : List Char} (h : Inner cs) :
    nestedDepth n cs = n + opens cs := by
  fun_induction nestedDepth n cs with
  | case1 n cs ih =>
    rw [ih h.of_cons.of_cons]
    simp [opens]
    omega
  | case2 n cs ih => exact absurd ⟨[], cs, rfl⟩ h
  | case3 n c cs hopen hclose ih =>
    rw [ih h.of_cons, opens_cons fun hc hhead => ?_]
    obtain ⟨r, rfl⟩ := List.head?_eq_some_iff.1 hhead
    exact hopen r hc rfl
  | case4 n => rfl

theorem nestedDepth_append_cons {c : Char} (hslash : c ≠ '/') (hstar : c ≠ '*') (n : Nat)
    (as bs : List Char) :
    nestedDepth n (as ++ c :: bs) = nestedDepth (nestedDepth n as) bs := by
  fun_induction nestedDepth n as with
  | case1 n as ih => simpa [nestedDepth] using ih
  | case2 n as ih => simpa [nestedDepth] using ih
  | case3 n x as hopen hclose ih =>
    rw [List.cons_append, nestedDepth, ih]
    · exact fun r hx => append_cons_ne_cons hstar (fun r => hopen r hx) r
    · exact fun d r hn hx => append_cons_ne_cons hslash (fun r => hclose d r hn hx) r
  | case4 n =>
    rw [List.nil_append, nestedDepth]
    · exact fun r hc => absurd hc hslash
    · exact fun d r hn hc => absurd hc hstar

variable {indent : String} {sections : List Section}

theorem opens_beforeEnd {indent : List Char} (hindent : ∀ c ∈ indent, Text.isBlank c = true)
    (sections : List Section) :
    opens (beforeEnd indent sections) =
      (sections.map fun s => opens s.label.toList + opens s.body.toList).sum + 1 := by
  have hlast : opens indent = 0 := by simpa [opens] using opens_blanks_append hindent []
  rw [beforeEnd, ← Text.joinLines_cons_eq_flatMap, Text.joinLines,
    opens_joinWith (by decide) (by decide),
    List.map_cons, List.sum_cons, List.map_append, List.sum_append, sum_opens_blockBody hindent,
    opens_blanks_append hindent]
  simp [opens, hlast]
  omega

theorem nestedDepth_render (hindent : ∀ c ∈ indent.toList, Text.isBlank c = true)
    (hlabels : PlainLabels sections) :
    nestedDepth 0 (render .block indent sections).toList =
      (sections.map fun s => opens s.label.toList + opens s.body.toList).sum := by
  have hend : ∀ n, nestedDepth (n + 1) ['*', '/'] = n := fun n => rfl
  have hmark : " */".toList = [' ', '*', '/'] := rfl
  rw [toList_render_block, hmark, nestedDepth_append_cons (by decide) (by decide),
    nestedDepth_of_inner (inner_beforeEnd hindent hlabels), opens_beforeEnd hindent,
      Nat.zero_add, hend]

theorem nestedDepth_pos_of_isPrefix (hindent : ∀ c ∈ indent.toList, Text.isBlank c = true)
    (hlabels : PlainLabels sections) {part : List Char}
    (hopening : indent.toList ++ "/**".toList <+: part)
    (hpart : part <+: (render .block indent sections).toList)
    (hne : part ≠ (render .block indent sections).toList) : 0 < nestedDepth 0 part := by
  obtain ⟨rest, rfl⟩ := hopening
  have hinner := inner_beforeEnd_star hindent hlabels
  have hblock : (render .block indent sections).toList =
      (beforeEnd indent.toList sections ++ ' ' :: ['*']) ++ ['/'] := by
    rw [toList_render_block]
    simp
  rw [hblock] at hpart hne
  have hproper := (List.prefix_concat_iff.1 hpart).resolve_left hne
  rw [nestedDepth_of_inner (hinner.of_part hproper.isInfix), List.append_assoc,
    opens_blanks_append hindent]
  simp [opens]

theorem opening_isPrefix_render (indent : String) (sections : List Section) :
    indent.toList ++ "/**".toList <+: (render .block indent sections).toList := by
  rw [toList_render_block, beforeEnd, List.append_assoc _ _ " */".toList]
  exact List.prefix_append _ _

theorem complete_render_iff (hindent : ∀ c ∈ indent.toList, Text.isBlank c = true)
    (hlabels : PlainLabels sections) :
    Complete (indent.toList ++ "/**".toList) (render .block indent sections).toList ↔
      ∀ s ∈ sections, opens s.label.toList = 0 ∧ opens s.body.toList = 0 := by
  have hzero : nestedDepth 0 (render .block indent sections).toList = 0 ↔
      ∀ s ∈ sections, opens s.label.toList = 0 ∧ opens s.body.toList = 0 := by
    rw [nestedDepth_render hindent hlabels, List.sum_eq_zero_iff_forall_eq_nat]
    simp
  rw [← hzero]
  constructor
  · exact fun h => (h _ (opening_isPrefix_render indent sections) List.prefix_rfl).2 rfl
  · intro h part hstart hpart
    refine ⟨fun hdepth => ?_, fun heq => heq ▸ h⟩
    by_contra hne
    exact absurd hdepth (nestedDepth_pos_of_isPrefix hindent hlabels hstart hpart hne).ne'

end Depth

end Comment

namespace Synthesis

open Comment

theorem opens_collapse (text : String) : opens (collapse text).toList = opens text.toList := by
  have hgo : ∀ front cs, ((Text.words.go front cs).map opens).sum =
      opens (front.reverse ++ cs) := by
    intro front cs
    fun_induction Text.words.go front cs with
    | case1 front h => simp [List.isEmpty_iff.1 h, opens]
    | case2 front h => simp
    | case3 front c cs hc h ih =>
      rw [ih, List.isEmpty_iff.1 h]
      exact (opens_cons fun hslash => absurd hslash (ne_of_isBlank hc (by decide))).symm
    | case4 front c cs hc h ih =>
      rw [List.map_cons, List.sum_cons, ih]
      exact (opens_append_cons (ne_of_isBlank hc (by decide))
        (ne_of_isBlank hc (by decide)) _ _).symm
    | case5 front c cs hc ih => simpa using ih
  rw [collapse, String.toList_ofList, opens_joinWith (by decide) (by decide), Text.words, hgo]
  rfl

theorem opens_withSignature {sentence label : String} (hsentence : '/' ∉ sentence.toList)
    (hlabel : '/' ∉ label.toList) (signature : Option String) :
    opens (withSignature sentence label signature).toList = opens (signature.getD "").toList := by
  unfold withSignature
  split
  · exact opens_eq_zero_of_not_mem hsentence
  · next text =>
    rw [Option.getD_some, ← opens_collapse text]
    dsimp only
    split
    · next h =>
      rw [h]
      exact opens_eq_zero_of_not_mem hsentence
    · rw [String.toList_append, opens_append_of_not_mem]
      simp [hsentence, hlabel]

def quoted (e : Element) : String :=
  if e.kind = .classType then "" else e.signature.getD ""

theorem not_mem_ofList {c : Char} {cs : List Char} (h : c ∉ cs) :
    c ∉ (String.ofList cs).toList := by
  rwa [String.toList_ofList]

theorem opens_template {total : Nat} {e : Element} (he : e.WellFormed total) (locale : Locale) :
    opens (template locale e).technical.toList = opens (quoted e).toList ∧
      opens (template locale e).simple.toList = 0 := by
  have hname : '/' ∉ e.name.toList := fun hmem => (Plain.of_isIdentifier he.name _ hmem).2.1 rfl
  have hclass : ∀ a b c : String, '/' ∉ a.toList → '/' ∉ b.toList → '/' ∉ c.toList →
      opens (a ++ e.name ++ b ++ c).toList = 0 := by
    intro a b c ha hb hc
    refine opens_eq_zero_of_not_mem ?_
    simp [ha, hb, hc, hname]
  have hfunction : ∀ a b label : String, '/' ∉ a.toList → '/' ∉ b.toList → '/' ∉ label.toList →
      opens (withSignature (a ++ e.name ++ b) label e.signature).toList =
        opens (e.signature.getD "").toList := by
    intro a b label ha hb hlabel
    refine opens_withSignature ?_ hlabel _
    simp [ha, hb, hname]
  unfold template quoted
  split <;> refine ⟨?_, opens_eq_zero_of_not_mem (not_mem_ofList (by decide))⟩
  case h_1 hkind | h_2 hkind =>
    rw [if_pos hkind]
    apply hclass <;> exact not_mem_ofList (by decide)
  case h_3 hkind | h_4 hkind =>
    rw [if_neg (by assumption)]
    apply hfunction <;> exact not_mem_ofList (by decide)

theorem opens_pick {fallback text : String} (h : opens fallback.toList = opens text.toList)
    (given : Option String) : opens (pick given fallback).toList = opens
    (pick given text).toList := by
  cases given with
  | none => exact h
  | some mine =>
    rw [pick, pick]
    split
    · exact h
    · rfl

/-- Where comments nest, the block for an element never ends before its last character. It ends
there if and only if no `/*` is in the given texts or in what is quoted in their place. -/
theorem insertion_complete_iff {path : Path} {source : String} {e : Element} {options : Options}
    (he : e ∈ (Outline.ofSource path .rust source).documentable)
    (hcovers : covers options e.kind = true)
    (given : Option Explanation) :
    ∃ i, insertion? options (.ofSource path .rust source) e given = some i ∧
      let content := i.content.toList
      let opening := e.indent.toList ++ "/**".toList
      opening <+: content ∧
      (∀ part, opening <+: part → part <+: content → part ≠ content → 0 < nestedDepth 0 part) ∧
      (Complete opening content ↔
        ¬ "/*".toList <:+: (pick (given.map (·.technical)) (quoted e)).toList ∧
        ¬ "/*".toList <:+: (pick (given.map (·.simple)) "").toList) := by
  have hwell := Outline.wellFormed_of_mem_documentable he
  have hblank : ∀ c ∈ e.indent.toList, Text.isBlank c = true :=
    fun c hc => (hwell.indent_blank c hc).1
  have hlabels := plainLabels_sections options.locale (explanation options.locale e given)
  have hstyle : Style.ofLanguage (Outline.ofSource path .rust source).language = .block := by
    rw [(Outline.text_ofSource path .rust source).2.1]
    rfl
  refine ⟨_, if_pos hcovers, ?_⟩
  dsimp only
  rw [content, hstyle]
  refine ⟨opening_isPrefix_render _ _, fun part hopening hpart hne =>
    nestedDepth_pos_of_isPrefix hblank hlabels hopening hpart hne, ?_⟩
  obtain ⟨htechnical, hsimple⟩ := opens_template hwell options.locale
  have hplain : opens options.locale.technicalLabel.toList = 0 ∧
      opens options.locale.simpleLabel.toList = 0 := by
    cases options.locale <;> decide
  have hmark : "/*".toList = ['/', '*'] := rfl
  have hempty : opens (template options.locale e).simple.toList = opens "".toList := hsimple
  rw [complete_render_iff hblank hlabels, hmark, ← opens_eq_zero_iff, ← opens_eq_zero_iff,
    ← opens_pick htechnical,
    ← opens_pick hempty]
  simp [sections, explanation, hplain]

section Commented

def commented : String := "fn f(/* x */ a: i32) {}\n"

def commentedFunction : Element := ⟨"f", .function, 1, 0, some "fn f(/* x */ a: i32)", none, ""⟩

theorem documentable_commented :
    (Outline.ofSource ⟨"a.rs"⟩ .rust commented).documentable = [commentedFunction] := by
  have hfinds : Extraction.Finds .rust commented.toList [commentedFunction] := by
    rw [commented, String.toList_ofList]
    decide
  rw [Outline.documentable_of_finds _ hfinds]
  rfl

theorem commented_complete :
    commentedFunction ∈ (Outline.ofSource ⟨"a.rs"⟩ .rust commented).documentable ∧
      covers ⟨false, .german⟩ .function = true ∧
      ∃ i, insertion? ⟨false, .german⟩ (.ofSource ⟨"a.rs"⟩ .rust commented) commentedFunction
          (some ⟨"*/ a /\n* b", " "⟩) = some i ∧
        Complete "/**".toList i.content.toList := by
  have hmem : commentedFunction ∈ (Outline.ofSource ⟨"a.rs"⟩ .rust commented).documentable := by
    rw [documentable_commented]
    exact List.mem_singleton_self _
  have hcovers : covers ⟨false, .german⟩ .function = true := rfl
  obtain ⟨i, hi, -, -, hcomplete⟩ := insertion_complete_iff hmem hcovers (some ⟨"*/ a /\n* b", " "⟩)
  exact ⟨hmem, hcovers, i, hi,
    hcomplete.2 ⟨opens_eq_zero_iff.1 (by decide), opens_eq_zero_iff.1 (by decide)⟩⟩

/-- The quoted signature opens a comment that stays open, since its own end has been broken. -/
theorem commented_incomplete :
    commentedFunction ∈ (Outline.ofSource ⟨"a.rs"⟩ .rust commented).documentable ∧
      ∃ i, insertion? ⟨false, .english⟩
        (.ofSource ⟨"a.rs"⟩ .rust commented) commentedFunction none = some i ∧
        nestedDepth 0 i.content.toList = 1 ∧ ¬ Complete "/**".toList i.content.toList := by
  have hmem : commentedFunction ∈ (Outline.ofSource ⟨"a.rs"⟩ .rust commented).documentable := by
    rw [documentable_commented]
    exact List.mem_singleton_self _
  refine ⟨hmem, _, if_pos rfl, ?_⟩
  have hdepth : nestedDepth 0
      (content ⟨false, .english⟩ .block commentedFunction none).toList = 1 := by
    obtain ⟨htechnical, hsimple⟩ :=
      opens_template (Outline.wellFormed_of_mem_documentable hmem) .english
    have hlabels : opens Locale.english.technicalLabel.toList = 0 ∧
        opens Locale.english.simpleLabel.toList = 0 := by
      decide
    have hquoted : opens (quoted commentedFunction).toList = 1 := by decide
    rw [content, nestedDepth_render (by simp [commentedFunction]) (plainLabels_sections _ _)]
    simp [sections, explanation, pick, hlabels, htechnical, hsimple, hquoted]
  have hopening : "/**".toList <+:
    (content ⟨false, .english⟩ .block commentedFunction none).toList :=
    opening_isPrefix_render "" _
  rw [(Outline.text_ofSource ⟨"a.rs"⟩ .rust commented).2.1]
  refine ⟨hdepth, fun hcomplete => ?_⟩
  have hzero := (hcomplete _ hopening List.prefix_rfl).2 rfl
  rw [hdepth] at hzero
  cases hzero

end Commented

end Synthesis

end DocGap
