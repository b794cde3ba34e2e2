import DocGap.Proofs.Addressed
import DocGap.Proofs.CommentLines
import DocGap.Proofs.PayloadRoundTrip

/-!
# The document in a request

A request ends with the document to be filled in. It can be found by lines: every line of the
document but the first starts with a space or a closing brace, since line ends in its texts are
escaped, so that no line of it is taken for the heading or for the fence. Read as a payload, it has
one blank answer for every gap.
-/
namespace DocGap

namespace Text

theorem joinLines_append (front : List (List Char)) (l : List Char) (after : List (List Char))
    (h : front ≠ []) :
    joinLines (front ++ l :: after) = joinLines front ++ '\n' :: joinLines (l :: after) := by
  induction front with
  | nil => exact absurd rfl h
  | cons first front ih =>
    cases front with
    | nil => exact joinLines_cons first (by simp)
    | cons next front =>
      rw [List.cons_append, joinLines_cons first (by simp), ih (by simp),
        joinLines_cons first (by simp),
        List.append_assoc, List.cons_append]

end Text

namespace Payload

/-- Every line but the first starts with a space or a closing brace. -/
def Hanging (cs : List Char) : Prop :=
  ∀ front back, cs = front ++ '\n' :: back → back.head? = some ' ' ∨ back.head? = some '}'

namespace Hanging

variable {as bs cs : List Char} {c : Char}

theorem of_not_mem (h : '\n' ∉ cs) : Hanging cs := by
  rintro front back rfl
  simp at h

theorem append (ha : Hanging as) (hb : Hanging bs) : Hanging (as ++ bs) := by
  intro front back heq
  rcases List.append_eq_append_iff.1 heq with ⟨more, rfl, hbs⟩ | ⟨more, has, hback⟩
  · exact hb more back hbs
  · cases more with
    | nil => exact hb [] back (by simpa using hback.symm)
    | cons d more =>
      obtain ⟨rfl, rfl⟩ := List.cons.inj hback
      -- what follows a line feed of the front part is in the front part, too
      have hhead := ha front more has
      cases more with
      | nil => simp at hhead
      | cons d more => simpa using hhead

theorem newline (hc : c = ' ' ∨ c = '}') (h : Hanging (c :: cs)) : Hanging ('\n' :: c :: cs) := by
  intro front back heq
  cases front with
  | nil =>
    obtain ⟨-, rfl⟩ := List.cons.inj heq
    simpa using hc
  | cons d front => exact h front back (List.cons.inj heq).2

theorem line_start (h : Hanging cs) {l : List Char} (hl : l ∈ Text.splitLines cs) (hne : l ≠ []) :
    l.head? = cs.head? ∨ l.head? = some ' ' ∨ l.head? = some '}' := by
  obtain ⟨d, rest, rfl⟩ := List.exists_cons_of_ne_nil hne
  obtain ⟨front, after, hlines⟩ := List.append_of_mem hl
  have hcs := Text.joinLines_splitLines cs
  rw [hlines] at hcs
  have hstart : ∀ tail, (Text.joinLines ((d :: rest) :: tail)).head? = some d := by
    intro tail
    rw [Text.joinLines, Text.joinWith.eq_def]
    cases tail <;> rfl
  by_cases hfirst : front = []
  · subst hfirst
    exact .inl (by rw [← hcs, List.nil_append, hstart, List.head?_cons])
  · rw [Text.joinLines_append _ _ _ hfirst] at hcs
    have hhead := h _ _ hcs.symm
    rw [hstart] at hhead
    exact .inr hhead

end Hanging

theorem newline_not_mem_quote (text : String) : '\n' ∉ quote text := by
  have hcontrol : ∀ n < 0x20, '\n' ∉ escape (Char.ofNat n) := by decide
  have hescape : ∀ c, '\n' ∉ escape c := by
    intro c
    by_cases hc : c.toNat < 0x20
    · have hnone := hcontrol c.toNat hc
      rwa [Char.ofNat_toNat] at hnone
    · have hne : '\n' ≠ c := fun heq => hc (heq ▸ by decide)
      unfold escape
      repeat' split
      all_goals simp_all
  simp [quote, hescape]

theorem hanging_lead (first : Bool) (depth : Nat) {cs : List Char} (h : Hanging cs) :
    Hanging (lead first depth ++ cs) := by
  have hsign : Hanging (if first then [] else [',']) := .of_not_mem (by cases first <;> decide)
  have hspaces : Hanging (' ' :: spaces (2 * depth + 1)) :=
    .of_not_mem (by simp [spaces, List.mem_replicate])
  have hlead : lead first depth ++ cs =
      (if first then [] else [',']) ++ ('\n' :: ' ' :: (spaces (2 * depth + 1) ++ cs)) := by
    simp [lead, spaces, Nat.mul_add, List.replicate_succ]
  rw [hlead]
  exact hsign.append (.newline (.inl rfl) (hspaces.append h))

theorem hanging_behind {closing : Char} {depth : Nat} (hclosing : closing ≠ '\n')
    (hends : depth ≠ 0 ∨ closing = '}') {items : List (List Char)}
    (hitems : ∀ item ∈ items, Hanging item) :
    Hanging (behind closing depth items []) := by
  induction items with
  | nil =>
    cases depth with
    | zero =>
      have hbrace := hends.resolve_left (by simp)
      exact .newline (.inr hbrace) (.of_not_mem (by simp [hbrace]))
    | succ depth =>
      refine .newline (.inl rfl) (.of_not_mem ?_)
      simp [hclosing.symm, List.mem_replicate]
  | cons item items ih =>
    rw [List.forall_mem_cons] at hitems
    rw [behind, List.append_assoc]
    exact hanging_lead _ _ (hitems.1.append (ih hitems.2))

theorem hanging_enclose {opening closing : Char} {depth : Nat} {items : List (List Char)}
    (hopening : opening ≠ '\n') (hclosing : closing ≠ '\n') (hends : depth ≠ 0 ∨ closing = '}')
    (hitems : ∀ item ∈ items, Hanging item) : Hanging (enclose opening closing depth items) := by
  cases items with
  | nil => exact .of_not_mem (by simp [enclose, hopening.symm, hclosing.symm])
  | cons item items =>
    rw [List.forall_mem_cons] at hitems
    have htext := enclose_append opening closing depth item items []
    rw [List.append_nil, List.append_assoc, List.cons_append] at htext
    rw [htext]
    have hfirst : Hanging [opening] := .of_not_mem (by simp [hopening.symm])
    have hrest := hanging_lead true depth (hitems.1.append (hanging_behind hclosing hends hitems.2))
    exact hfirst.append hrest

theorem hanging_member (name : String) {value : List Char} (h : Hanging value) : Hanging
    (member name value) := by
  have hcolon : Hanging [':', ' '] := .of_not_mem (by decide)
  exact Hanging.append (.of_not_mem (newline_not_mem_quote name)) (hcolon.append h)

theorem hanging_printAnswer (a : Answer) : Hanging (printAnswer a) := by
  refine hanging_enclose (by decide) (by decide) (.inr rfl) fun item hitem => ?_
  have hquoted : ∀ name text : String, Hanging (member name (quote text)) := fun name text =>
    hanging_member name (.of_not_mem (newline_not_mem_quote text))
  have hnumber : ∀ n : Nat, Hanging (member "line" (toString n).toList) := by
    intro n
    refine hanging_member "line" (.of_not_mem fun hmem => ?_)
    rw [Nat.toString_eq_repr, Nat.toList_repr] at hmem
    exact absurd (Nat.isDigit_of_mem_toDigits (by decide) (by decide) hmem) (by decide)
  simp only [Answer.members, List.mem_append, List.mem_cons, List.not_mem_nil, or_false] at hitem
  rcases hitem with ((rfl | rfl) | hline) | rfl | rfl
  · exact hquoted _ _
  · exact hquoted _ _
  · cases hnone : a.line with
    | none =>
      rw [hnone] at hline
      cases hline
    | some n =>
      rw [hnone] at hline
      rw [List.mem_singleton.1 hline]
      exact hnumber n
  · exact hquoted _ _
  · exact hquoted _ _

theorem hanging_print (p : Payload) : Hanging p.print.toList := by
  rw [print, String.toList_ofList]
  refine hanging_enclose (by decide) (by decide) (.inr rfl) fun item hitem => ?_
  rw [List.mem_singleton.1 hitem]
  refine hanging_member _
    (hanging_enclose (by decide) (by decide) (.inl (by decide)) fun item hitem => ?_)
  obtain ⟨a, -, rfl⟩ := List.mem_map.1 hitem
  exact hanging_printAnswer a

theorem not_mem_splitLines_print (p : Payload) {mark : List Char} {c : Char}
    (hmark : mark.head? = some c)
    (hc : c ∉ ['{', ' ', '}']) : mark ∉ Text.splitLines p.print.toList := by
  intro hmem
  have hne : mark ≠ [] := by
    rintro rfl
    cases hmark
  have hfirst : p.print.toList.head? = some '{' := by
    rw [print, String.toList_ofList]
    rfl
  have hstart := (hanging_print p).line_start hmem hne
  rw [hmark, hfirst] at hstart
  simp only [Option.some.injEq] at hstart
  simp only [List.mem_cons, List.not_mem_nil, or_false] at hc
  exact hc hstart

end Payload

namespace Request

def heading : List Char := "## Answer format".toList

def opening : List Char := (fence ++ "json").toList

/-- The document that a request asks for: what stands between the fences behind the last
heading of that name. -/
def answerDocument (request : String) : String :=
  let lines := Text.splitLines request.toList
  let answer := (lines.reverse.takeWhile (· ≠ heading)).reverse
  String.ofList
    (Text.joinLines (((answer.dropWhile (· ≠ opening)).drop 1).takeWhile (· ≠ fence.toList)))

theorem answerDocument_of_splitLines {request : String}
    {front before document after : List (List Char)}
    (hlines : Text.splitLines request.toList =
      front ++ heading :: (before ++ opening :: (document ++ fence.toList :: after)))
    (hheading : heading ∉ before ++ opening :: (document ++ fence.toList :: after))
    (hopening : opening ∉ before)
    (hfence : fence.toList ∉ document) : answerDocument request = String.ofList
    (Text.joinLines document) := by
  have hne : ∀ {mark : List Char} {ls : List (List Char)}, mark ∉ ls →
      ∀ l ∈ ls, decide (l ≠ mark) = true := by
    intro mark ls hnot l hl
    exact decide_eq_true fun heq => hnot (heq ▸ hl)
  have hanswer : ((Text.splitLines request.toList).reverse.takeWhile (· ≠ heading)).reverse =
      before ++ opening :: (document ++ fence.toList :: after) := by
    rw [hlines, List.reverse_append, List.reverse_cons, List.append_assoc,
      List.takeWhile_append_of_pos fun l hl =>
        hne hheading l (List.mem_reverse.1 hl), List.singleton_append,
      List.takeWhile_cons_of_neg (by simp), List.append_nil, List.reverse_reverse]
  unfold answerDocument
  dsimp only
  rw [hanswer, List.dropWhile_append_of_pos (hne hopening),
    List.dropWhile_cons_of_neg (by simp), List.drop_one,
    List.tail_cons, List.takeWhile_append_of_pos (hne hfence),
      List.takeWhile_cons_of_neg (by simp), List.append_nil]

def EndsLine (text : String) : Prop := ∃ front, text.toList = front ++ ['\n']

theorem EndsLine.append (first : String) {second : String} (h : EndsLine second) : EndsLine
    (first ++ second) := by
  obtain ⟨front, hfront⟩ := h
  exact ⟨first.toList ++ front, by rw [String.toList_append, hfront, List.append_assoc]⟩

theorem EndsLine.join {first : String} (hfirst : EndsLine first) {texts : List String}
    (htexts : ∀ text ∈ texts, EndsLine text) : EndsLine (first ++ String.join texts) := by
  rcases List.eq_nil_or_concat texts with rfl | ⟨init, last, rfl⟩
  · obtain ⟨front, hfront⟩ := hfirst
    exact ⟨front, by simpa using hfront⟩
  · obtain ⟨front, hfront⟩ := htexts last (by simp)
    refine ⟨first.toList ++ init.flatMap String.toList ++ front, ?_⟩
    simp [String.toList_join, hfront]

theorem endsLine_fileText (f : FileGaps) : EndsLine (fileText f) := by
  have hgap : ∀ tag lines g, EndsLine (gapText tag lines g) :=
    fun tag lines g => .append _ ⟨['\n'], rfl⟩
  refine .join (.append _ ⟨['\n'], rfl⟩) fun text htext => ?_
  obtain ⟨g, -, rfl⟩ := List.mem_map.1 htext
  exact hgap _ _ g

theorem endsLine_header (files : List FileGaps) : EndsLine (header files) :=
  .append _ ⟨"everyday comparison.\n".toList, rfl⟩

def instruction : List Char :=
  "Answer with JSON only, filling in \"technical\" and \"simple\" for every entry:".toList

theorem toList_answerFormat (files : List FileGaps) :
    (answerFormat files).toList = heading ++ '\n' ::
      ([] ++ '\n' :: (instruction ++ '\n' :: ([] ++ '\n' :: (opening ++
      '\n' :: ((template files).print.toList ++ '\n' :: (fence.toList ++ '\n' :: [])))))) := by
  -- over any texts, since literals are slow to compare
  have htext : ∀ {title task json document feed : String} (first second third : List Char),
      title.toList = first ++ ['\n', '\n'] → task.toList = second ++ ['\n', '\n'] →
      fence.toList ++ json.toList = third ++ ['\n'] → feed.toList = ['\n'] →
      (title ++ task ++ fence ++ json ++ document ++ feed ++ fence ++ feed).toList =
        first ++ '\n' :: ([] ++ '\n' :: (second ++ '\n' :: ([] ++ '\n' :: (third ++
          '\n' :: (document.toList ++ '\n' :: (fence.toList ++ '\n' :: [])))))) := by
    intro title task json document feed first second third htitle htask hjson hfeed
    simp only [String.toList_append, htitle, htask, hfeed, List.append_assoc]
    rw [← List.append_assoc fence.toList json.toList, hjson]
    simp
  exact htext heading instruction opening (by decide) (by decide) (by decide) rfl

theorem splitLines_answerFormat (files : List FileGaps) :
    Text.splitLines (answerFormat files).toList = heading :: ([[], instruction, []] ++
      opening :: (Text.splitLines (template files).print.toList ++ fence.toList :: [[]])) := by
  have hsingle : ∀ {l : List Char}, '\n' ∉ l → Text.splitLines l = [l] := fun h =>
    Text.splitLines_joinLines (List.cons_ne_nil _ []) (by simpa using h)
  have hheading : Text.splitLines heading = [heading] := hsingle (by decide)
  have hinstruction : Text.splitLines instruction = [instruction] := hsingle (by decide)
  have hopening : Text.splitLines opening = [opening] := hsingle (by decide)
  have hfence : Text.splitLines fence.toList = [fence.toList] := hsingle (by decide)
  have hempty : Text.splitLines [] = [[]] := rfl
  rw [toList_answerFormat]
  simp only [Text.splitLines_append_newline, hheading, hinstruction, hopening, hfence, hempty]
  simp only [List.cons_append, List.nil_append]

theorem template_pending (files : List FileGaps) : template
    (files.filter (!·.isEmpty)) = template files := by
  rw [template, template, Payload.mk.injEq]
  induction files with
  | nil => rfl
  | cons f files ih =>
    by_cases hnone : f.isEmpty = true
    · have hgaps : f.gaps = [] := List.isEmpty_iff.1 hnone
      rw [List.filter_cons_of_neg (by simp [hnone]), ih, List.flatMap_cons, hgaps,
        List.map_nil, List.nil_append]
    · rw [List.filter_cons_of_pos (by simpa using hnone), List.flatMap_cons, List.flatMap_cons, ih]

theorem render_eq {files : List FileGaps} (hgaps : ∃ f ∈ files, f.gaps ≠ []) :
    ∃ front, (render files).toList = front ++ '\n' ::
      (answerFormat (files.filter (!·.isEmpty))).toList := by
  obtain ⟨f, hf, hsome⟩ := hgaps
  have hpending : (files.filter (!·.isEmpty)).isEmpty = false := by
    rw [List.isEmpty_eq_false_iff_exists_mem]
    exact ⟨f, List.mem_filter.2 ⟨hf, by simpa [FileGaps.isEmpty] using hsome⟩⟩
  obtain ⟨front, hfront⟩ : EndsLine (header (files.filter (!·.isEmpty)) ++
      String.join ((files.filter (!·.isEmpty)).map fileText)) := by
    refine .join (endsLine_header _) fun text htext => ?_
    obtain ⟨g, -, rfl⟩ := List.mem_map.1 htext
    exact endsLine_fileText g
  refine ⟨front, ?_⟩
  unfold render
  simp only [hpending, Bool.false_eq_true, if_false]
  rw [String.toList_append, hfront, List.append_assoc, List.singleton_append]

/-- The document in a request is read as one blank answer for every gap, in the order of the files
and of their gaps, whatever the paths and the names of the elements are. -/
theorem answerDocument_decodes {files : List FileGaps} (hgaps : ∃ f ∈ files, f.gaps ≠ [])
    (hlines : ∀ f ∈ files, ∀ g ∈ f.gaps, g.element.line ≤ Json.maxWord) :
    Payload.read? (answerDocument (render files)) =
      .ok ⟨files.flatMap fun f => f.gaps.map fun g =>
        ⟨f.outline.path, g.element.name, some g.element.line, ⟨"", ""⟩⟩⟩ := by
  obtain ⟨front, hfront⟩ := render_eq hgaps
  have hdocument := splitLines_answerFormat (files.filter (!·.isEmpty))
  rw [template_pending] at hdocument
  have hstart : heading.head? = some '#' ∧ fence.toList.head? = some '\x60' := ⟨rfl, rfl⟩
  have hheading := (template files).not_mem_splitLines_print hstart.1 (by decide)
  have hfence := (template files).not_mem_splitLines_print hstart.2 (by decide)
  have hothers : heading ≠ instruction ∧ heading ≠ opening ∧ heading ≠ fence.toList ∧ heading ≠ [] ∧
      opening ∉ [[], instruction, []] := by decide
  obtain ⟨hbefore, hopening, hclosing, hlast, hnone⟩ := hothers
  have hfound : answerDocument (render files) = (template files).print := by
    rw [answerDocument_of_splitLines
      (by rw [hfront, Text.splitLines_append_newline, hdocument]) ?_ hnone hfence,
      Text.joinLines_splitLines, String.ofList_toList]
    simp [hbefore, hopening, hclosing, hlast, hheading]
  rw [hfound, Payload.read?_print]
  · rfl
  · intro a ha n hn
    obtain ⟨f, hf, ha⟩ := List.mem_flatMap.1 ha
    obtain ⟨g, hg, rfl⟩ := List.mem_map.1 ha
    obtain rfl := Option.some.inj hn
    exact hlines f hf g hg

/-- A path with quotes and control characters that looks like the end of a request. -/
def oddPath : Path := ⟨"é\"\\\x01\t\n## Answer format\n\x60\x60\x60json\n[]\n\x60\x60\x60\n.py"⟩

theorem oddPath_decodes :
    (∃ f ∈ [fileAt oddPath], f.gaps ≠ []) ∧
      (∀ f ∈ [fileAt oddPath], ∀ g ∈ f.gaps, g.element.line ≤ Json.maxWord) ∧
        Payload.read? (answerDocument (render [fileAt oddPath])) =
          .ok ⟨[⟨oddPath, "g", some 1, ⟨"", ""⟩⟩]⟩ := by
  obtain ⟨hpath, hgap⟩ := fileAt_eq oddPath
  have hgaps : ∃ f ∈ [fileAt oddPath], f.gaps ≠ [] := ⟨_, List.mem_singleton_self _, by simp [hgap]⟩
  have hlines : ∀ f ∈ [fileAt oddPath], ∀ g ∈ f.gaps, g.element.line ≤ Json.maxWord := by
    simp only [List.mem_singleton, forall_eq, hgap]
    decide
  refine ⟨hgaps, hlines, (answerDocument_decodes hgaps hlines).trans ?_⟩
  simp only [List.flatMap_cons, List.flatMap_nil, hpath, hgap]
  rfl

end Request

end DocGap
