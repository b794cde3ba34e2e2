import DocGap.Proofs.Leads
import DocGap.Proofs.Templates

/-!
# Names are whole

A rule is done with a name in one of two ways. Something that is no part of an identifier has to
follow the name, or the pattern ends with the name and the best end is the longest one. In the
second way the pattern may stop early, but only behind more characters than a name may have. Which
way a rule takes is computed from its pattern.
-/
namespace DocGap

namespace Grammar

def identifierParts : List Char := ((List.range 128).map Char.ofNat).filter isIdentifierPart

theorem mem_identifierParts {c : Char} (h : isIdentifierPart c = true) : c ∈ identifierParts := by
  have hlt : c.toNat < 128 := by
    unfold isIdentifierPart Char.isAlphanum Char.isAlpha Char.isUpper Char.isLower Char.isDigit at h
    simp only [ge_iff_le, Bool.or_eq_true, Bool.and_eq_true, decide_eq_true_eq] at h
    rcases h with (h | rfl) | rfl
    · simp only [Char.toNat, UInt32.le_iff_toNat_le] at h ⊢
      grind
    · decide
    · decide
  refine List.mem_filter.2 ⟨List.mem_map.2 ⟨c.toNat, List.mem_range.2 hlt, Char.ofNat_toNat c⟩, h⟩

theorem apart_of_isIdentifierPart {c : Char} (h : isIdentifierPart c = true) :
    Text.isBlank c = false ∧ c ≠ ',' ∧ c ≠ '/' := by
  have hall : identifierParts.all (fun c => !Text.isBlank c && c != ',' && c != '/') = true := by
    decide
  simpa [and_assoc] using List.all_eq_true.1 hall c (mem_identifierParts h)

end Grammar

namespace Pattern

open Grammar (isIdentifierPart identifierParts maxIdentifierLength)

def Shut (c : Cursor) : Prop := ∀ x ∈ c.rest.head?, isIdentifierPart x = false

def startsApart (p : Pattern) : Bool :=
  !p.gapable [] && identifierParts.all fun x => !p.mayLead [] x

theorem shut_of_startsApart {p : Pattern} (h : p.startsApart = true) {r e : Reach}
    (he : e ∈ p.ends r) :
    Shut r.cursor := by
  obtain ⟨part, hpart, hreads⟩ := accepts_of_mem_ends he
  have hled : p.LedBy [] part := ledBy_of_accepts hpart
  simp only [startsApart, Bool.and_eq_true, Bool.not_eq_true', List.all_eq_true] at h
  intro x hx
  rw [hreads.rest_eq] at hx
  cases part with
  | nil =>
    change p.gapable [] = true at hled
    rw [h.1] at hled
    cases hled
  | cons c part =>
    obtain rfl : c = x := by simpa using hx
    change p.mayLead [] c = true at hled
    rw [Bool.eq_false_iff]
    intro hc
    rw [h.2 c (Grammar.mem_identifierParts hc)] at hled
    cases hled

def groupless : Pattern → Bool
  | group _ => false
  | seq p q => p.groupless && q.groupless
  | alt p q => p.groupless && q.groupless
  | _ => true

theorem group_of_groupless {p : Pattern} (h : p.groupless = true) {r e : Reach}
    (he : e ∈ p.ends r) :
    e.group = r.group := by
  induction p generalizing r e with
  | empty => rw [List.mem_singleton.1 he]
  | one accept =>
    simp only [ends] at he
    split at he
    · cases he
    · split at he
      · rw [List.mem_singleton.1 he]
      · cases he
  | run accept least most =>
    obtain ⟨d, -, rfl⟩ := List.mem_map.1 he
    rfl
  | stretch accept least =>
    obtain ⟨d, -, rfl⟩ := Option.map_eq_some_iff.1 (Option.mem_toList.1 he)
    rfl
  | seq p q ihp ihq =>
    simp only [groupless, Bool.and_eq_true] at h
    obtain ⟨d, hd, he⟩ := List.mem_flatMap.1 he
    rw [ihq h.2 he, ihp h.1 hd]
  | alt p q ihp ihq =>
    simp only [groupless, Bool.and_eq_true] at h
    exact (List.mem_append.1 he).elim (ihp h.1) (ihq h.2)
  | wordEdge =>
    simp only [ends] at he
    split at he
    · rw [List.mem_singleton.1 he]
    · cases he
  | lineStart =>
    simp only [ends] at he
    split at he
    · rw [List.mem_singleton.1 he]
    · cases he
  | group p ih => cases h

def isGroup : Pattern → Bool
  | group _ => true
  | _ => false

/-- What has to follow the group is no part of an identifier. -/
def guarded : Pattern → Bool
  | seq p q => p.isGroup && q.groupless && q.startsApart || q.guarded
  | _ => false

theorem shut_of_guarded {p : Pattern} (h : p.guarded = true) {r e : Reach} (he : e ∈ p.ends r)
    {first last : Cursor} (hgroup : e.group = some (first, last)) : Shut last := by
  induction p generalizing r with
  | seq p q ihp ihq =>
    obtain ⟨d, hd, he⟩ := List.mem_flatMap.1 he
    simp only [guarded, Bool.or_eq_true, Bool.and_eq_true] at h
    rcases h with ⟨⟨hp, hless⟩, hapart⟩ | hq
    · cases p with
      | group p =>
        obtain ⟨c, -, rfl⟩ := List.mem_map.1 hd
        rw [group_of_groupless hless he, Option.some.injEq, Prod.mk.injEq] at hgroup
        have hshut := shut_of_startsApart hapart he
        rwa [hgroup.2] at hshut
      | _ => cases hp
    · exact ihq hq he
  | _ => cases h

/-- The pattern remembers an identifier, and more of it than a name may have if it is long. -/
def takesName : Pattern → Bool
  | group (seq (one _) (run accept 0 most)) =>
    maxIdentifierLength ≤ most && identifierParts.all accept
  | _ => false

def isEmpty : Pattern → Bool
  | empty => true
  | _ => false

def endsWithName : Pattern → Bool
  | seq p q => p.takesName && q.isEmpty || q.endsWithName
  | _ => false

theorem head?_runEnds (accept : Char → Bool) (most : Nat) (before : Option Char)
    (offset : Nat) (cs : List Char)
    (found : List Cursor) :
    ∃ part d, (runEnds accept 0 most before offset cs found).head? = some d ∧
      Cursor.Reads ⟨before, offset, cs⟩ part d ∧
        (part.length = most ∨ ∀ c ∈ d.rest.head?, accept c = false) := by
  induction cs generalizing most before offset found with
  | nil => exact ⟨[], _, by rw [runEnds, if_pos rfl, List.head?_cons], .refl _, .inr (by simp)⟩
  | cons c cs ih =>
    cases most with
    | zero => exact ⟨[], _, by simp [runEnds], .refl _, .inl rfl⟩
    | succ most =>
      simp only [runEnds, if_true]
      split
      · obtain ⟨part, d, hhead, hreads, hends⟩ :=
          ih most (some c) (offset + c.utf8Size) (⟨before, offset, c :: cs⟩ :: found)
        exact ⟨c :: part, d, hhead, (Cursor.Reads.one before offset c cs).trans hreads,
          hends.imp_left fun hlength => by rw [List.length_cons, hlength]⟩
      · next hc => exact ⟨[], _, rfl, .refl _, .inr (by simpa using hc)⟩

theorem head?_of_takesName {p : Pattern} (h : p.takesName = true) {r e : Reach}
    (he : (p.ends r).head? = some e) :
    ∃ part, e.group = some (r.cursor, e.cursor) ∧ r.cursor.Reads part e.cursor ∧
      (Shut e.cursor ∨ maxIdentifierLength < part.length) := by
  unfold takesName at h
  split at h
  · next start accept most =>
    simp only [Bool.and_eq_true, decide_eq_true_eq, List.all_eq_true] at h
    obtain ⟨⟨before, offset, cs⟩, group⟩ := r
    cases cs with
    | nil => cases he
    | cons c cs =>
      simp only [ends] at he
      split at he
      · obtain ⟨part, d, hhead, hreads, hends⟩ :=
          head?_runEnds accept most (some c) (offset + c.utf8Size) cs []
        simp only [List.flatMap_cons, List.flatMap_nil, List.append_nil, List.map_map,
          List.head?_map, hhead,
          Option.map_some, Option.some.injEq, Function.comp_apply] at he
        subst he
        refine ⟨c :: part, rfl, (Cursor.Reads.one before offset c cs).trans hreads, ?_⟩
        rcases hends with hlength | hends
        · exact .inr (by rw [List.length_cons, hlength]; omega)
        · refine .inl fun x hx => ?_
          rw [Bool.eq_false_iff]
          intro hpart
          have hnone := hends x hx
          rw [h.2 x (Grammar.mem_identifierParts hpart)] at hnone
          cases hnone
      · cases he
  · cases h

theorem shut_of_endsWithName {p : Pattern} (h : p.endsWithName = true) {r e : Reach}
    (he : (p.ends r).head? = some e)
    {first last : Cursor} (hgroup : e.group = some (first, last)) :
    Shut last ∨ ∃ part, first.Reads part last ∧ maxIdentifierLength < part.length := by
  induction p generalizing r with
  | seq p q ihp ihq =>
    simp only [endsWithName, Bool.or_eq_true, Bool.and_eq_true] at h
    rw [ends] at he
    rcases h with ⟨hp, hq⟩ | hq
    · cases q with
      | empty =>
        have hall : (p.ends r).flatMap empty.ends = p.ends r := List.flatMap_singleton' _
        rw [hall] at he
        obtain ⟨part, hcaptured, hreads, hends⟩ := head?_of_takesName hp he
        rw [hcaptured, Option.some.injEq, Prod.mk.injEq] at hgroup
        obtain ⟨rfl, rfl⟩ := hgroup
        exact hends.imp_right fun hlong => ⟨part, hreads, hlong⟩
      | _ => cases hq
    · rw [List.head?_flatMap] at he
      obtain ⟨d, -, hd⟩ := List.exists_of_findSome?_eq_some he
      exact ihq hq hd
  | _ => cases h

theorem head?_of_mem_matchesFrom {p : Pattern} {resume : Nat} {line : Line}
    {before : Option Char} {offset : Nat}
    {cs : List Char} {m : Match} (h : m ∈ p.matchesFrom resume line before offset cs) :
    ∃ e, (p.ends ⟨m.start, none⟩).head? = some e ∧ m.group = e.group := by
  fun_induction matchesFrom p resume line before offset cs with
  | case1 => cases h
  | case2 resume line before offset c cs next hlt ih => exact ih h
  | case3 resume line before offset c cs next hge hnone ih => exact ih h
  | case4 resume line before offset c cs next hge found hfound ih =>
    rcases List.mem_cons.1 h with rfl | h
    · rw [matchAt?_eq_head?] at hfound
      obtain ⟨e, he, rfl⟩ := Option.map_eq_some_iff.1 hfound
      exact ⟨e, he, rfl⟩
    · exact ih h

end Pattern

namespace Rule

theorem shuts_of_mem_table {language : Language} {rule : Rule} (h : rule ∈ table language)
    (hkind : rule.kind ≠ .importPath) :
    rule.capture = .single ∧ (rule.pattern.guarded = true ∨ rule.pattern.endsWithName = true) ∨
      rule.capture = .nameList ∧ rule.pattern.guarded = true := by
  revert rule
  cases language <;> decide

def captured (rule : Rule) (m : Pattern.Match) : List NameList.Item :=
  match m.group with
  | none => []
  | some (first, last) =>
    let text := Text.takeBytes (last.offset - first.offset) first.rest
    match rule.capture with
    | .single => [⟨text, first.offset⟩]
    | .nameList => NameList.names text first.offset
    | .quotedPaths => NameList.quotedPaths text first.offset

/-- An element with a name of its own starts where the match does, and one of many where
its name does. -/
def candidateOf (rule : Rule) (m : Pattern.Match) (item : NameList.Item) : Candidate :=
  match rule.capture with
  | .single => ⟨item.name, m.spot⟩
  | .nameList | .quotedPaths => .ofItem m item

theorem candidates_eq_map_captured (rule : Rule) (m : Pattern.Match) :
    rule.candidates m = (rule.captured m).map (rule.candidateOf m) := by
  unfold candidates captured candidateOf
  cases m.group with
  | none => rfl
  | some group => cases rule.capture <;> rfl

theorem name_candidateOf (rule : Rule) (m : Pattern.Match) (item : NameList.Item) :
    (rule.candidateOf m item).name = item.name := by
  unfold candidateOf
  cases rule.capture <;> rfl

theorem exists_place_of_mem_captured {language : Language} {rule : Rule}
    (hrule : rule ∈ table language)
    (hkind : rule.kind ≠ .importPath) {text : List Char} {m : Pattern.Match}
    (hm : m ∈ rule.pattern.allMatches text)
    {item : NameList.Item} (hitem : item ∈ rule.captured m) :
    ∃ before after, text = before ++ (item.name ++ after) ∧ Text.byteLength before = item.offset ∧
      ((∀ c ∈ after.head?, Grammar.isIdentifierPart c = false) ∨
        Grammar.maxIdentifierLength < item.name.length) := by
  obtain ⟨⟨above, lead, hs⟩, hfits⟩ := Pattern.of_mem_allMatches hm
  obtain ⟨e, he, hgroup⟩ := Pattern.head?_of_mem_matchesFrom hm
  unfold captured at hitem
  split at hitem
  · cases hitem
  · next first last hremembered =>
    obtain ⟨front, list, hfirst, hlast⟩ := hfits.remembers first last hremembered
    rw [hgroup] at hremembered
    have htext : text = (above ++ (lead ++ front)) ++ (list ++ last.rest) := by
      rw [hs.text_eq, ← hlast.rest_eq, List.append_assoc, List.append_assoc, ← hfirst.rest_eq]
      rfl
    have hoffset : Text.byteLength (above ++ (lead ++ front)) = first.offset := by
      rw [hfirst.offset_eq, Text.byteLength_append, Text.byteLength_append,
        ← Nat.add_assoc, ← hs.offset_eq]
      rfl
    dsimp only at hitem
    rw [hlast.takeBytes_eq] at hitem
    have hguarded : rule.pattern.guarded = true → Pattern.Shut last := fun h =>
      Pattern.shut_of_guarded h (List.mem_of_mem_head? he) hremembered
    rcases shuts_of_mem_table hrule
      hkind with ⟨hcapture, hends⟩ | ⟨hcapture, hends⟩ <;> rw [hcapture] at hitem
    · cases List.mem_singleton.1 hitem
      refine ⟨_, last.rest, htext, hoffset, ?_⟩
      rcases hends with hends | hends
      · exact .inl (hguarded hends)
      · refine (Pattern.shut_of_endsWithName hends he hremembered).imp_right ?_
        intro hlong
        obtain ⟨part, hpart, hlong⟩ := hlong
        have heq : part = list := List.append_cancel_right (hpart.rest_eq.symm.trans hlast.rest_eq)
        rwa [heq] at hlong
    · obtain ⟨u, v, hlist, hplace, hbehind⟩ := NameList.exists_stands_of_mem_names hitem
      refine ⟨(above ++ (lead ++ front)) ++ u, v ++ last.rest, ?_, ?_, .inl ?_⟩
      · rw [htext, hlist]
        simp only [List.append_assoc]
      · rw [Text.byteLength_append, hoffset, hplace]
      · intro c hc
        cases v with
        | nil => exact hguarded hends c hc
        | cons d v =>
          rw [List.cons_append, List.head?_cons, Option.mem_some] at hc
          rw [Bool.eq_false_iff]
          intro hpart
          have hapart := Grammar.apart_of_isIdentifierPart (hc ▸ hpart)
          have hd := hbehind d rfl
          rw [hapart.1] at hd
          simp [hapart] at hd

end Rule

theorem Text.length_le_byteLength (cs : List Char) : cs.length ≤ byteLength cs := by
  induction cs with
  | nil => exact Nat.le_refl 0
  | cons c cs ih =>
    have hpos := c.utf8Size_pos
    rw [List.length_cons, byteLength_cons]
    omega

namespace Grammar

theorem isIdentifier_of_accepts {kind : Kind} {name : List Char} (hkind : kind ≠ .importPath)
    (h : accepts kind name = true) : isIdentifier name = true := by
  cases kind with
  | function => exact h
  | exportName => exact h
  | classType => exact (Bool.and_eq_true_iff.1 h).2
  | importPath => exact absurd rfl hkind

theorem length_le_of_isIdentifier {name : List Char} (h : isIdentifier name = true) :
    name.length ≤ maxIdentifierLength := by
  cases name with
  | nil => cases h
  | cons c cs =>
    simp only [isIdentifier, Bool.and_eq_true, decide_eq_true_eq] at h
    exact (Text.length_le_byteLength _).trans h.1.2

/-- The name stands between `before` and `after`, and it is all of the identifier that
starts there. -/
structure WholeIn (text before name after : List Char) : Prop where
  text_eq : text = before ++ (name ++ after)
  stops : ∀ c ∈ after.head?, isIdentifierPart c = false
  identifier_eq : (name ++ after).takeWhile isIdentifierPart = name
  length_le : name.length ≤ maxIdentifierLength

theorem wholeIn_of_isIdentifier {text before name after : List Char}
    (htext : text = before ++ (name ++ after))
    (hname : isIdentifier name = true) (hstops : ∀ c ∈ after.head?, isIdentifierPart c = false) :
    WholeIn text before name after := by
  refine ⟨htext, hstops, ?_, length_le_of_isIdentifier hname⟩
  rw [List.takeWhile_append_of_pos fun c => isIdentifierPart_of_mem hname]
  cases after with
  | nil => exact List.append_nil name
  | cons c after =>
    have hc : isIdentifierPart c = false := hstops c rfl
    rw [List.takeWhile_cons_of_neg (by simp [hc]), List.append_nil]

end Grammar

namespace Extraction

def Captures (language : Language) (text : List Char) (item : NameList.Item) (e : Element) : Prop :=
  ∃ rule ∈ Rule.table language, ∃ m ∈ rule.pattern.allMatches text, item ∈ rule.captured m ∧
    admissible language rule (rule.candidateOf m item) = true ∧
      e = toElement language ⟨rule.kind, item.name, (rule.candidateOf m item).spot⟩

theorem exists_captures_of_mem_findings {language : Language} {text : List Char} {f : Finding}
    (h : f ∈ findings language text) : ∃ item, Captures language text item
    (toElement language f) := by
  obtain ⟨rule, hrule, hf⟩ := List.mem_flatMap.1 (mem_of_mem_keepFirst h)
  obtain ⟨c, hc, rfl⟩ := List.mem_map.1 hf
  obtain ⟨hc, hadmissible⟩ := List.mem_filter.1 hc
  obtain ⟨m, hm, hc⟩ := List.mem_flatMap.1 hc
  rw [Rule.candidates_eq_map_captured] at hc
  obtain ⟨item, hitem, rfl⟩ := List.mem_map.1 hc
  refine ⟨item, rule, hrule, m, hm, hitem, hadmissible, ?_⟩
  rw [Rule.name_candidateOf]

theorem wholeIn_of_captures {language : Language} {text : List Char}
    {item : NameList.Item} {e : Element}
    (h : Captures language text item e) (hkind : e.kind ≠ .importPath) :
    ∃ before after, Grammar.WholeIn text before e.name.toList after ∧
      Text.byteLength before = item.offset := by
  obtain ⟨rule, hrule, m, hm, hitem, hadmissible, rfl⟩ := h
  simp only [admissible, Bool.and_eq_true, Rule.name_candidateOf] at hadmissible
  have hname := Grammar.isIdentifier_of_accepts hkind hadmissible.1.2
  obtain ⟨before, after, htext, hbefore, hends⟩ :=
    Rule.exists_place_of_mem_captured hrule hkind hm hitem
  have hstops : ∀ c ∈ after.head?, Grammar.isIdentifierPart c = false :=
    hends.resolve_right (Nat.not_lt.2 (Grammar.length_le_of_isIdentifier hname))
  refine ⟨before, after, ?_, hbefore⟩
  rw [toElement, String.toList_ofList]
  exact Grammar.wholeIn_of_isIdentifier htext hname hstops

end Extraction

namespace Outline

open Extraction

/-- Functions, classes and exports are called by whole identifiers: the one that a rule
captures goes on with no further character, so that no element is called by the start of a
longer identifier. -/
theorem elements_named_whole (path : Path) (language : Language) (source : String) {kind : Kind}
    (hkind : kind ≠ .importPath) {e : Element}
    (he : e ∈ (ofSource path language source).elements kind) :
    (∃ item, Captures language source.toList item e) ∧
      ∀ item, Captures language source.toList item e → ∃ before after,
        Grammar.WholeIn source.toList before e.name.toList after ∧
          Text.byteLength before = item.offset := by
  obtain ⟨f, hf, rfl, rfl⟩ := exists_finding_of_mem_elements kind he
  exact ⟨exists_captures_of_mem_findings hf, fun item hitem => wholeIn_of_captures hitem hkind⟩

theorem secondName_named_whole :
    secondName ∈ (ofSource ⟨"a.js"⟩ .javascript exportList).elements .exportName ∧
      (∃ item, Captures .javascript exportList.toList item secondName) ∧
        ∀ item, Captures .javascript exportList.toList item secondName → ∃ before after,
          Grammar.WholeIn exportList.toList before secondName.name.toList after ∧
            Text.byteLength before = item.offset := by
  have hmem : secondName ∈ (ofSource ⟨"a.js"⟩ .javascript exportList).elements .exportName := by
    rw [elements_of_finds _ finds_exportList]
    exact List.mem_cons_self
  exact ⟨hmem, elements_named_whole ⟨"a.js"⟩ .javascript exportList (by decide) hmem⟩

end Outline

end DocGap
