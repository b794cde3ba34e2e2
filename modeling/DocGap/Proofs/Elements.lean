import Mathlib.Data.List.Nodup
import DocGap.Proofs.Places

/-!
# What the elements of an outline are like

Every element of an outline is called what the grammar of its kind allows, and its name stands in
the text from its offset on. Its line is the line of its offset. The lists of an outline are in the
order of the text, and no two of its elements agree in kind, name and line.
-/
namespace DocGap

theorem Spot.In.line_le {text : List Char} {s : Spot} (h : s.In text) :
    1 ≤ s.line.number ∧ s.line.number ≤ (Text.splitLines text).length := by
  obtain ⟨above, lead, hs⟩ := h
  have hcount := congrArg (List.count '\n') hs.text_eq
  rw [List.count_append] at hcount
  rw [Text.splitLines, Text.length_pieces, hs.number_eq]
  omega

theorem Grammar.ne_nil_of_accepts {kind : Kind} {name : List Char} (h : accepts kind name = true) :
    name ≠ [] := by
  rintro rfl
  cases kind <;> simp [accepts, isIdentifier, isClassName, isImportPath] at h

namespace Extraction

theorem mem_of_mem_keepFirst {seen : Std.HashSet Key} {fs : List Finding} {f : Finding}
    (h : f ∈ keepFirst seen fs) : f ∈ fs := by
  fun_induction keepFirst seen fs with
  | case1 => cases h
  | case2 seen g gs hseen ih => exact List.mem_cons_of_mem _ (ih h)
  | case3 seen g gs hnew ih =>
    rcases List.mem_cons.1 h with rfl | h
    · exact List.mem_cons_self
    · exact List.mem_cons_of_mem _ (ih h)

theorem keepFirst_eq_self {seen : Std.HashSet Key} {fs : List Finding}
    (hkeys : (fs.map Finding.key).Nodup)
    (hnew : ∀ f ∈ fs, seen.contains f.key = false) : keepFirst seen fs = fs := by
  induction fs generalizing seen with
  | nil => rfl
  | cons f fs ih =>
    obtain ⟨hf, hfs⟩ := List.nodup_cons.1 hkeys
    rw [keepFirst, hnew f List.mem_cons_self, if_neg (by simp), ih hfs fun g hg => ?_]
    have hne : f.key ≠ g.key := fun h => hf (h ▸ List.mem_map_of_mem hg)
    simp [Std.HashSet.contains_insert, hne, hnew g (List.mem_cons_of_mem _ hg)]

theorem nodup_keys_keepFirst (seen : Std.HashSet Key) (fs : List Finding) :
    ((keepFirst seen fs).map Finding.key).Nodup ∧ ∀ f ∈ keepFirst seen fs,
      seen.contains f.key = false := by
  fun_induction keepFirst seen fs with
  | case1 => exact ⟨List.nodup_nil, by simp⟩
  | case2 seen f fs hseen ih => exact ih
  | case3 seen f fs hnew ih =>
    obtain ⟨hnodup, hunseen⟩ := ih
    have hothers : ∀ g ∈ keepFirst (seen.insert f.key) fs, f.key ≠ g.key ∧
        seen.contains g.key = false := by
      intro g hg
      simpa [Std.HashSet.contains_insert] using hunseen g hg
    refine ⟨List.nodup_cons.2 ⟨fun hmem => ?_, hnodup⟩, fun g hg => ?_⟩
    · obtain ⟨g, hg, heq⟩ := List.mem_map.1 hmem
      exact (hothers g hg).1 heq.symm
    · rcases List.mem_cons.1 hg with rfl | hg
      · simpa using hnew
      · exact (hothers g hg).2

theorem exists_candidate_of_mem_findings {language : Language} {text : List Char} {f : Finding}
    (h : f ∈ findings language text) :
    ∃ rule ∈ Rule.table language, ∃ m c, m.Fits rule.pattern ∧ c.Follows m rule.capture ∧
      c.spot.In text ∧ m.spot.In text ∧ admissible language rule c = true ∧
        f = ⟨rule.kind, c.name, c.spot⟩ := by
  obtain ⟨rule, hrule, hf⟩ := List.mem_flatMap.1 (mem_of_mem_keepFirst h)
  obtain ⟨c, hc, rfl⟩ := List.mem_map.1 hf
  obtain ⟨hc, hadmissible⟩ := List.mem_filter.1 hc
  obtain ⟨m, hm, hc⟩ := List.mem_flatMap.1 hc
  obtain ⟨hin, hfits⟩ := Pattern.of_mem_allMatches hm
  obtain ⟨hspot, hfollows⟩ := Rule.of_mem_candidates hin hfits hc
  exact ⟨rule, hrule, m, c, hfits, hfollows, hspot, hin, hadmissible, rfl⟩

/-- The rules find these elements, each of them once and in the order of the text. -/
def Finds (language : Language) (text : List Char) (es : List Element) : Prop :=
  looksBinary text = false ∧
    (((Rule.table language).flatMap (ofRule language text)).map Finding.key).Nodup ∧
    ((Rule.table language).flatMap (ofRule language text)).map (toElement language) = es ∧
      es.Pairwise (·.offset ≤ ·.offset)

instance (language : Language) (text : List Char) (es : List Element) : Decidable
    (Finds language text es) :=
  inferInstanceAs (Decidable (_ ∧ _ ∧ _ ∧ _))

theorem of_mem_findings {language : Language} {text : List Char} {f : Finding}
    (h : f ∈ findings language text) :
    Grammar.accepts f.kind f.name = true ∧ f.spot.In text ∧ f.name <:+: f.spot.rest := by
  obtain ⟨rule, -, m, c, -, hfollows, hin, -, hadmissible, rfl⟩ :=
    exists_candidate_of_mem_findings h
  simp only [admissible, Bool.and_eq_true] at hadmissible
  refine ⟨hadmissible.1.2, hin, ?_⟩
  cases hcapture : rule.capture <;> rw [hcapture] at hfollows
  · exact hfollows.2
  · exact hfollows.isInfix
  · exact hfollows.1.isInfix

end Extraction

namespace Outline

open Extraction

variable {path : Path} {language : Language} {source : String}

theorem elements_ofSource (path : Path) (language : Language) (source : String) (kind : Kind) :
    (ofSource path language source).elements kind =
      if looksBinary source.toList then []
      else sortByOffset
        (((findings language source.toList).map (toElement language)).filter (·.kind = kind)) := by
  unfold ofSource
  dsimp only
  split <;> cases kind <;> rfl

theorem exists_finding_of_mem_elements (kind : Kind) {e : Element}
    (h : e ∈ (ofSource path language source).elements kind) :
    ∃ f ∈ findings language source.toList, e = toElement language f ∧ f.kind = kind := by
  rw [elements_ofSource] at h
  split at h
  · cases h
  · rw [sortByOffset, List.mem_mergeSort, List.mem_filter] at h
    obtain ⟨f, hf, rfl⟩ := List.mem_map.1 h.1
    exact ⟨f, hf, rfl, of_decide_eq_true h.2⟩

theorem everything_eq_flatMap (o : Outline) : o.everything = Kind.all.flatMap o.elements := by
  simp [everything, Kind.all, elements]

theorem exists_finding_of_mem_everything {e : Element}
    (h : e ∈ (ofSource path language source).everything) :
    ∃ f ∈ findings language source.toList, e = toElement language f := by
  rw [everything_eq_flatMap] at h
  obtain ⟨kind, -, h⟩ := List.mem_flatMap.1 h
  obtain ⟨f, hf, he, -⟩ := exists_finding_of_mem_elements kind h
  exact ⟨f, hf, he⟩

theorem exists_finding_of_mem_documentable {e : Element}
    (h : e ∈ (ofSource path language source).documentable) :
    ∃ f ∈ findings language source.toList, e = toElement language f ∧
      (f.kind = .function ∨ f.kind = .classType) := by
  rcases List.mem_append.1 h with h | h
  · obtain ⟨f, hf, he, hk⟩ := exists_finding_of_mem_elements .function h
    exact ⟨f, hf, he, .inl hk⟩
  · obtain ⟨f, hf, he, hk⟩ := exists_finding_of_mem_elements .classType h
    exact ⟨f, hf, he, .inr hk⟩

theorem elements_of_finds (path : Path) {es : List Element} (h : Finds language source.toList es)
    (kind : Kind) : (ofSource path language source).elements kind = es.filter (·.kind = kind) := by
  obtain ⟨hbinary, hkeys, hes, hsorted⟩ := h
  have hfound : findings language source.toList =
      (Rule.table language).flatMap (ofRule language source.toList) :=
    keepFirst_eq_self hkeys fun f _ => Std.HashSet.contains_empty
  rw [elements_ofSource, hbinary, hfound, hes, if_neg (by simp), sortByOffset]
  exact List.mergeSort_of_pairwise ((hsorted.filter _).imp decide_eq_true)

theorem documentable_of_finds (path : Path) {es : List Element}
    (h : Finds language source.toList es) :
    (ofSource path language source).documentable =
      es.filter (·.kind = .function) ++ es.filter (·.kind = .classType) := by
  rw [← elements_of_finds path h .function, ← elements_of_finds path h .classType]
  rfl

theorem everything_of_finds (path : Path) {es : List Element}
    (h : Finds language source.toList es) :
    (ofSource path language source).everything = Kind.all.flatMap fun kind =>
      es.filter (·.kind = kind) := by
  rw [everything_eq_flatMap]
  exact List.flatMap_congr fun kind _ => elements_of_finds path h kind

end Outline

theorem Extraction.indent_toElement {language : Language} {f : Finding} {c : Char}
    (h : c ∈ (toElement language f).indent.toList) : c = ' ' ∨ c = '\t' := by
  rw [toElement, String.toList_ofList] at h
  simpa using List.all_eq_true.1 List.all_takeWhile c h

structure Element.WellFormed (total : Nat) (e : Element) : Prop where
  name : Grammar.isIdentifier e.name.toList = true
  line_pos : 1 ≤ e.line
  line_le : e.line ≤ total
  indent : ∀ c ∈ e.indent.toList, c = ' ' ∨ c = '\t'

theorem Element.WellFormed.indent_blank {total : Nat} {e : Element} (h : e.WellFormed total) :
    ∀ c ∈ e.indent.toList, Text.isBlank c = true ∧ c ≠ '\n' := by
  intro c hc
  rcases h.indent c hc with rfl | rfl <;> decide

theorem Outline.wellFormed_of_mem_documentable {path : Path} {language : Language} {source : String}
    {e : Element} (h : e ∈ (Outline.ofSource path language source).documentable) :
    e.WellFormed (Text.splitLines source.toList).length := by
  obtain ⟨f, hf, rfl, hkind⟩ := exists_finding_of_mem_documentable h
  obtain ⟨haccepts, hin, -⟩ := Extraction.of_mem_findings hf
  refine ⟨?_, hin.line_le.1, hin.line_le.2, fun c hc => Extraction.indent_toElement hc⟩
  rcases hkind with hk | hk <;> simp_all
    [Extraction.toElement, Grammar.accepts, Grammar.isClassName]

def Element.key (e : Element) : Kind × String × Nat := (e.kind, e.name, e.line)

structure Element.FoundIn (text : List Char) (e : Element) : Prop where
  accepted : Grammar.accepts e.kind e.name.toList = true
  inside : e.offset < Text.byteLength text
  place : ∃ before after, text = before ++ after ∧ Text.byteLength before = e.offset ∧
    e.line = 1 + before.count '\n' ∧ e.name.toList <:+: after

namespace Outline

open Extraction

variable (path : Path) (language : Language) (source : String)

theorem foundIn_toElement {f : Finding} (h : f ∈ findings language source.toList) :
    (toElement language f).FoundIn source.toList := by
  obtain ⟨haccepts, ⟨above, lead, hs⟩, hname⟩ := of_mem_findings h
  have htext : source.toList = (above ++ lead) ++ f.spot.rest := by
    rw [hs.text_eq, List.append_assoc]
  have hoffset : Text.byteLength (above ++ lead) = f.spot.offset := by
    rw [Text.byteLength_append, hs.offset_eq]
  refine ⟨?_, ?_, above ++ lead, f.spot.rest, htext, hoffset, ?_, ?_⟩
  · rw [toElement, String.toList_ofList]
    exact haccepts
  · -- something is left behind the spot, since the name is not empty
    obtain ⟨c, rest, hrest⟩ : ∃ c rest, f.spot.rest = c :: rest := by
      apply List.exists_cons_of_ne_nil
      intro hnil
      rw [hnil] at hname
      exact Grammar.ne_nil_of_accepts haccepts (List.eq_nil_of_infix_nil hname)
    have hpos := c.utf8Size_pos
    rw [htext, Text.byteLength_append, hoffset, hrest, Text.byteLength_cons]
    simp only [toElement]
    omega
  · rw [List.count_append, List.count_eq_zero.2 hs.lead_line, Nat.add_zero, Nat.add_comm]
    exact hs.number_eq
  · rw [toElement, String.toList_ofList]
    exact hname

theorem sorted_elements (kind : Kind) :
    ((ofSource path language source).elements kind).Pairwise (·.offset ≤ ·.offset) := by
  rw [elements_ofSource]
  split
  · exact List.Pairwise.nil
  · let le (a b : Element) : Bool := a.offset ≤ b.offset
    have htrans : ∀ a b c, le a b → le b c → le a c := by grind
    have htotal : ∀ a b, le a b || le b a := by grind
    simpa [sortByOffset, le] using List.pairwise_mergeSort htrans htotal _

theorem nodup_keys_findings :
    (((findings language source.toList).map (toElement language)).map Element.key).Nodup := by
  let ofKey (k : Key) : Kind × String × Nat := (k.kind, String.ofList k.name, k.line)
  have hinjective : Function.Injective ofKey := by
    rintro ⟨line, kind, name⟩ ⟨line', kind', name'⟩ heq
    simp only [ofKey, Prod.mk.injEq, String.ofList_inj] at heq
    simp [heq]
  have hnodup :=
    (nodup_keys_keepFirst ∅ ((Rule.table language).flatMap (ofRule language source.toList))).1
  have hmap := hnodup.map hinjective
  rw [List.map_map] at hmap
  rw [List.map_map]
  exact hmap

theorem nodup_keys_elements (kind : Kind) :
    (((ofSource path language source).elements kind).map Element.key).Nodup := by
  rw [elements_ofSource]
  split
  · exact List.nodup_nil
  · have hperm := (List.mergeSort_perm
      (((findings language source.toList).map (toElement language)).filter (·.kind = kind))
      fun a b => a.offset ≤ b.offset).map Element.key
    exact hperm.nodup_iff.2
      ((nodup_keys_findings language source).sublist (List.filter_sublist.map _))

/-- The outline of a text is well formed. -/
theorem ofSource_wellFormed :
    (∀ kind, ∀ e ∈ (ofSource path language source).elements kind, e.kind = kind ∧
      e.FoundIn source.toList) ∧
      (∀ kind, ((ofSource path language source).elements kind).Pairwise (·.offset ≤ ·.offset)) ∧
        ((ofSource path language source).everything.map Element.key).Nodup := by
  have hkind : ∀ kind, ∀ e ∈ (ofSource path language source).elements kind, e.kind = kind := by
    intro kind e he
    obtain ⟨f, -, rfl, hkind⟩ := exists_finding_of_mem_elements kind he
    exact hkind
  refine ⟨fun kind e he => ⟨hkind kind e he, ?_⟩, sorted_elements path language source, ?_⟩
  · obtain ⟨f, hf, rfl, -⟩ := exists_finding_of_mem_elements kind he
    exact foundIn_toElement language source hf
  · rw [everything_eq_flatMap, List.map_flatMap, List.nodup_flatMap]
    refine ⟨fun kind _ => nodup_keys_elements path language source kind, ?_⟩
    -- elements of different lists differ in their kinds
    refine (show Kind.all.Nodup by decide).imp fun {kind kind'} hne => ?_
    intro key hmem hmem'
    obtain ⟨e, he, rfl⟩ := List.mem_map.1 hmem
    obtain ⟨e', he', heq⟩ := List.mem_map.1 hmem'
    apply hne
    rw [← hkind kind e he, ← hkind kind' e' he']
    exact (congrArg Prod.fst heq).symm

section ExportList

/-- The comma in the comment divides nothing, and its letter has two bytes. -/
def exportList : String := "\nexport \x7b/*é,*/ a as b\x7d"

def secondName : Element := ⟨"b", .exportName, 2, 22, none, none, ""⟩

theorem finds_exportList : Finds .javascript exportList.toList [secondName] := by
  rw [exportList, String.toList_ofList]
  decide +kernel

theorem secondName_foundIn :
    secondName ∈ (ofSource ⟨"a.js"⟩ .javascript exportList).elements .exportName ∧
      secondName.kind = .exportName ∧ secondName.FoundIn exportList.toList := by
  have hmem : secondName ∈ (ofSource ⟨"a.js"⟩ .javascript exportList).elements .exportName := by
    rw [elements_of_finds _ finds_exportList]
    exact List.mem_cons_self
  exact ⟨hmem, (ofSource_wellFormed ⟨"a.js"⟩ .javascript exportList).1 .exportName secondName hmem⟩

end ExportList

end Outline

end DocGap
