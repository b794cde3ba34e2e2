import Mathlib.Data.List.TakeWhile
import DocGap.Plan
import DocGap.Proofs.Elements

/-!
# What elements start with

What a rule matches starts, behind spaces and tabs, with a character that is in no comment leader.
This is read off the patterns, for all rules of all languages at once. The names of a list start
with a letter, and a quoted path stands behind its quotation mark.
-/
namespace DocGap

namespace Text

def blanks : List Char :=
  blankRanges.flatMap fun (low, high) => (List.range' low (high + 1 - low)).map Char.ofNat

theorem mem_blanks {c : Char} (h : isBlank c = true) : c ∈ blanks := by
  obtain ⟨⟨low, high⟩, hrange, hc⟩ := List.any_eq_true.1 h
  simp only [Bool.and_eq_true, decide_eq_true_eq] at hc
  refine List.mem_flatMap.2 ⟨(low, high), hrange, List.mem_map.2 ⟨c.toNat, ?_, Char.ofNat_toNat c⟩⟩
  rw [List.mem_range'_1]
  omega

end Text

namespace Pattern

/-- The pattern may read nothing but characters of `gap`. -/
def gapable (gap : List Char) : Pattern → Bool
  | empty => true
  | one accept => gap.any accept
  | run accept least _ => least = 0 || gap.any accept
  | stretch accept least => least = 0 || gap.any accept
  | seq p q => p.gapable gap && q.gapable gap
  | alt p q => p.gapable gap || q.gapable gap
  | wordEdge => true
  | lineStart => true
  | group p => p.gapable gap

/-- What the pattern reads may start with `x`, behind characters of `gap`. -/
def mayLead (gap : List Char) (x : Char) : Pattern → Bool
  | empty => false
  | one accept => accept x
  | run accept _ _ => accept x
  | stretch accept _ => accept x
  | seq p q => p.mayLead gap x || p.gapable gap && q.mayLead gap x
  | alt p q => p.mayLead gap x || q.mayLead gap x
  | wordEdge => false
  | lineStart => false
  | group p => p.mayLead gap x

/-- The first character that is not in `gap` may lead, and only if there is none the pattern
has read a gap. -/
def LedBy (gap : List Char) (p : Pattern) (part : List Char) : Prop :=
  match part.dropWhile (gap.contains ·) with
  | [] => p.gapable gap = true
  | x :: _ => p.mayLead gap x = true

variable {gap : List Char}

theorem ledBy_of_forall {p : Pattern} {accept : Char → Bool} {least : Nat} {part : List Char}
    (hgap : p.gapable gap = (decide (least = 0) || gap.any accept))
    (hlead : ∀ x, p.mayLead gap x = accept x) (hpart : ∀ c ∈ part, accept c = true)
    (hleast : least ≤ part.length) :
    p.LedBy gap part := by
  unfold LedBy
  split
  · next hnil =>
    rw [hgap]
    cases part with
    | nil => simp [Nat.le_zero.1 hleast]
    | cons c part =>
      have hc : gap.contains c = true := List.dropWhile_eq_nil_iff.1 hnil c List.mem_cons_self
      rw [List.any_eq_true.2 ⟨c, by simpa using hc, hpart c List.mem_cons_self⟩, Bool.or_true]
  · next x rest hcons =>
    have hx : x ∈ part := (List.dropWhile_suffix _).subset (hcons ▸ List.mem_cons_self)
    rw [hlead, hpart x hx]

theorem ledBy_of_accepts {p : Pattern} {part : List Char} (h : p.Accepts part) :
    p.LedBy gap part := by
  induction p generalizing part with
  | empty =>
    cases h
    rfl
  | one accept =>
    obtain ⟨c, hc, rfl⟩ := h
    have hall : ∀ d ∈ [c], accept d = true := by simpa using hc
    exact ledBy_of_forall rfl (fun _ => rfl) hall (Nat.le_refl 1)
  | run accept least most => exact ledBy_of_forall rfl (fun _ => rfl) h.1 h.2
  | stretch accept least => exact ledBy_of_forall rfl (fun _ => rfl) h.1 h.2
  | seq p q ihp ihq =>
    obtain ⟨u, v, rfl, hu, hv⟩ := h
    have hu := ihp hu
    have hv := ihq hv
    unfold LedBy at hu hv ⊢
    rw [List.dropWhile_append]
    cases hgap : u.dropWhile (gap.contains ·) with
    | nil =>
      rw [hgap] at hu
      rw [List.isEmpty_nil, if_pos rfl]
      cases hrest : v.dropWhile (gap.contains ·) with
      | nil =>
        rw [hrest] at hv
        exact Bool.and_eq_true_iff.2 ⟨hu, hv⟩
      | cons x rest =>
        rw [hrest] at hv
        exact Bool.or_eq_true_iff.2 (.inr (Bool.and_eq_true_iff.2 ⟨hu, hv⟩))
    | cons x rest =>
      rw [hgap] at hu
      exact Bool.or_eq_true_iff.2 (.inl hu)
  | alt p q ihp ihq =>
    have hside := h.imp ihp ihq
    unfold LedBy at hside ⊢
    cases hrest : part.dropWhile (gap.contains ·) with
    | nil =>
      rw [hrest] at hside
      exact Bool.or_eq_true_iff.2 hside
    | cons x rest =>
      rw [hrest] at hside
      exact Bool.or_eq_true_iff.2 hside
  | wordEdge =>
    cases h
    rfl
  | lineStart =>
    cases h
    rfl
  | group p ih => exact ih h

end Pattern

namespace Language

/-- Characters that no element starts with: blanks, a byte order mark, and what comment
leaders are made of. -/
def foreign (language : Language) : List Char :=
  Text.blanks ++ Plan.byteOrderMark :: language.commentLeaders.flatMap String.toList

theorem mem_foreign_of_isBlank (language : Language) {c : Char} (h : Text.isBlank c = true) :
    c ∈ language.foreign := List.mem_append_left _ (Text.mem_blanks h)

theorem byteOrderMark_mem_foreign (language : Language) : Plan.byteOrderMark ∈ language.foreign :=
  List.mem_append_right _ List.mem_cons_self

theorem mem_foreign_of_mem_leader {language : Language} {leader : String}
    (h : leader ∈ language.commentLeaders) {c : Char} (hc : c ∈ leader.toList) :
    c ∈ language.foreign :=
  List.mem_append_right _ (List.mem_cons_of_mem _ (List.mem_flatMap.2 ⟨leader, h, hc⟩))

-- A bounded statement on characters is computed by `List.all`: characters are finitely many, and a
-- search for an
-- instance may settle on going through all of them.
theorem solid_of_mem_leader {language : Language} {leader : String}
    (h : leader ∈ language.commentLeaders) :
    leader.toList ≠ [] ∧ ∀ c ∈ leader.toList, Text.isBlank c = false := by
  have hall : ∀ leader ∈ language.commentLeaders,
      leader.toList ≠ [] ∧ leader.toList.all (fun c => !Text.isBlank c) = true := by
    cases language <;> decide
  obtain ⟨hne, hsolid⟩ := hall leader h
  exact ⟨hne, by simpa using hsolid⟩

theorem not_mem_foreign (language : Language) :
    (∀ c ∈ language.foreign, Grammar.isIdentifierStart c = false) ∧ '"' ∉ language.foreign := by
  have hall : language.foreign.all (fun c => !Grammar.isIdentifierStart c && c != '"') = true := by
    cases language <;> decide +kernel
  have hmem : ∀ c ∈ language.foreign, Grammar.isIdentifierStart c = false ∧ c ≠ '"' := by
    simpa using hall
  exact ⟨fun c hc => (hmem c hc).1, fun hquote => (hmem _ hquote).2 rfl⟩

end Language

namespace Rule

def gapChars : List Char := [' ', '\t']

theorem contains_gapChars (c : Char) : gapChars.contains c = isGap c := by
  simp [gapChars, isGap]

theorem leads_of_mem_table {language : Language} {rule : Rule} (h : rule ∈ table language)
    (hsingle : rule.capture = .single) : rule.pattern.gapable gapChars = false ∧
      ∀ x ∈ language.foreign, isGap x = false → rule.pattern.mayLead gapChars x = false := by
  have hall : ∀ rule ∈ table language, rule.capture = .single →
      rule.pattern.gapable gapChars = false ∧
      language.foreign.all (fun x => isGap x || !rule.pattern.mayLead gapChars x) = true := by
    cases language <;> decide +kernel
  obtain ⟨hsolid, hleads⟩ := hall rule h hsingle
  refine ⟨hsolid, fun x hx hgap => ?_⟩
  simpa [hgap] using List.all_eq_true.1 hleads x hx

theorem kind_of_mem_table {language : Language} {rule : Rule} (h : rule ∈ table language) :
    rule.capture = .nameList → rule.kind = .exportName := by
  revert rule
  cases language <;> decide

end Rule

/-- A character that no comment line starts with stands on the line, behind `front` and a gap, and
`front` ends no later than `lead`. -/
def Anchored (language : Language) (lead rest : List Char) : Prop :=
  ∃ front gap y more, lead ++ rest = front ++ (gap ++ y :: more) ∧ front <+: lead ∧
    (∀ c ∈ gap, Rule.isGap c = true) ∧ y ∉ language.foreign

namespace Extraction

open Rule (isGap)

theorem anchored_of_fits {language : Language} {rule : Rule} (hrule : rule ∈ Rule.table language)
    (hsingle : rule.capture = .single) {m : Pattern.Match} (hfits : m.Fits rule.pattern)
    (lead : List Char) :
    Anchored language lead m.start.rest := by
  obtain ⟨hsolid, hforeign⟩ := Rule.leads_of_mem_table hrule hsingle
  obtain ⟨part, hpart, hreads⟩ := hfits.reads
  have hled : rule.pattern.LedBy Rule.gapChars part := Pattern.ledBy_of_accepts hpart
  simp only [Pattern.LedBy, Rule.contains_gapChars] at hled
  split at hled
  · rw [hsolid] at hled
    cases hled
  · next x rest hcons =>
    have hx : isGap x = false := by
      have hhead := List.head?_dropWhile_not isGap part
      simpa [hcons] using hhead
    have hsplit : part = part.takeWhile isGap ++ x :: rest := by
      rw [← hcons, List.takeWhile_append_dropWhile]
    refine ⟨lead, part.takeWhile isGap, x, rest ++ m.stop.rest, ?_, List.prefix_rfl,
      ?_, fun hmem => ?_⟩
    · rw [hreads.rest_eq, ← List.cons_append, ← List.append_assoc (part.takeWhile isGap), ← hsplit]
    · exact fun c hc => List.mem_takeWhile_imp hc
    · rw [hforeign x hmem hx] at hled
      cases hled

theorem anchored_of_mem_findings {language : Language} {text : List Char} {f : Finding}
    (h : f ∈ findings language text) :
    ∃ above lead, f.spot.Stands text above lead ∧ Anchored language lead f.spot.rest ∧
      standsInComment language f.spot = false := by
  obtain ⟨rule, hrule, m, c, hfits, hfollows, ⟨above, lead, hstands⟩, hin, hadmissible, rfl⟩ :=
    exists_candidate_of_mem_findings h
  obtain ⟨hletter, hquote⟩ := language.not_mem_foreign
  simp only [admissible, Bool.and_eq_true, Bool.not_eq_true'] at hadmissible
  refine ⟨above, lead, hstands, ?_, hadmissible.2⟩
  cases hcapture : rule.capture with
  | single =>
    rw [hcapture] at hfollows
    dsimp only
    rw [hfollows.1]
    exact anchored_of_fits hrule hcapture hfits lead
  | nameList =>
    rw [hcapture] at hfollows
    obtain ⟨more, hmore⟩ := hfollows
    have hname := hadmissible.1.2
    rw [Rule.kind_of_mem_table hrule hcapture, Grammar.accepts] at hname
    cases hc : c.name with
    | nil =>
      rw [hc] at hname
      cases hname
    | cons x name =>
      rw [hc, Grammar.isIdentifier] at hname
      simp only [Bool.and_eq_true] at hname
      refine ⟨lead, [], x, name ++ more, ?_, List.prefix_rfl, by simp, fun hmem => ?_⟩
      · rw [← hmore, hc]
        rfl
      · rw [hletter x hmem] at hname
        cases hname.1.1
  | quotedPaths =>
    rw [hcapture] at hfollows
    obtain ⟨-, part, hpart⟩ := hfollows
    obtain ⟨above', lead', hmatch⟩ := hin
    have hrest : m.spot.rest = part ++ '"' :: c.spot.rest := hpart
    -- the quotation mark is the last character before the spot, and no line ends with it
    have hbefore : above ++ lead = above' ++ (lead' ++ part) ++ ['"'] := by
      have htext := hstands.text_eq.symm.trans hmatch.text_eq
      rw [hrest] at htext
      refine (List.append_left_inj c.spot.rest).1 ?_
      simpa using htext
    rcases List.eq_nil_or_concat lead with rfl | ⟨front, y, rfl⟩
    · rw [List.append_nil] at hbefore
      have habove := hstands.above_end
      rw [hbefore] at habove
      simp at habove
    · rw [List.concat_eq_append, ← List.append_assoc] at hbefore
      have hy : y = '"' := by simpa using List.append_inj_right' hbefore rfl
      subst hy
      exact ⟨front, [], '"', c.spot.rest, by simp, by simp, by simp, hquote⟩

end Extraction

end DocGap
