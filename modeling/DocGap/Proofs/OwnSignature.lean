import DocGap.Signature
import DocGap.Proofs.CodeView
import DocGap.Proofs.Places

/-!
# A signature is its own signature

The scan for the opener of a body is a run of `Scan.step` over the characters that start before the
limit. Blanks in front leave the state in which the scan starts as it is, so that a second scan over
the trimmed result goes through the same states as the first one and meets no opener. It is not cut
short by the limit, since it starts no later.
-/
namespace DocGap

namespace Signature

variable {language : Language}

/-- The state behind a part in which no body opens. -/
def Scan.run (language : Language) (s : Scan) (part : List Char) : Option Scan :=
  part.foldlM (Scan.step language) s

theorem Scan.run_append (s : Scan) (front back : List Char) :
    s.run language (front ++ back) = (s.run language front).bind (Scan.run language · back) := by
  rw [run, List.foldlM_append]
  rfl

theorem step_start_of_isBlank {b : Char} (hb : Text.isBlank b = true) {s : Scan}
    (h : Scan.start.step language b = some s) : s = .start := by
  have hne : ∀ {d : Char}, Text.isBlank d = false → b ≠ d := fun hd => Comment.ne_of_isBlank hb hd
  have hquote : isQuote language b = false := by
    unfold isQuote
    split
    iterate 3 exact absurd rfl (hne (by decide))
    rfl
  have hopen : isBracketOpen b = false := by
    simp [isBracketOpen, hne (show Text.isBlank '(' = false by decide),
      hne (show Text.isBlank '[' = false by decide),
      hne (show Text.isBlank '{' = false by decide)]
  have hclose : isBracketClose b = false := by
    simp [isBracketClose, hne (show Text.isBlank ')' = false by decide),
      hne (show Text.isBlank ']' = false by decide),
      hne (show Text.isBlank '}' = false by decide)]
  have hback : b ≠ '\\' := hne (by decide)
  simp only [Scan.step, Scan.start, hback, hquote, if_false, Bool.false_eq_true, Scan.plain,
    hopen, hclose] at h
  split at h
  · split at h
    · cases h
    · exact (Option.some.inj h).symm
  · split at h
    · cases h
    · exact (Option.some.inj h).symm
  · split at h
    · cases h
    · exact (Option.some.inj h).symm

theorem run_start_of_blanks {lead part : List Char} {s : Scan}
    (hlead : ∀ b ∈ lead, Text.isBlank b = true)
    (h : Scan.start.run language (lead ++ part) = some s) :
    Scan.start.run language part = some s := by
  induction lead with
  | nil => exact h
  | cons b lead ih =>
    rw [List.cons_append, Scan.run, List.foldlM_cons, Option.bind_eq_bind,
      Option.bind_eq_some_iff] at h
    obtain ⟨next, hnext, h⟩ := h
    rw [step_start_of_isBlank (hlead b List.mem_cons_self) hnext] at h
    exact ih (fun c hc => hlead c (List.mem_cons_of_mem b hc)) h

def Within (offset : Nat) (part : List Char) : Prop :=
  ∀ front back, part = front ++ back → back ≠ [] → offset + Text.byteLength front < scanLimit

theorem Within.of_cons {offset : Nat} {c : Char} {part : List Char}
    (h : Within offset (c :: part)) :
    offset < scanLimit ∧ Within (offset + c.utf8Size) part := by
  refine ⟨h [] (c :: part) rfl (by simp), fun front back hpart hne => ?_⟩
  have hlt := h (c :: front) back (by rw [hpart, List.cons_append]) hne
  rw [Text.byteLength_cons] at hlt
  omega

theorem Within.cons {offset : Nat} {c : Char} {part : List Char} (hlt : offset < scanLimit)
    (h : Within (offset + c.utf8Size) part) : Within offset (c :: part) := by
  intro front back hpart hne
  cases front with
  | nil => exact hlt
  | cons d front =>
    obtain ⟨rfl, hrest⟩ := List.cons.inj hpart
    have hfront := h front back hrest hne
    rw [Text.byteLength_cons]
    omega

theorem Within.infix {lead part trail : List Char} (h : Within 0 (lead ++ (part ++ trail))) :
    Within 0 part := by
  intro front back hpart hne
  have hlt := h (lead ++ front) (back ++ trail) (by simp [hpart]) (by simp [hne])
  rw [Text.byteLength_append] at hlt
  omega

theorem Within.byteLength_le {offset : Nat} {part : List Char} (h : Within offset part)
    (hne : part ≠ []) :
    offset + Text.byteLength part ≤ scanLimit + 3 := by
  obtain ⟨front, last, rfl⟩ := (List.eq_nil_or_concat part).resolve_left hne
  have hlt := h front [last] (List.concat_eq_append ..) (by simp)
  have hsize := last.utf8Size_le_four
  rw [List.concat_eq_append, Text.byteLength_append, Text.byteLength_cons, Text.byteLength_nil]
  omega

theorem untilOpener_eq_self {s t : Scan} {offset : Nat} {part : List Char}
    (hrun : s.run language part = some t)
    (hwithin : Within offset part) : untilOpener language s offset part = part := by
  induction part generalizing s offset with
  | nil => rfl
  | cons c part ih =>
    obtain ⟨hlt, hrest⟩ := hwithin.of_cons
    rw [Scan.run, List.foldlM_cons, Option.bind_eq_bind, Option.bind_eq_some_iff] at hrun
    obtain ⟨next, hnext, hrun⟩ := hrun
    rw [untilOpener, if_neg (by omega), hnext]
    exact congrArg (c :: ·) (ih hrun hrest)

theorem untilOpener_spec (language : Language) (s : Scan) (offset : Nat) (cs : List Char) :
    ∃ rest t, cs = untilOpener language s offset cs ++ rest ∧
      s.run language (untilOpener language s offset cs) = some t ∧
      Within offset (untilOpener language s offset cs) ∧
      (rest = [] ∨ scanLimit ≤ offset + Text.byteLength (untilOpener language s offset cs) ∨
        ∃ c more, rest = c :: more ∧ t.step language c = none) := by
  have hnothing : ∀ offset, Within offset [] := fun offset front back hnil hne =>
    absurd (List.append_eq_nil_iff.1 hnil.symm).2 hne
  induction cs generalizing s offset with
  | nil => exact ⟨[], s, rfl, rfl, hnothing offset, .inl rfl⟩
  | cons c cs ih =>
    rw [untilOpener]
    split
    · next hlimit => exact ⟨c :: cs, s, rfl, rfl, hnothing offset, .inr (.inl hlimit)⟩
    · next hlimit =>
      split
      · next hopens =>
          exact ⟨c :: cs, s, rfl, rfl, hnothing offset, .inr (.inr ⟨c, cs, rfl, hopens⟩)⟩
      · next next hnext =>
        obtain ⟨rest, t, hcs, hrun, hwithin, hstop⟩ := ih next (offset + c.utf8Size)
        refine ⟨rest, t, congrArg (c :: ·) hcs, ?_, hwithin.cons (by omega), ?_⟩
        · rw [Scan.run, List.foldlM_cons, hnext]
          exact hrun
        · rwa [Text.byteLength_cons, ← Nat.add_assoc]

def Opener.isMark : Opener → Char → Bool
  | .brace, c => c = '{'
  | .colon, c => c = ':'
  | .lineEnd, c => c = '\n' || c = ';'

theorem plain_of_isMark {o : Opener} {s : Scan} {c : Char} (hdepth : s.depth = 0)
    (hc : o.isMark c = true) :
    s.plain o c = none := by
  cases o with
  | brace => simpa [Scan.plain, Opener.isMark] using hc
  | colon =>
    obtain rfl : c = ':' := by simpa [Opener.isMark] using hc
    simp [Scan.plain, isBracketOpen, isBracketClose, hdepth]
  | lineEnd =>
    have hends : c = '\n' ∨ c = ';' := by simpa [Opener.isMark] using hc
    rcases hends with rfl | rfl <;> simp [Scan.plain, isBracketOpen, isBracketClose, hdepth]

theorem step_of_isMark {s : Scan} {c : Char} (hquote : s.quote = none)
    (hescaped : s.escaped = false)
    (hdepth : s.depth = 0) (hc : (opener language).isMark c = true) : s.step language c = none := by
  have hmark : c = '{' ∨ c = ':' ∨ c = '\n' ∨ c = ';' := by
    cases ho : opener language <;> simp only [ho, Opener.isMark, Bool.or_eq_true,
      decide_eq_true_eq] at hc <;> simp [hc]
  have hother : c ≠ '\\' ∧ isQuote language c = false := by
    rcases hmark with rfl | rfl | rfl | rfl <;> exact ⟨by decide, rfl⟩
  simp only [Scan.step, hescaped, hother, hquote, plain_of_isMark hdepth hc, if_false,
    Bool.false_eq_true]

/-- Why a signature ends with `part`, in front of `rest`. -/
def Ends (language : Language) (part rest : List Char) : Prop :=
  rest = [] ∨ scanLimit ≤ Text.byteLength part ∨
    ∃ c more s, rest = c :: more ∧ Scan.start.run language part = some s ∧ s.step language c = none

theorem ofTail_eq_some_iff {tail found : List Char} :
    ofTail language tail = some found ↔
      Text.trim (untilOpener language .start 0 tail) = found ∧ found ≠ [] := by
  unfold ofTail
  dsimp only
  split
  · next hempty =>
    rw [List.isEmpty_iff] at hempty
    simp only [reduceCtorEq, false_iff, not_and, hempty]
    exact fun hnil hne => hne hnil.symm
  · next hempty =>
    rw [Option.some.injEq]
    refine ⟨fun heq => ⟨heq, fun hnil => hempty ?_⟩, And.left⟩
    rw [heq, hnil, List.isEmpty_nil]

theorem ofTail_eq_self {found : List Char} {s : Scan} (hne : found ≠ []) (htight : Text.Tight found)
    (hrun : Scan.start.run language found = some s) (hwithin : Within 0 found) :
    ofTail language found = some found := by
  refine ofTail_eq_some_iff.2 ⟨?_, hne⟩
  have hnone : ∀ c ∈ ([] : List Char), Text.isBlank c = true := by simp
  have htrim := Text.trim_append hnone hnone hne htight
  rw [List.nil_append, List.append_nil] at htrim
  rw [untilOpener_eq_self hrun hwithin, htrim]

theorem not_isMark_of_run {found front back : List Char} {c : Char} {s t : Scan}
    (hrun : Scan.start.run language found = some t) (hfound : found = front ++ c :: back)
    (hfront : Scan.start.run language front = some s) (hquote : s.quote = none)
    (hescaped : s.escaped = false)
    (hdepth : s.depth = 0) : (opener language).isMark c = false := by
  rw [Bool.eq_false_iff]
  intro hmark
  rw [hfound, Scan.run_append, hfront, Option.bind_some, Scan.run, List.foldlM_cons,
    step_of_isMark hquote hescaped hdepth hmark] at hrun
  cases hrun

/-- A signature is a part of the text behind its start, between blanks, and ends where the body
opens, where the limit is reached or where the text ends. No body opens in it, so that it is its
own signature. -/
theorem startingAt_own_signature {text found : List Char} {start : Nat}
    (h : startingAt language text start = some found) :
    found ≠ [] ∧ Text.Tight found ∧ Text.byteLength found ≤ scanLimit + 3 ∧
    (∃ before lead trail after, text = before ++ (lead ++ (found ++ (trail ++ after))) ∧
      Text.byteLength before = start ∧ (∀ c ∈ lead ++ trail, Text.isBlank c = true) ∧
      Ends language (lead ++ (found ++ trail)) after) ∧
    (∀ front c back s, found = front ++ c :: back → Scan.start.run language front = some s →
      s.quote = none → s.escaped = false → s.depth = 0 → (opener language).isMark c = false) ∧
    startingAt language found 0 = some found := by
  obtain ⟨tail, htail, hfound⟩ := Option.bind_eq_some_iff.1 h
  obtain ⟨rfl, hne⟩ := ofTail_eq_some_iff.1 hfound
  obtain ⟨before, rfl, hbefore⟩ := Text.exists_append_of_dropBytes htail
  obtain ⟨after, s, htail, hrun, hwithin, hends⟩ := untilOpener_spec language .start 0 tail
  generalize untilOpener language .start 0 tail = part at *
  obtain ⟨lead, trail, hpart, hlead, htrail⟩ := Text.append_trim_append part
  have htight := Text.tight_trim part
  generalize Text.trim part = found at *
  subst hpart
  -- the blanks in front leave the state as it is, and those behind are cut off
  have hrest := run_start_of_blanks hlead hrun
  rw [Scan.run_append] at hrest
  obtain ⟨t, hagain, -⟩ := Option.bind_eq_some_iff.1 hrest
  have hself : startingAt language found 0 = some found := by
    rw [startingAt, Text.dropBytes, Option.bind_some]
    exact ofTail_eq_self hne htight hagain hwithin.infix
  have hshort := hwithin.infix.byteLength_le hne
  rw [Nat.zero_add] at hshort
  refine ⟨hne, htight, hshort,
    ⟨before, lead, trail, after, by simp [htail], hbefore, ?_, ?_⟩, ?_, hself⟩
  · intro c hc
    exact (List.mem_append.1 hc).elim (hlead c) (htrail c)
  · rw [Nat.zero_add] at hends
    rcases hends with hend | hlimit | ⟨c, more, hafter, hopens⟩
    · exact .inl hend
    · exact .inr (.inl hlimit)
    · exact .inr (.inr ⟨c, more, s, hafter, hrun, hopens⟩)
  · intro front c back s hfound hfront
    exact not_isMark_of_run hagain hfound hfront

def parameterText : List Char := "x\n  def f(a: \"):\", *b) \t: pass".toList

theorem parameterText_signature :
    startingAt .python parameterText 2 = some "def f(a: \"):\", *b)".toList ∧
      startingAt .python "def f(a: \"):\", *b)".toList 0 = some "def f(a: \"):\", *b)".toList := by
  have hfound : startingAt .python parameterText 2 = some "def f(a: \"):\", *b)".toList := by decide
  exact ⟨hfound, (startingAt_own_signature hfound).2.2.2.2.2⟩

end Signature
end DocGap
