import DocGap.Payload.Printer
import DocGap.Payload.Reader
import DocGap.Proofs.JsonParts

/-!
# What is written is read

A payload that is written as a document is read from it again, whatever characters its texts are
made of, as long as its line numbers have at most 64 bits. Every reader takes what was written from
the front of a longer text and hands back the rest.
-/
namespace DocGap

namespace Json

open Payload (escape quote hexDigit)

theorem string_control {n : Nat} (hn : n < 0x20) (rest : List Char) :
    string .take ('\\' :: 'u' :: '0' :: '0' :: hexDigit (n / 16) :: hexDigit (n % 16) :: rest) =
      prepend (Char.ofNat n) (string .take rest) := by
  have hunit : ∀ n < 0x20, unit? '0' '0' (hexDigit (n / 16)) (hexDigit (n % 16)) = some n ∧
      isTrailing n = false ∧ isLeading n = false := by decide
  obtain ⟨hsome, htrailing, hleading⟩ := hunit n hn
  rw [string, hsome]
  simp [htrailing, hleading]

theorem string_escape (c : Char) (rest : List Char) :
    string .take (escape c ++ rest) = prepend c (string .take rest) := by
  by_cases hmarked : c ∈ ['"', '\\', '\n', '\r', '\t', '\x08', '\x0c']
  · simp only [List.mem_cons, List.not_mem_nil, or_false] at hmarked
    rcases hmarked with rfl | rfl | rfl | rfl | rfl | rfl | rfl <;> rfl
  · simp only [List.mem_cons, List.not_mem_nil, or_false, not_or] at hmarked
    simp only [escape, hmarked, if_false]
    split
    · next hcontrol =>
      have hread := string_control hcontrol rest
      rwa [Char.ofNat_toNat] at hread
    · next hplain => exact string_plain hmarked.1 hmarked.2.1 (by omega) rest

theorem string_quoted (text rest : List Char) :
    string .take (text.flatMap escape ++ '"' :: rest) = .ok (text, rest) := by
  induction text with
  | nil => rfl
  | cons c text ih => rw [List.flatMap_cons, List.append_assoc, string_escape, ih]; rfl

section Numbers

theorem absorb_eq_ofDigitChars {value : Nat} {ds : List Char}
    (h : Nat.ofDigitChars 10 ds value ≤ maxWord) :
    absorb value ds = (Nat.ofDigitChars 10 ds value, []) := by
  have hgrows : ∀ (ds : List Char) (n : Nat), n ≤ Nat.ofDigitChars 10 ds n := by
    intro ds
    induction ds with
    | nil => exact fun n => Nat.le_refl n
    | cons d ds ih =>
      intro n
      have hnext := ih (10 * n + (d.toNat - '0'.toNat))
      rw [Nat.ofDigitChars_cons]
      omega
  induction ds generalizing value with
  | nil => rfl
  | cons d ds ih =>
    have hnext : 10 * value + (d.toNat - '0'.toNat) = value * 10 + digitValue d := by
      rw [digitValue, Nat.mul_comm]
      rfl
    rw [Nat.ofDigitChars_cons, hnext] at h ⊢
    have hfits := Nat.le_trans (hgrows ds _) h
    rw [absorb, if_neg (by omega), ih h]

theorem absorb_toDigits {n : Nat} (h : n ≤ maxWord) : absorb 0 (Nat.toDigits 10 n) = (n, []) := by
  have hvalue : Nat.ofDigitChars 10 (Nat.toDigits 10 n) 0 = n :=
    Nat.ofDigitChars_toDigits (by decide) (by decide)
  rw [absorb_eq_ofDigitChars (by rwa [hvalue]), hvalue]

theorem roundToDouble_le {n : Nat} (h : n ≠ 0) : roundToDouble n ≤ 2 * n := by
  have hunit : Nat.pow 2 (n.log2 + 1 - 53) ≤ n := by
    calc Nat.pow 2 (n.log2 + 1 - 53) ≤ 2 ^ n.log2 := Nat.pow_le_pow_right (by decide) (by omega)
      _ ≤ n := Nat.log2_self_le h
  have hbelow : n / Nat.pow 2 (n.log2 + 1 - 53) * Nat.pow 2 (n.log2 + 1 - 53) ≤ n :=
    Nat.div_mul_le_self _ _
  simp only [roundToDouble]
  split
  · rw [Nat.add_mul]
    omega
  · omega

theorem overflows_word {n : Nat} (h : n ≤ maxWord) : overflows n 0 = false := by
  by_cases hzero : n = 0
  · rw [hzero]
    rfl
  · have hone : roundToDouble (Nat.pow 10 (0 : Int).toNat) = 1 := by decide
    have hbound : 2 * maxWord < infinityBound := by decide +kernel
    have hround := roundToDouble_le hzero
    have hsmall : decide
        (infinityBound ≤ roundToDouble n * roundToDouble (Nat.pow 10 (0 : Int).toNat)) = false := by
      rw [hone]
      exact decide_eq_false (by omega)
    have hpower : decide ((maxPower : Int) < 0) = false := by decide
    rw [overflows, hsmall, hpower, Bool.or_false, Bool.and_false]

theorem outOfRange_toDigits {n : Nat} (h : n ≤ maxWord) :
    Parts.outOfRange ⟨false, Nat.toDigits 10 n, none, none⟩ = false := by
  simp only [Parts.outOfRange, Parts.significand, absorb_toDigits h]
  exact overflows_word h

theorem eq_nil_of_toDigits {n : Nat} {ds : List Char}
    (h : Nat.toDigits 10 n = '0' :: ds) : ds = [] := by
  induction n using Nat.strongRecOn generalizing ds with
  | ind n ih =>
    by_cases hn : n < 10
    · rw [Nat.toDigits_of_lt_base hn] at h
      exact (List.cons.inj h).2.symm
    · rw [Nat.toDigits_of_base_le (by decide) (by omega)] at h
      cases hfront : Nat.toDigits 10 (n / 10) with
      | nil => exact absurd hfront (List.ne_nil_of_length_pos Nat.length_toDigits_pos)
      | cons d more =>
        rw [hfront, List.cons_append] at h
        obtain rfl := (List.cons.inj h).1
        obtain rfl := ih (n / 10) (by omega) hfront
        have hvalue : Nat.ofDigitChars 10 (Nat.toDigits 10 (n / 10)) 0 = n / 10 :=
          Nat.ofDigitChars_toDigits (by decide) (by decide)
        rw [hfront] at hvalue
        have hzero : Nat.ofDigitChars 10 ['0'] 0 = 0 := rfl
        omega

theorem whole_toDigits (n : Nat) (rest : List Char) :
    whole .take (Nat.toDigits 10 n ++ ',' :: rest) = .ok (Nat.toDigits 10 n, ',' :: rest) := by
  have hdigits : ∀ c ∈ Nat.toDigits 10 n, c.isDigit = true :=
    fun c hc => Nat.isDigit_of_mem_toDigits (by decide) (by decide) hc
  have htake : (Nat.toDigits 10 n ++ ',' :: rest).takeWhile Char.isDigit = Nat.toDigits 10 n := by
    rw [List.takeWhile_append_of_pos hdigits,
      List.takeWhile_cons_of_neg (by decide), List.append_nil]
  have hdrop : (Nat.toDigits 10 n ++ ',' :: rest).dropWhile Char.isDigit = ',' :: rest := by
    rw [List.dropWhile_append_of_pos hdigits, List.dropWhile_cons_of_neg (by decide)]
  have hfound : digits .take (Nat.toDigits 10 n ++ ',' :: rest) =
      .ok (Nat.toDigits 10 n, ',' :: rest) := by
    unfold digits
    rw [htake, hdrop]
    split
    · next hnil => exact absurd hnil (List.ne_nil_of_length_pos Nat.length_toDigits_pos)
    · rfl
  unfold whole
  rw [hfound]
  split
  · next d ds more heq =>
    have hzero : Nat.toDigits 10 n = '0' :: d :: ds := (Prod.mk.inj (Except.ok.inj heq)).1
    cases eq_nil_of_toDigits hzero
  · rfl

theorem number_toDigits {n : Nat} (h : n ≤ maxWord) (rest : List Char) :
    number .take false (Nat.toDigits 10 n ++ ',' :: rest) =
      .ok (⟨false, Nat.toDigits 10 n, none, none⟩, ',' :: rest) := by
  have hend : fraction .take (',' :: rest) = .ok (none, ',' :: rest) ∧
      exponent .take (',' :: rest) = .ok (none, ',' :: rest) := ⟨rfl, rfl⟩
  simp [number, whole_toDigits, hend, outOfRange_toDigits h, bind, Except.bind]

theorem exists_digit (n : Nat) : ∃ d ds, Nat.toDigits 10 n = d :: ds ∧ d.isDigit = true := by
  have hlength : 0 < (Nat.toDigits 10 n).length := Nat.length_toDigits_pos
  obtain ⟨d, ds, hds⟩ := List.exists_cons_of_length_pos hlength
  exact ⟨d, ds, hds, Nat.isDigit_of_mem_toDigits (by decide) (by decide) (hds ▸ List.mem_cons_self)⟩

theorem scalar_toDigits {n : Nat} (h : n ≤ maxWord) (rest : List Char) :
    scalar .take (Nat.toDigits 10 n ++ ',' :: rest) =
      .ok (.number ⟨false, Nat.toDigits 10 n, none, none⟩, ',' :: rest) := by
  have hnumber := number_toDigits h rest
  obtain ⟨d, ds, hds, hdigit⟩ := exists_digit n
  rw [hds, List.cons_append] at hnumber ⊢
  rw [scalar, if_pos hdigit, hnumber]
  · rfl
  all_goals
    rintro rfl
    cases hdigit

end Numbers

end Json

namespace Payload

section Values

variable (text : String) (rest : List Char)

theorem quote_append : quote text ++ rest = '"' :: (text.toList.flatMap escape ++ '"' :: rest) := by
  simp [quote]

theorem textValue_quote : textValue (' ' :: (quote text ++ rest)) = .ok (text.toList, rest) := by
  rw [quote_append]
  exact Json.string_quoted text.toList rest

theorem value_quote (fuel depth : Nat) :
    Json.value .take (fuel + 1) depth (' ' :: (quote text ++ rest)) =
      .ok (.text text.toList, rest) := by
  rw [quote_append]
  change (Json.string .take _).map _ = _
  rw [Json.string_quoted]
  rfl

theorem lineValue_toString {n : Nat} (h : n ≤ Json.maxWord) :
    lineValue (' ' :: ((toString n).toList ++ ',' :: rest)) = .ok (some n, ',' :: rest) := by
  obtain ⟨d, ds, hds, hdigit⟩ := Json.exists_digit n
  have hother : ∀ c : Char, c.isDigit = false → d ≠ c := by
    rintro c hc rfl
    rw [hdigit] at hc
    cases hc
  have hskip : Json.skipBlanks (' ' :: ((toString n).toList ++ ',' :: rest)) =
      Nat.toDigits 10 n ++ ',' :: rest := by
    have hblank : Json.isBlank d = false := by simp [Json.isBlank, hother]
    rw [Nat.toString_eq_repr, Nat.toList_repr, hds, Json.skipBlanks,
      List.dropWhile_cons_of_pos (by decide),
      List.cons_append, List.dropWhile_cons_of_neg (by simp [hblank])]
  unfold lineValue
  rw [hskip]
  split
  · next hnil => simp at hnil
  · next hlist =>
    rw [hds] at hlist
    exact absurd (List.cons.inj hlist).1 (hother _ (by decide))
  · next hobject =>
    rw [hds] at hobject
    exact absurd (List.cons.inj hobject).1 (hother _ (by decide))
  · rw [Json.scalar_toDigits h]
    simp [Json.Parts.natural?, Json.absorb_toDigits h]

end Values

section Members

def lead (first : Bool) (depth : Nat) : List Char :=
  (if first then [] else [',']) ++ '\n' :: spaces (2 * (depth + 1))

/-- What stands behind an item: the other items, and the end of them all. -/
def behind (closing : Char) (depth : Nat) : List (List Char) → List Char → List Char
  | [], rest => '\n' :: spaces (2 * depth) ++ closing :: rest
  | item :: items, rest => lead false depth ++ item ++ behind closing depth items rest

theorem enclose_append (opening closing : Char) (depth : Nat) (item : List Char)
    (items : List (List Char))
    (rest : List Char) :
    enclose opening closing depth (item :: items) ++ rest =
      opening :: lead true depth ++ item ++ behind closing depth items rest := by
  have hitems : ∀ item, [','].intercalate ((item :: items).map (lead true depth ++ ·)) ++
      ('\n' :: spaces (2 * depth) ++ closing :: rest) =
        lead true depth ++ item ++ behind closing depth items rest := by
    induction items with
    | nil =>
      intro item
      simp [behind]
    | cons next items ih =>
      intro item
      rw [List.map_cons, List.map_cons, List.intercalate_cons_cons, ← List.map_cons,
        List.append_assoc, ih]
      simp [behind, lead]
  simpa [enclose, lead] using congrArg (opening :: ·) (hitems item)

theorem skipBlanks_indent (n : Nat) {c : Char} (hc : Json.isBlank c = false) (cs : List Char) :
    Json.skipBlanks ('\n' :: spaces n ++ c :: cs) = c :: cs := by
  have hspaces : ∀ b ∈ '\n' :: spaces n, Json.isBlank b = true := by
    intro b hb
    rcases List.mem_cons.1 hb with rfl | hb
    · rfl
    · rw [List.eq_of_mem_replicate hb]
      rfl
  rw [Json.skipBlanks, List.dropWhile_append_of_pos hspaces,
    List.dropWhile_cons_of_neg (by simp [hc])]

theorem skipBlanks_comma (cs : List Char) : Json.skipBlanks (',' :: cs) = ',' :: cs :=
  List.dropWhile_cons_of_neg (by decide)

theorem nextName_lead (first : Bool) (depth : Nat) (cs : List Char) :
    Json.nextName first (lead first depth ++ '"' :: cs) = .ok (true, '"' :: cs) := by
  rw [lead, List.append_assoc]
  cases first with
  | true =>
    rw [if_pos rfl, List.nil_append, Json.nextName, skipBlanks_indent _ (by decide)]
    rfl
  | false =>
    have hindent := skipBlanks_indent (2 * (depth + 1)) (show Json.isBlank '"' = false by decide) cs
    rw [List.cons_append] at hindent
    rw [if_neg (by decide), List.singleton_append, Json.nextName, skipBlanks_comma]
    simp [hindent]

theorem nextItem_lead (first : Bool) (depth : Nat) (cs : List Char) :
    Json.nextItem first (lead first depth ++ '{' :: cs) = .ok (true, '{' :: cs) := by
  rw [lead, List.append_assoc]
  cases first with
  | true =>
    rw [if_pos rfl, List.nil_append, Json.nextItem, skipBlanks_indent _ (by decide)]
    rfl
  | false =>
    have hindent := skipBlanks_indent (2 * (depth + 1)) (show Json.isBlank '{' = false by decide) cs
    rw [List.cons_append] at hindent
    rw [if_neg (by decide), List.singleton_append, Json.nextItem, skipBlanks_comma]
    simp [hindent]

theorem nextMember_member (first : Bool) (depth : Nat) (name : String) (value rest : List Char) :
    Json.nextMember .take first (lead first depth ++ member name value ++ rest) =
      .ok (some name.toList, ':' :: ' ' :: (value ++ rest)) := by
  have hmember : member name value ++ rest =
      '"' :: (name.toList.flatMap escape ++ '"' :: ':' :: ' ' :: (value ++ rest)) := by
    simp [member, quote]
  rw [List.append_assoc, hmember, Json.nextMember, nextName_lead]
  simp [Json.string_quoted, Except.map]

theorem nextMember_end (first : Bool) (n : Nat) (rest : List Char) :
    Json.nextMember .take first ('\n' :: spaces n ++ '}' :: rest) = .ok (none, rest) := by
  rw [Json.nextMember, Json.nextName, skipBlanks_indent n (by decide)]
  rfl

end Members

section Answers

variable (fuel : Nat) (d : Draft) (rest : List Char)

theorem colon_cons (cs : List Char) : Json.colon (':' :: cs) = .ok cs := rfl

theorem readMember_quote (text : String) :
    let cs := ':' :: ' ' :: (quote text ++ rest)
    (d.file = none →
    readMember fuel d "file" cs = .ok ({ d with file := some text.toList }, rest)) ∧
    (d.name = none →
      readMember fuel d "name" cs = .ok ({ d with name := some text.toList }, rest)) ∧
    readMember (fuel + 1) d "technical" cs =
      .ok ({ d with technical := .text text.toList :: d.technical }, rest) ∧
    readMember (fuel + 1) d "simple" cs =
      .ok ({ d with simple := .text text.toList :: d.simple }, rest) := by
  refine ⟨fun hfile => ?_, fun hname => ?_, ?_, ?_⟩
  · simp [readMember, hfile, colon_cons, textValue_quote, Except.map]
  · simp [readMember, hname, colon_cons, textValue_quote, Except.map]
  · simp [readMember, colon_cons, value_quote, Except.map]
  · simp [readMember, colon_cons, value_quote, Except.map]

theorem readMember_line {n : Nat} (hn : n ≤ Json.maxWord) (hline : d.line = none)
    (hrest : ∃ more, rest = ',' :: more) :
    readMember fuel d "line" (':' :: ' ' :: ((toString n).toList ++ rest)) =
      .ok ({ d with line := some (some n) }, rest) := by
  obtain ⟨more, rfl⟩ := hrest
  rw [readMember, colon_cons]
  simp only [hline, lineValue_toString more hn]
  rfl

theorem readAnswer_member {fuel : Nat} {d e : Draft} {name : String}
    {value rest : List Char} (first : Bool)
    (h : readMember fuel d name (':' :: ' ' :: (value ++ rest)) = .ok (e, rest)) :
    readAnswer (fuel + 1) first d (lead first 2 ++ member name value ++ rest) =
      readAnswer fuel false e rest := by
  rw [readAnswer, nextMember_member]
  dsimp only
  rw [String.ofList_toList, h]

theorem readAnswer_end {a : Answer} {d : Draft} (first : Bool) (h : d.finish = .ok a) :
    readAnswer (fuel + 1) first d (behind '}' 2 [] rest) = .ok (a, rest) := by
  rw [readAnswer, behind, nextMember_end]
  simp [h, Except.map]

def fromTexts (text : Explanation) (rest : List Char) : List Char :=
  lead false 2 ++ member "technical" (quote text.technical) ++
    (lead false 2 ++ member "simple" (quote text.simple) ++ behind '}' 2 [] rest)

theorem readAnswer_fromTexts (file name : List Char) (line : Option (Option Nat))
    (text : Explanation) :
    readAnswer (fuel + 3) false ⟨some file, some name, line, [], []⟩ (fromTexts text rest) =
      .ok (⟨⟨String.ofList file⟩, String.ofList name, line.join, text⟩, rest) := by
  rw [fromTexts, readAnswer_member false (readMember_quote (fuel + 1) _ _ text.technical).2.2.1,
    readAnswer_member false (readMember_quote fuel _ _ text.simple).2.2.2,
      readAnswer_end fuel rest false]
  simp [Draft.finish, partText, bind, Except.bind]

theorem readAnswer_print {a : Answer} (hline : ∀ n ∈ a.line, n ≤ Json.maxWord) :
    ∃ cs, printAnswer a ++ rest = '{' :: cs ∧ readAnswer (fuel + 6) true .start cs =
      .ok (a, rest) := by
  obtain ⟨⟨file⟩, name, line, text⟩ := a
  cases line with
  | none =>
    have htext : printAnswer ⟨⟨file⟩, name, none, text⟩ ++ rest =
        '{' :: (lead true 2 ++ member "file" (quote file) ++
        (lead false 2 ++ member "name" (quote name) ++ fromTexts text rest)) := enclose_append
        '{' '}' 2 _ _ rest
    refine ⟨_, htext, ?_⟩
    rw [readAnswer_member true ((readMember_quote (fuel + 5) .start _ file).1 rfl),
      readAnswer_member false ((readMember_quote (fuel + 4) _ _ name).2.1 rfl)]
    refine (readAnswer_fromTexts (fuel + 1) rest file.toList name.toList none text).trans ?_
    simp
  | some n =>
    have htext : printAnswer ⟨⟨file⟩, name, some n, text⟩ ++ rest =
        '{' :: (lead true 2 ++ member "file" (quote file) ++
        (lead false 2 ++ member "name" (quote name) ++
        (lead false 2 ++ member "line" (toString n).toList ++
          fromTexts text rest))) := enclose_append '{' '}' 2 _ _ rest
    have hnumber := readMember_line (fuel + 3) ⟨some file.toList, some name.toList, none, [], []⟩
      (fromTexts text rest)
      (hline n rfl) rfl ⟨_, rfl⟩
    refine ⟨_, htext, ?_⟩
    rw [readAnswer_member true ((readMember_quote (fuel + 5) .start _ file).1 rfl),
      readAnswer_member false ((readMember_quote (fuel + 4) _ _ name).2.1 rfl)]
    refine (readAnswer_member false hnumber).trans ?_
    refine (readAnswer_fromTexts fuel rest file.toList name.toList (some (some n)) text).trans ?_
    simp

end Answers

section Documents

theorem readAnswers_print (fuel : Nat) {a : Answer}
    (hline : ∀ n ∈ a.line, n ≤ Json.maxWord) (first : Bool)
    (rest : List Char) :
    readAnswers (fuel + 7) first (lead first 1 ++ printAnswer a ++ rest) =
      (readAnswers (fuel + 6) false rest).map fun (answers, rest) => (a :: answers, rest) := by
  obtain ⟨cs, hcs, hread⟩ := readAnswer_print fuel rest hline
  rw [List.append_assoc, hcs]
  simp only [readAnswers, nextItem_lead, hread]

theorem readAnswers_behind (fuel : Nat) {answers : List Answer}
    (hlines : ∀ a ∈ answers, ∀ n ∈ a.line, n ≤ Json.maxWord) (rest : List Char) :
    readAnswers (fuel + answers.length + 7) false (behind ']' 1 (answers.map printAnswer) rest) =
      .ok (answers, rest) := by
  induction answers with
  | nil =>
    rw [List.map_nil, behind, readAnswers, Json.nextItem, skipBlanks_indent _ (by decide)]
    rfl
  | cons a answers ih =>
    rw [List.forall_mem_cons] at hlines
    rw [List.map_cons, behind, readAnswers_print _ hlines.1, List.length_cons,
      show fuel + (answers.length + 1) + 6 = fuel + answers.length + 7 by omega, ih hlines.2]
    rfl

theorem answerList_print (fuel : Nat) {answers : List Answer}
    (hlines : ∀ a ∈ answers, ∀ n ∈ a.line, n ≤ Json.maxWord) (rest : List Char) :
    answerList (fuel + answers.length + 7)
      (' ' :: (enclose '[' ']' 1 (answers.map printAnswer) ++ rest)) =
      .ok (answers, rest) := by
  cases answers with
  | nil => rfl
  | cons a answers =>
    rw [List.forall_mem_cons] at hlines
    rw [List.map_cons, enclose_append]
    change readAnswers _ true
      (lead true 1 ++ printAnswer a ++ behind ']' 1 (answers.map printAnswer) rest) = _
    rw [readAnswers_print _ hlines.1, List.length_cons,
      show fuel + (answers.length + 1) + 6 = fuel + answers.length + 7 by omega,
        readAnswers_behind fuel hlines.2]
    rfl

theorem length_le_enclose (opening closing : Char) (depth : Nat) (items : List (List Char)) :
    items.length ≤ (enclose opening closing depth items).length := by
  cases items with
  | nil => exact Nat.zero_le _
  | cons item items =>
    have hbehind : items.length ≤ (behind closing depth items []).length := by
      induction items with
      | nil => exact Nat.zero_le _
      | cons item items ih =>
        simp only [behind, lead, List.length_cons, List.length_append]
        omega
    have hlength := congrArg List.length (enclose_append opening closing depth item items [])
    simp only [List.append_nil, List.length_cons, List.length_append] at hlength ⊢
    omega

theorem toList_print (p : Payload) : p.print.toList = '{' :: (lead true 0 ++
    member "entries" (enclose '[' ']' 1 (p.answers.map printAnswer)) ++ behind '}' 0 [] []) := by
  rw [print, String.toList_ofList]
  simpa using enclose_append '{' '}' 0
    (member "entries" (enclose '[' ']' 1 (p.answers.map printAnswer))) [] []

theorem ofDocument?_print {p : Payload} (hlines : ∀ a ∈ p.answers, ∀ n ∈ a.line, n ≤ Json.maxWord) :
    ofDocument? p.print.toList = .ok p := by
  obtain ⟨fuel, hfuel⟩ : ∃ fuel, fuelFor p.print.toList = fuel + p.answers.length + 8 := by
    have hanswers := length_le_enclose '[' ']' 1 (p.answers.map printAnswer)
    have hlength := congrArg List.length (toList_print p)
    have hname : (quote "entries").length = 9 := rfl
    simp only [member, List.length_cons, List.length_append, List.length_map, hname]
      at hanswers hlength
    exact ⟨fuelFor p.print.toList - (p.answers.length + 8), by rw [fuelFor]; omega⟩
  have hobject : ∀ cs, Json.skipBlanks ('{' :: cs) = '{' :: cs := fun _ => rfl
  have hread : readObject (fuel + p.answers.length + 8) true none (lead true 0 ++
      member "entries" (enclose '[' ']' 1 (p.answers.map printAnswer)) ++ behind '}' 0 [] []) =
        .ok (p.answers, []) := by
    rw [readObject, nextMember_member]
    simp only [String.ofList_toList, colon_cons, answerList_print fuel hlines]
    rw [readObject, behind, nextMember_end]
    rfl
  unfold ofDocument?
  rw [hfuel, toList_print, hobject]
  simp only [hread]
  rfl

theorem read?_print {p : Payload} (hlines : ∀ a ∈ p.answers, ∀ n ∈ a.line, n ≤ Json.maxWord) :
    read? p.print = .ok p := by
  rw [read?, ofDocument?_print hlines]

end Documents

end Payload

end DocGap
