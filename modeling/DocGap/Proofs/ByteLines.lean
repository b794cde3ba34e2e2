import DocGap.LineIndex
import DocGap.Text.Offset
import DocGap.Proofs.Lines
import Mathlib.Order.Monotone.Defs
import Mathlib.Order.Nat

/-!
# Lines among bytes

A line feed is one byte, and no other character has that byte in its UTF-8 form. So the line feeds
of a text can be counted among its bytes, and the count up to an offset is what the line index finds
by binary search. The line on which an offset lies is the piece of the text that many line feeds
behind its start.
-/
namespace DocGap

namespace Text

def utf8 (cs : List Char) : List UInt8 := cs.flatMap String.utf8EncodeChar

@[simp] theorem utf8_nil : utf8 [] = [] := rfl

@[simp] theorem utf8_cons (c : Char) (cs : List Char) : utf8
    (c :: cs) = String.utf8EncodeChar c ++ utf8 cs :=
  List.flatMap_cons

@[simp] theorem utf8_append (as bs : List Char) : utf8 (as ++ bs) = utf8 as ++ utf8 bs :=
  List.flatMap_append

theorem length_utf8 (cs : List Char) : (utf8 cs).length = byteLength cs := by
  induction cs with
  | nil => rfl
  | cons c cs ih =>
    rw [utf8_cons, List.length_append, String.length_utf8EncodeChar, ih, byteLength_cons]

theorem toList_toUTF8 (text : String) : text.toUTF8.data.toList = utf8 text.toList := by
  obtain ⟨cs, rfl⟩ : ∃ cs, text = String.ofList cs := ⟨text.toList, (String.ofList_toList).symm⟩
  rw [String.toUTF8_eq_toByteArray, String.toByteArray_ofList,
    String.toList_ofList, List.utf8Encode,
    List.data_toByteArray]
  rfl

/-- A character is its own single byte, or all of its bytes are at least 128. -/
theorem toNat_of_mem_utf8EncodeChar {c : Char} {b : UInt8} (h : b ∈ String.utf8EncodeChar c) :
    b.toNat = c.toNat ∨ 128 ≤ b.toNat := by
  have hlong : ∀ n, 128 ≤ n → n < 256 → (UInt8.ofNat n).toNat = c.toNat ∨
      128 ≤ (UInt8.ofNat n).toNat := by
    intro n hlow hhigh
    rw [UInt8.toNat_ofNat_of_lt' hhigh]
    exact .inr hlow
  revert h
  fun_cases String.utf8EncodeChar c with
  | case1 v hv =>
    rw [List.mem_singleton]
    rintro rfl
    exact .inl (UInt8.toNat_ofNat_of_lt' (Nat.lt_of_le_of_lt hv (by decide)))
  | case2 v =>
    simp only [List.mem_cons, List.not_mem_nil, or_false]
    rintro (rfl | rfl) <;> exact hlong _ (by omega) (by omega)
  | case3 v =>
    simp only [List.mem_cons, List.not_mem_nil, or_false]
    rintro (rfl | rfl | rfl) <;> exact hlong _ (by omega) (by omega)
  | case4 v =>
    simp only [List.mem_cons, List.not_mem_nil, or_false]
    rintro (rfl | rfl | rfl | rfl) <;> exact hlong _ (by omega) (by omega)

theorem feed_not_mem_utf8EncodeChar {c : Char} (h : c ≠ '\n') : 10 ∉ String.utf8EncodeChar c := by
  intro hmem
  rcases toNat_of_mem_utf8EncodeChar hmem with hval | hval
  · exact h (Char.ext (UInt32.toNat_inj.1 hval.symm))
  · simp at hval

theorem count_utf8 (cs : List Char) : (utf8 cs).count 10 = cs.count '\n' := by
  induction cs with
  | nil => rfl
  | cons c cs ih =>
    rw [utf8_cons, List.count_append, ih]
    by_cases hc : c = '\n'
    · rw [hc, List.count_cons_self, show String.utf8EncodeChar '\n' = [10] from rfl,
        List.count_singleton_self,
        Nat.add_comm]
    · rw [List.count_eq_zero.2 (feed_not_mem_utf8EncodeChar hc), Nat.zero_add,
        List.count_cons_of_ne hc]

end Text

namespace LineIndex

section Search

variable {entries : Array Nat} {bound low high : Nat}

/-- The entries in front of `low` are below the bound, and those from `high` on are not. -/
structure Brackets (entries : Array Nat) (bound low high : Nat) : Prop where
  ordered : low ≤ high
  inside : high ≤ entries.size
  below : ∀ i < low, entries.getD i 0 < bound
  above : ∀ i, high ≤ i → i < entries.size → bound ≤ entries.getD i 0

theorem getD_le_getD (hsorted : entries.toList.Pairwise (· < ·)) {i j : Nat} (hij : i ≤ j)
    (hj : j < entries.size) :
    entries.getD i 0 ≤ entries.getD j 0 := by
  rcases Nat.eq_or_lt_of_le hij with rfl | hlt
  · exact Nat.le_refl _
  · have hi : i < entries.size := Nat.lt_trans hlt hj
    have hentries := List.pairwise_iff_getElem.1 hsorted i j hi hj hlt
    rw [Array.getElem_toList, Array.getElem_toList] at hentries
    rw [Array.getD_eq_getD_getElem?, Array.getD_eq_getD_getElem?, Array.getElem?_eq_getElem hi,
      Array.getElem?_eq_getElem hj]
    exact Nat.le_of_lt hentries

theorem Brackets.search (hsorted : entries.toList.Pairwise (· < ·))
    (h : Brackets entries bound low high) :
    Brackets entries bound (search entries bound low high) (search entries bound low high) := by
  fun_induction LineIndex.search entries bound low high with
  | case1 low high hlt middle hsmall ih =>
    refine ih ⟨by omega, h.inside, fun i hi => ?_, h.above⟩
    exact Nat.lt_of_le_of_lt
      (getD_le_getD hsorted (Nat.le_of_lt_succ hi) (by have := h.inside; omega)) hsmall
  | case2 low high hlt middle hlarge ih =>
    have hinside := h.inside
    refine ih ⟨by omega, by omega, h.below, fun i hi hsize => ?_⟩
    exact Nat.le_trans (Nat.not_lt.1 hlarge) (getD_le_getD hsorted hi hsize)
  | case3 low high hlt =>
    obtain rfl : low = high := Nat.le_antisymm h.ordered (Nat.not_lt.1 hlt)
    exact h

theorem Brackets.countP_eq {n : Nat} (h : Brackets entries bound n n) : entries.toList.countP
    (· < bound) = n := by
  have hlength : entries.toList.length = entries.size := Array.length_toList
  have hget : ∀ i (hi : i < entries.toList.length), entries.toList[i] = entries.getD i 0 := by
    intro i hi
    rw [hlength] at hi
    rw [Array.getElem_toList, Array.getD_eq_getD_getElem?,
      Array.getElem?_eq_getElem hi, Option.getD_some]
  have hfront : (entries.toList.take n).countP (· < bound) = n := by
    have hall : ∀ x ∈ entries.toList.take n, decide (x < bound) = true := by
      intro x hx
      obtain ⟨i, hi, rfl⟩ := List.mem_take_iff_getElem.1 hx
      rw [hget]
      exact decide_eq_true (h.below i (by omega))
    rw [List.countP_eq_length.2 hall, List.length_take, hlength]
    exact Nat.min_eq_left h.inside
  have hback : (entries.toList.drop n).countP (· < bound) = 0 := by
    refine List.countP_eq_zero.2 fun x hx => ?_
    obtain ⟨i, hi, rfl⟩ := List.mem_drop_iff_getElem.1 hx
    rw [hget, decide_eq_true_eq, Nat.not_lt]
    exact h.above _ (by omega) (by omega)
  rw [← List.take_append_drop n entries.toList, List.countP_append, hfront, hback, Nat.add_zero]

end Search

section Offsets

theorem le_of_mem_newlineOffsets {k p : Nat} {cs : List Char}
    (h : p ∈ newlineOffsets k cs) : k ≤ p := by
  fun_induction newlineOffsets k cs with
  | case1 => cases h
  | case2 k cs ih =>
    rcases List.mem_cons.1 h with rfl | h
    · exact Nat.le_refl _
    · exact Nat.le_trans (Nat.le_add_right _ _) (ih h)
  | case3 k c cs hc ih => exact Nat.le_trans (Nat.le_add_right _ _) (ih h)

theorem pairwise_newlineOffsets (k : Nat) (cs : List Char) :
    (newlineOffsets k cs).Pairwise (· < ·) := by
  fun_induction newlineOffsets k cs with
  | case1 => exact List.Pairwise.nil
  | case2 k cs ih =>
    refine List.pairwise_cons.2 ⟨fun p hp => ?_, ih⟩
    exact Nat.lt_of_lt_of_le (Nat.lt_add_of_pos_right (Char.utf8Size_pos _))
      (le_of_mem_newlineOffsets hp)
  | case3 k c cs hc ih => exact ih

theorem exists_append_of_getElem? {k n p : Nat} {cs : List Char}
    (h : (newlineOffsets k cs)[n]? = some p) :
    ∃ front back, cs = front ++ '\n' :: back ∧ p = k + Text.byteLength front ∧
      front.count '\n' = n := by
  fun_induction newlineOffsets k cs generalizing n with
  | case1 => simp at h
  | case2 k cs ih =>
    cases n with
    | zero => exact ⟨[], cs, rfl, by simpa using h.symm, rfl⟩
    | succ n =>
      obtain ⟨front, back, rfl, hp, hcount⟩ := ih h
      refine ⟨'\n' :: front, back, rfl, ?_, by rw [List.count_cons_self, hcount]⟩
      rw [hp, Text.byteLength_cons, Nat.add_assoc]
  | case3 k c cs hc ih =>
    obtain ⟨front, back, rfl, hp, hcount⟩ := ih h
    refine ⟨c :: front, back, rfl, ?_, by rw [List.count_cons_of_ne hc, hcount]⟩
    rw [hp, Text.byteLength_cons, Nat.add_assoc]

theorem length_newlineOffsets (k : Nat) (cs : List Char) :
    (newlineOffsets k cs).length = cs.count '\n' := by
  fun_induction newlineOffsets k cs with
  | case1 => rfl
  | case2 k cs ih => rw [List.length_cons, ih, List.count_cons_self]
  | case3 k c cs hc ih => rw [ih, List.count_cons_of_ne hc]

theorem countP_newlineOffsets (k o : Nat) (cs : List Char) :
    (newlineOffsets k cs).countP (· < k + o) = ((Text.utf8 cs).take o).count 10 := by
  induction cs generalizing k o with
  | nil => simp [newlineOffsets]
  | cons c cs ih =>
    have hrest : (newlineOffsets (k + c.utf8Size) cs).countP (· < k + o) =
        ((Text.utf8 cs).take (o - c.utf8Size)).count 10 := by
      -- up to a place inside the first character, nothing of the rest counts
      by_cases hle : c.utf8Size ≤ o
      · rw [← ih (k + c.utf8Size), Nat.add_assoc, Nat.add_sub_cancel' hle]
      · rw [Nat.sub_eq_zero_of_le (by omega), List.take_zero, List.count_nil, List.countP_eq_zero]
        intro p hp
        have hp := le_of_mem_newlineOffsets hp
        simp only [decide_eq_true_eq]
        omega
    rw [Text.utf8_cons, List.take_append, List.count_append, String.length_utf8EncodeChar,
      ← hrest, newlineOffsets]
    by_cases hc : c = '\n'
    · subst hc
      rw [if_pos rfl, List.countP_cons, show String.utf8EncodeChar '\n' = [10] from rfl]
      cases o with
      | zero => simp
      | succ o => simp [Nat.add_comm]
    · have hnone : 10 ∉ (String.utf8EncodeChar c).take o :=
        fun hmem => Text.feed_not_mem_utf8EncodeChar hc (List.mem_of_mem_take hmem)
      rw [if_neg hc, List.count_eq_zero.2 hnone, Nat.zero_add]

end Offsets

section Index

variable (cs : List Char) (o : Nat)

theorem brackets_preceding :
    Brackets (ofText cs).newlines o ((ofText cs).preceding o) ((ofText cs).preceding o) := by
  refine Brackets.search (pairwise_newlineOffsets 0 cs) ⟨Nat.zero_le _, Nat.le_refl _, ?_, ?_⟩
  · intro i hi
    exact absurd hi (Nat.not_lt_zero i)
  · intro i hi hsize
    exact absurd hsize (Nat.not_lt.2 hi)

theorem preceding_eq_count : (ofText cs).preceding o = ((Text.utf8 cs).take o).count 10 := by
  rw [← (brackets_preceding cs o).countP_eq, ← countP_newlineOffsets 0 o cs, Nat.zero_add]
  rfl

theorem exists_append_lineStart :
    ∃ above rest, cs = above ++ rest ∧ (above = [] ∨ ∃ init, above = init ++ ['\n']) ∧
      (ofText cs).lineStart o = Text.byteLength above ∧ (ofText cs).preceding o = above.count '\n' ∧
        Text.byteLength above ≤ o := by
  have hbrackets := brackets_preceding cs o
  unfold lineStart
  split
  · next hzero => exact ⟨[], cs, rfl, .inl rfl, rfl, hzero, Nat.zero_le o⟩
  · next n hn =>
    have hsize : n < (ofText cs).newlines.size := by
      have hinside := hbrackets.inside
      omega
    have hlast := hbrackets.below n (by omega)
    rw [Array.getD_eq_getD_getElem?, Array.getElem?_eq_getElem hsize, Option.getD_some] at hlast ⊢
    have hentry : (newlineOffsets 0 cs)[n]? = some (ofText cs).newlines[n] :=
      List.getElem?_toArray.symm.trans (Array.getElem?_eq_getElem hsize)
    obtain ⟨front, back, hcs, hoffset, hcount⟩ := exists_append_of_getElem? hentry
    have hlength : Text.byteLength (front ++ ['\n']) = Text.byteLength front + 1 := by
      rw [Text.byteLength_append]
      rfl
    refine ⟨front ++ ['\n'], back, by rw [hcs]; simp, .inr ⟨front, rfl⟩, ?_, ?_, ?_⟩
    · omega
    · rw [hn, List.count_append, hcount]
      rfl
    · omega

theorem lineStart_le : (ofText cs).lineStart o ≤ o := by
  obtain ⟨above, rest, -, -, hstart, -, hle⟩ := exists_append_lineStart cs o
  rwa [hstart]

theorem feed_before_lineStart :
    (ofText cs).lineStart o = 0 ∨ (Text.utf8 cs)[(ofText cs).lineStart o - 1]? = some 10 := by
  obtain ⟨above, rest, rfl, hend, hstart, -, -⟩ := exists_append_lineStart cs o
  rw [hstart]
  rcases hend with rfl | ⟨init, rfl⟩
  · exact .inl rfl
  · have hlength : Text.byteLength (init ++ ['\n']) - 1 = (Text.utf8 init).length := by
      rw [Text.byteLength_append, Text.length_utf8]
      rfl
    rw [hlength, Text.utf8_append, Text.utf8_append, List.append_assoc,
      List.getElem?_append_right (Nat.le_refl _), Nat.sub_self]
    exact .inr rfl

theorem count_take_lineStart :
    ((Text.utf8 cs).take ((ofText cs).lineStart o)).count 10 =
      ((Text.utf8 cs).take o).count 10 := by
  obtain ⟨above, rest, hcs, -, hstart, hpreceding, -⟩ := exists_append_lineStart cs o
  have htake : (Text.utf8 cs).take ((ofText cs).lineStart o) = Text.utf8 above := by
    rw [hstart, ← Text.length_utf8, hcs, Text.utf8_append]
    exact List.take_left
  rw [htake, Text.count_utf8, ← hpreceding, preceding_eq_count]

theorem feed_not_mem_line : 10 ∉ ((Text.utf8 cs).take o).drop ((ofText cs).lineStart o) := by
  have hdivide := congrArg (List.count 10)
    (List.take_append_drop ((ofText cs).lineStart o) ((Text.utf8 cs).take o))
  rw [List.count_append, List.take_take, Nat.min_eq_left (lineStart_le cs o),
    count_take_lineStart] at hdivide
  exact List.count_eq_zero.1 (by omega)

theorem dropBytes_lineStart :
    Text.dropBytes ((ofText cs).lineStart o) cs =
      some (Text.joinLines ((Text.splitLines cs).drop ((ofText cs).preceding o))) := by
  obtain ⟨above, rest, rfl, hend, hstart, hpreceding, -⟩ := exists_append_lineStart cs o
  rw [hstart, hpreceding, Text.dropBytes_byteLength]
  rcases hend with rfl | ⟨init, rfl⟩
  · exact congrArg some (Text.joinLines_splitLines rest).symm
  · have hdrop : (Text.splitLines (init ++ ['\n'] ++ rest)).drop ((init ++ ['\n']).count '\n') =
        Text.splitLines rest := by
      rw [List.append_assoc, List.singleton_append, Text.splitLines_append_newline,
        List.count_append]
      exact List.drop_left' (Text.length_pieces '\n' init)
    rw [hdrop, Text.joinLines_splitLines]

theorem lineCount_ofText : (ofText cs).lineCount = (Text.splitLines cs).length := by
  rw [Text.splitLines, Text.length_pieces, ← length_newlineOffsets 0]
  rfl

theorem preceding_lt_lineCount : (ofText cs).preceding o < (ofText cs).lineCount :=
  Nat.lt_succ_of_le (brackets_preceding cs o).inside

end Index

/-- The line of an offset is found by counting the line feeds among the bytes before it, and by
cutting the text at its line feeds. -/
theorem ofText_counts_and_cuts (text : String) (o : Nat) :
    let bytes := text.toUTF8.data.toList
    let lines := Text.splitLines text.toList
    let index := ofText text.toList
    let s := index.lineStart o
    (index.lineOf o = 1 + (bytes.take o).count 10 ∧ Monotone index.lineOf) ∧
    (s ≤ o ∧ 10 ∉ (bytes.take o).drop s ∧ (s = 0 ∨ bytes[s - 1]? = some 10) ∧
      index.lineOf s = index.lineOf o) ∧
    index.lineCount = lines.length ∧ index.lineOf o - 1 < lines.length ∧
      Text.dropBytes s text.toList = some (Text.joinLines (lines.drop (index.lineOf o - 1))) := by
  intro bytes lines index s
  have hbytes : bytes = Text.utf8 text.toList := Text.toList_toUTF8 text
  have hcount : ∀ o, index.lineOf o = 1 + (bytes.take o).count 10 := by
    intro o
    rw [hbytes, ← preceding_eq_count]
    rfl
  have hpiece : index.lineOf o - 1 = index.preceding o := Nat.add_sub_cancel_left 1 _
  refine ⟨⟨hcount o, fun a b hab => ?_⟩, ⟨lineStart_le _ o, ?_, ?_, ?_⟩, lineCount_ofText _, ?_, ?_⟩
  · rw [hcount, hcount]
    exact Nat.add_le_add_left ((List.take_prefix_take_left hab).sublist.count_le 10) 1
  · rw [hbytes]
    exact feed_not_mem_line _ o
  · rw [hbytes]
    exact feed_before_lineStart _ o
  · rw [hcount, hcount, hbytes]
    exact congrArg (1 + ·) (count_take_lineStart _ o)
  · rw [hpiece, ← lineCount_ofText]
    exact preceding_lt_lineCount _ o
  · rw [hpiece]
    exact dropBytes_lineStart _ o

end LineIndex

end DocGap
