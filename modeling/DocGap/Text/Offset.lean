/-!
# Byte offsets in a text

Positions count the bytes of the UTF-8 form. A position inside a character is no position of the
text.
-/
namespace DocGap.Text

def byteLength : List Char → Nat
  | [] => 0
  | c :: cs => c.utf8Size + byteLength cs

/-- The text from byte `n` on, if a character starts or the text ends there. -/
def dropBytes : Nat → List Char → Option (List Char)
  | 0, cs => some cs
  | _ + 1, [] => none
  | n + 1, c :: cs => if c.utf8Size ≤ n + 1 then dropBytes (n + 1 - c.utf8Size) cs else none

/-- The characters that lie within the first `n` bytes. -/
def takeBytes : Nat → List Char → List Char
  | 0, _ => []
  | _ + 1, [] => []
  | n + 1, c :: cs => if c.utf8Size ≤ n + 1 then c :: takeBytes (n + 1 - c.utf8Size) cs else []

@[simp] theorem byteLength_nil : byteLength [] = 0 := rfl

@[simp] theorem byteLength_cons (c : Char) (cs : List Char) :
    byteLength (c :: cs) = c.utf8Size + byteLength cs := rfl

@[simp] theorem byteLength_append (as bs : List Char) :
    byteLength (as ++ bs) = byteLength as + byteLength bs := by
  induction as with
  | nil => simp
  | cons c as ih => rw [List.cons_append, byteLength_cons, byteLength_cons, ih, Nat.add_assoc]

theorem dropBytes_byteLength (as bs : List Char) : dropBytes (byteLength as)
    (as ++ bs) = some bs := by
  induction as with
  | nil => simp [dropBytes]
  | cons c as ih =>
    have hpos := c.utf8Size_pos
    obtain ⟨n, hn⟩ : ∃ n, c.utf8Size + byteLength as = n + 1 :=
      ⟨c.utf8Size + byteLength as - 1, by omega⟩
    simp only [byteLength_cons, List.cons_append, hn, dropBytes]
    rw [if_pos (by omega), ← hn, Nat.add_sub_cancel_left, ih]

theorem exists_append_of_dropBytes {n : Nat} {cs rest : List Char}
    (h : dropBytes n cs = some rest) :
    ∃ front, cs = front ++ rest ∧ byteLength front = n := by
  fun_induction dropBytes n cs with
  | case1 cs => exact ⟨[], by simpa using h, rfl⟩
  | case2 => cases h
  | case3 n c cs hle ih =>
    obtain ⟨front, rfl, hfront⟩ := ih h
    exact ⟨c :: front, rfl, by rw [byteLength_cons, hfront]; omega⟩
  | case4 => cases h

theorem takeBytes_byteLength (as bs : List Char) : takeBytes (byteLength as) (as ++ bs) = as := by
  induction as with
  | nil => simp [takeBytes]
  | cons c as ih =>
    have hpos := c.utf8Size_pos
    obtain ⟨n, hn⟩ : ∃ n, c.utf8Size + byteLength as = n + 1 :=
      ⟨c.utf8Size + byteLength as - 1, by omega⟩
    simp only [byteLength_cons, List.cons_append, hn, takeBytes]
    rw [if_pos (by omega), ← hn, Nat.add_sub_cancel_left, ih]

end DocGap.Text
