import DocGap.Comment
import DocGap.Proofs.Lines

/-!
# The code of a text

What is left of a text when its comments and blanks are removed. Reading goes from left to right
with one bit of state, whether a comment is open; `after` is that bit behind a text. No line feed is
part of `/*` or `*/`, so that a text is read line by line.
-/
namespace DocGap.Comment

/-- What is left without comments and blanks. A comment reaches from `/*` to the next `*/`; `inside`
says that the text starts in one. -/
def code : Bool → List Char → List Char
  | _, [] => []
  | false, '/' :: '*' :: cs => code true cs
  | true, '*' :: '/' :: cs => code false cs
  | true, _ :: cs => code true cs
  | false, c :: cs => if Text.isBlank c then code false cs else c :: code false cs

def after (inside : Bool) (cs : List Char) : Bool := (scanLine inside cs).2

def afterLines (inside : Bool) (lines : List (List Char)) : Bool := lines.foldl after inside

def codeLines (inside : Bool) : List (List Char) → List Char
  | [] => []
  | line :: rest => code inside line ++ codeLines (after inside line) rest

section Characters

variable {c : Char} {cs : List Char}

@[simp] theorem after_nil (inside : Bool) : after inside [] = inside := by cases inside <;> rfl

@[simp] theorem after_open (cs : List Char) : after false ('/' :: '*' :: cs) = after true cs := rfl

@[simp] theorem after_close (cs : List Char) : after true ('*' :: '/' :: cs) = after false cs := rfl

theorem after_outside (h : ∀ r, c = '/' → cs ≠ '*' :: r) : after false
    (c :: cs) = after false cs := by
  unfold after
  rw [scanLine] <;> simp_all

theorem code_outside (h : ∀ r, c = '/' → cs ≠ '*' :: r) :
    code false (c :: cs) = if Text.isBlank c then code false cs else c :: code false cs := by
  rw [code]
  simp_all

theorem after_inside (h : ∀ r, c = '*' → cs ≠ '/' :: r) : after true (c :: cs) = after true cs := by
  unfold after
  rw [scanLine] <;> simp_all

theorem code_inside (h : ∀ r, c = '*' → cs ≠ '/' :: r) : code true (c :: cs) = code true cs := by
  rw [code]
  simp_all

end Characters

theorem append_cons_ne_cons {c y : Char} {as bs : List Char} (hc : c ≠ y) (h : ∀ r, as ≠ y :: r)
    (r : List Char) : as ++ c :: bs ≠ y :: r := by
  cases as with
  | nil => simp [hc]
  | cons x as =>
    intro hr
    exact h as (by simp_all)

theorem scan_append_cons {c : Char} (hslash : c ≠ '/') (hstar : c ≠ '*') (inside : Bool)
    (as bs : List Char) :
    after inside (as ++ c :: bs) = after (after inside as) (c :: bs) ∧
      code inside (as ++ c :: bs) = code inside as ++ code (after inside as) (c :: bs) := by
  fun_induction code inside as with
  | case1 inside => simp
  | case2 cs ih => simpa [code] using ih
  | case3 cs ih => simpa [code] using ih
  | case4 x cs h ih =>
    -- `c` is no part of a mark, so that no mark begins in `as` and ends behind it
    have happ : ∀ r, x = '*' → cs ++ c :: bs ≠ '/' :: r :=
      fun r hx => append_cons_ne_cons hslash (fun r => h r hx) r
    rw [List.cons_append, after_inside happ, code_inside happ, after_inside h]
    exact ih
  | case5 x cs h hblank ih =>
    have happ : ∀ r, x = '/' → cs ++ c :: bs ≠ '*' :: r :=
      fun r hx => append_cons_ne_cons hstar (fun r => h r hx) r
    rw [List.cons_append, after_outside happ, code_outside happ, after_outside h, if_pos hblank]
    exact ih
  | case6 x cs h hblank ih =>
    have happ : ∀ r, x = '/' → cs ++ c :: bs ≠ '*' :: r :=
      fun r hx => append_cons_ne_cons hstar (fun r => h r hx) r
    rw [List.cons_append, after_outside happ, code_outside happ, after_outside h,
      if_neg hblank, ih.2]
    exact ⟨ih.1, rfl⟩

theorem ne_of_isBlank {c d : Char} (hc : Text.isBlank c = true)
    (hd : Text.isBlank d = false) : c ≠ d := by
  rintro rfl
  simp_all

theorem scan_cons_blank {c : Char} (hc : Text.isBlank c = true) (inside : Bool) (cs : List Char) :
    after inside (c :: cs) = after inside cs ∧ code inside (c :: cs) = code inside cs := by
  have hslash : c ≠ '/' := ne_of_isBlank hc (by decide)
  have hstar : c ≠ '*' := ne_of_isBlank hc (by decide)
  cases inside with
  | false =>
    rw [after_outside (by simp [hslash]), code_outside (by simp [hslash]), if_pos hc]
    exact ⟨rfl, rfl⟩
  | true =>
    rw [after_inside (by simp [hstar]), code_inside (by simp [hstar])]
    exact ⟨rfl, rfl⟩

theorem scan_blanks_append {blanks : List Char}
    (h : ∀ c ∈ blanks, Text.isBlank c = true) (inside : Bool)
    (cs : List Char) :
    after inside (blanks ++ cs) = after inside cs ∧ code inside (blanks ++ cs) =
      code inside cs := by
  induction blanks with
  | nil => exact ⟨rfl, rfl⟩
  | cons c blanks ih =>
    obtain ⟨hafter, hcode⟩ := scan_cons_blank (h c List.mem_cons_self) inside (blanks ++ cs)
    obtain ⟨iafter, icode⟩ := ih fun d hd => h d (List.mem_cons_of_mem _ hd)
    exact ⟨hafter.trans iafter, hcode.trans icode⟩

section Lines

theorem scan_append_newline (inside : Bool) (line rest : List Char) :
    after inside (line ++ '\n' :: rest) = after (after inside line) rest ∧
      code inside (line ++ '\n' :: rest) = code inside line ++ code (after inside line) rest := by
  obtain ⟨hafter, hcode⟩ := scan_append_cons (c := '\n') (by decide) (by decide) inside line rest
  obtain ⟨bafter, bcode⟩ := scan_cons_blank (c := '\n') (by decide) (after inside line) rest
  rw [hafter, hcode, bafter, bcode]
  exact ⟨rfl, rfl⟩

theorem scan_joinLines (inside : Bool) (lines : List (List Char)) :
    after inside (Text.joinLines lines) = afterLines inside lines ∧
      code inside (Text.joinLines lines) = codeLines inside lines := by
  induction lines generalizing inside with
  | nil => simp [Text.joinLines, Text.joinWith, afterLines, codeLines, code]
  | cons line rest ih =>
    cases rest with
    | nil => simp [Text.joinLines, Text.joinWith, afterLines, codeLines]
    | cons next rest =>
      obtain ⟨hafter, hcode⟩ := scan_append_newline inside line (Text.joinLines (next :: rest))
      obtain ⟨iafter, icode⟩ := ih (after inside line)
      rw [Text.joinLines_cons line (by simp), hafter, hcode, iafter, icode]
      exact ⟨rfl, rfl⟩

@[simp] theorem afterLines_nil (inside : Bool) : afterLines inside [] = inside := rfl

@[simp] theorem afterLines_cons (inside : Bool) (line : List Char) (rest : List (List Char)) :
    afterLines inside (line :: rest) = afterLines (after inside line) rest := rfl

theorem afterLines_append (inside : Bool) (as bs : List (List Char)) :
    afterLines inside (as ++ bs) = afterLines (afterLines inside as) bs := List.foldl_append

theorem codeLines_append (inside : Bool) (as bs : List (List Char)) :
    codeLines inside (as ++ bs) = codeLines inside as ++ codeLines (afterLines inside as) bs := by
  induction as generalizing inside with
  | nil => rfl
  | cons line as ih => simp [codeLines, ih]

end Lines

section Nesting

/-- No `/*` stands in a comment, and none overlaps the end of one. -/
def unnested : Bool → List Char → Bool
  | _, [] => true
  | false, '/' :: '*' :: cs => unnested true cs
  | true, '/' :: '*' :: _ => false
  | true, '*' :: '/' :: '*' :: _ => false
  | true, '*' :: '/' :: cs => unnested false cs
  | inside, _ :: cs => unnested inside cs

def unnestedLines (inside : Bool) : List (List Char) → Bool
  | [] => true
  | line :: rest => unnested inside line && unnestedLines (after inside line) rest

def tidy (cs : List Char) : Bool := unnested false cs && !after false cs

theorem unnested_cons {inside : Bool} {c : Char} {cs : List Char}
    (hopen : ∀ r, c = '/' → cs ≠ '*' :: r)
    (hclose : ∀ r, inside = true → c = '*' → cs ≠ '/' :: r) :
    unnested inside (c :: cs) = unnested inside cs := by
  rw [unnested]
  · exact fun r _ => hopen r
  · exact fun r _ => hopen r
  · exact fun r hin hc hcs => hclose _ hin hc hcs
  · exact hclose

theorem unnested_append_newline (inside : Bool) (line rest : List Char) :
    unnested inside (line ++ '\n' :: rest) =
      (unnested inside line && unnested (after inside line) rest) := by
  fun_induction unnested inside line with
  | case1 inside => cases inside <;> simp [unnested]
  | case2 cs ih => simpa [unnested] using ih
  | case3 cs => simp [unnested]
  | case4 cs => simp [unnested]
  | case5 cs h ih =>
    have happ : ∀ r, cs ++ '\n' :: rest ≠ '*' :: r := append_cons_ne_cons (by decide) h
    rw [after_close, ← ih, List.cons_append, List.cons_append, unnested]
    exact happ
  | case6 inside x cs hout hin hedge hclose ih =>
    have hopen : ∀ r, x = '/' → cs ≠ '*' :: r := by
      cases inside with
      | false => exact fun r => hout r rfl
      | true => exact fun r => hin r rfl
    have hafter : after inside (x :: cs) = after inside cs := by
      cases inside with
      | false => exact after_outside hopen
      | true => exact after_inside fun r => hclose r rfl
    rw [hafter, ← ih, List.cons_append]
    exact unnested_cons (fun r hx => append_cons_ne_cons (by decide) (fun r => hopen r hx) r)
      fun r hi hx => append_cons_ne_cons (by decide) (fun r => hclose r hi hx) r

theorem unnested_joinLines (inside : Bool) (lines : List (List Char)) :
    unnested inside (Text.joinLines lines) = unnestedLines inside lines := by
  induction lines generalizing inside with
  | nil => simp [Text.joinLines, Text.joinWith, unnestedLines, unnested]
  | cons line rest ih =>
    cases rest with
    | nil => simp [Text.joinLines, Text.joinWith, unnestedLines]
    | cons next rest =>
      rw [Text.joinLines_cons line (by simp), unnested_append_newline, ih]
      rfl

theorem unnestedLines_append (inside : Bool) (as bs : List (List Char)) :
    unnestedLines inside (as ++ bs) =
      (unnestedLines inside as && unnestedLines (afterLines inside as) bs) := by
  induction as generalizing inside with
  | nil => simp [unnestedLines]
  | cons line as ih => simp [unnestedLines, ih, Bool.and_assoc]

/-- What a reader finds who takes the rest of a comment for code: the comment does not end, or its
end is found as code. -/
theorem read_outside {cs : List Char} (h : unnested true cs = true) :
    (after true cs = true ∧ after false cs = false ∧ code true cs = []) ∨
      (after false cs = after true cs ∧ (code true cs).length < (code false cs).length) := by
  induction cs with
  | nil => simp [code]
  | cons c cs ih =>
    by_cases hclose : ∃ r, c = '*' ∧ cs = '/' :: r
    · obtain ⟨r, rfl, rfl⟩ := hclose
      have hr : ∀ s, r ≠ '*' :: s := by
        rintro s rfl
        simp [unnested] at h
      have hstar : ∀ s, '*' = '/' → '/' :: r ≠ '*' :: s := by simp
      refine .inr ⟨?_, ?_⟩
      · rw [after_outside hstar, after_outside fun s _ => hr s, after_close]
      · rw [code_outside hstar, code_outside fun s _ => hr s, code]
        -- both characters of the end are now code
        simp only [show Text.isBlank '*' = false from by decide, show Text.isBlank '/' =
          false from by decide,
          Bool.false_eq_true, if_false, List.length_cons]
        omega
    · have hin : ∀ r, c = '*' → cs ≠ '/' :: r := fun r hc hcs => hclose ⟨r, hc, hcs⟩
      have hout : ∀ r, c = '/' → cs ≠ '*' :: r := by
        rintro r rfl rfl
        simp [unnested] at h
      rw [unnested_cons hout fun r _ => hin r] at h
      rw [after_inside hin, after_outside hout, code_inside hin, code_outside hout]
      rcases ih h with hopen | ⟨hsame, hlen⟩
      · exact .inl hopen
      · refine .inr ⟨hsame, ?_⟩
        split
        · exact hlen
        · exact Nat.lt_succ_of_lt hlen

theorem read_lines_outside {lines : List (List Char)} (h : unnestedLines true lines = true) :
    (afterLines true lines = true ∧ codeLines true lines = []) ∨
      (codeLines true lines).length < (codeLines false lines).length := by
  induction lines with
  | nil => exact .inl ⟨rfl, rfl⟩
  | cons line rest ih =>
    rw [unnestedLines, Bool.and_eq_true] at h
    rcases read_outside h.1 with ⟨hin, hout, hcode⟩ | ⟨hsame, hlen⟩
    · rw [hin] at h
      simp only [afterLines_cons, codeLines, hin, hout, hcode, List.nil_append, List.length_append]
      rcases ih h.2 with hopen | hlen
      · exact .inl hopen
      · exact .inr (Nat.lt_add_left _ hlen)
    · refine .inr ?_
      simp only [codeLines, hsame, List.length_append]
      omega

end Nesting

end DocGap.Comment
