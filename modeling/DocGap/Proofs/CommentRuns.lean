import DocGap.Proofs.CodeView

/-!
# Runs of comment lines

Two lines are in one run exactly if they and all lines between them are comment lines. Whether a
line is one depends on the lines above it, and on no line below.
-/
namespace DocGap.Comment

/-- A line that is a comment line wherever it stands. -/
def isCommentLine (style : Style) (line : List Char) : Bool :=
  match style with
  | .block => looksLikeBlock line
  | .hash => isHashLine line

theorem blockFlags_getElem? {inside : Bool} {lines : List (List Char)} {k : Nat} {line : List Char}
    (hline : lines[k]? = some line) (hlook : looksLikeBlock line = true) :
    (blockFlags inside lines)[k]? = some true := by
  induction lines generalizing inside k with
  | nil => simp at hline
  | cons first rest ih =>
    cases k with
    | zero =>
      obtain rfl : first = line := by simpa using hline
      simp [blockFlags, hlook]
    | succ k => exact ih hline

theorem flags_getElem? {style : Style} {lines : List (List Char)} {k : Nat} {line : List Char}
    (hline : lines[k]? = some line) (hcomment : isCommentLine style line = true) :
    (flags style lines)[k]? = some true := by
  cases style with
  | block => exact blockFlags_getElem? hline hcomment
  | hash =>
    rw [flags, List.getElem?_map, hline, Option.map_some]
    exact congrArg some hcomment

theorem exists_stop_of_open (i start : Nat) {n : Nat} {fs : List Bool}
    (h : ∀ j < n, fs[j]? = some true) :
    ∃ stop, i + n ≤ stop ∧ ⟨start, stop⟩ ∈ runsFrom i (some start) fs := by
  induction fs generalizing i n with
  | nil =>
    have hn : n = 0 := Nat.eq_zero_of_not_pos fun hpos => by simpa using h 0 hpos
    exact ⟨i, by omega, by simp [runsFrom]⟩
  | cons f fs ih =>
    cases f with
    | false =>
      have hn : n = 0 := Nat.eq_zero_of_not_pos fun hpos => by simpa using h 0 hpos
      exact ⟨i, by omega, by simp [runsFrom]⟩
    | true =>
      have hrest : ∀ j < n - 1, fs[j]? = some true :=
        fun j hj => by simpa using h (j + 1) (by omega)
      obtain ⟨stop, hle, hmem⟩ := ih (i + 1) hrest
      exact ⟨stop, by omega, by simpa [runsFrom] using hmem⟩

theorem exists_run_of_flags (i : Nat) (since : Option Nat) {k n : Nat} {fs : List Bool}
    (hsince : ∀ s ∈ since, s ≤ i) (hn : 0 < n) (h : ∀ j < n, fs[k + j]? = some true) :
    ∃ r ∈ runsFrom i since fs, r.start ≤ i + k ∧ i + k + n ≤ r.stop := by
  -- the run that is open at place `i` has started no later than there
  induction fs generalizing i k since with
  | nil => simpa using h 0 hn
  | cons f fs ih =>
    cases k with
    | zero =>
      obtain rfl : f = true := by simpa using h 0 hn
      have hrest : ∀ j < n - 1, fs[j]? = some true :=
        fun j hj => by simpa using h (j + 1) (by omega)
      obtain ⟨stop, hle, hmem⟩ := exists_stop_of_open (i + 1) (since.getD i) hrest
      have hstart : since.getD i ≤ i := by cases since <;> simp_all
      exact ⟨_, hmem, hstart, by dsimp only; omega⟩
    | succ k =>
      have hk : ∀ j < n, fs[k + j]? = some true := fun j hj => by
        simpa [Nat.succ_add] using h j hj
      cases f with
      | true =>
        have hstart : since.getD i ≤ i + 1 := by
          cases since with
          | none => exact Nat.le_succ i
          | some s => exact Nat.le_succ_of_le (hsince s rfl)
        obtain ⟨r, hr, hlo, hhi⟩ := ih (i + 1) (some (since.getD i)) (by simpa using hstart) hk
        exact ⟨r, hr, by omega, by omega⟩
      | false =>
        obtain ⟨r, hr, hlo, hhi⟩ := ih (i + 1) none (by simp) hk
        refine ⟨r, ?_, by omega, by omega⟩
        cases since <;> simp [runsFrom, hr]

theorem exists_run_of_stretch {style : Style} {stretch : List (List Char)} (hne : stretch ≠ [])
    (hcomment : ∀ l ∈ stretch, isCommentLine style l = true) (front back : List (List Char)) :
    ∃ r ∈ runs style (front ++ stretch ++ back),
      r.start ≤ front.length ∧ front.length + stretch.length ≤ r.stop := by
  have hflags : ∀ j < stretch.length,
      (flags style (front ++ stretch ++ back))[front.length + j]? = some true := by
    intro j hj
    have hline : (front ++ stretch ++ back)[front.length + j]? = some stretch[j] := by
      rw [List.append_assoc, List.getElem?_append_right (by omega), Nat.add_sub_cancel_left,
        List.getElem?_append_left hj, List.getElem?_eq_getElem hj]
    exact flags_getElem? hline (hcomment _ (List.getElem_mem hj))
  obtain ⟨r, hr, hlo, hhi⟩ :=
    exists_run_of_flags 0 none (by simp) (List.length_pos_iff.2 hne) hflags
  exact ⟨r, hr, by omega, by omega⟩

theorem Run.mem_of {r : Run} {lines : List (List Char)} {k : Nat} {line : List Char}
    (hline : lines[k]? = some line) (hstart : r.start ≤ k) (hstop : k < r.stop) :
    line ∈ r.of lines := by
  refine List.mem_of_getElem? (i := k - r.start) ?_
  rw [Run.of, List.getElem?_drop, Nat.add_sub_cancel' hstart, List.getElem?_take_of_lt hstop, hline]

theorem Run.mem_of_iff {r : Run} {lines : List (List Char)} {l : List Char} :
    l ∈ r.of lines ↔ ∃ k, r.start ≤ k ∧ k < r.stop ∧ lines[k]? = some l := by
  constructor
  · intro h
    obtain ⟨n, hn⟩ := List.mem_iff_getElem?.1 h
    rw [Run.of, List.getElem?_drop, List.getElem?_take] at hn
    split at hn
    · next hlt => exact ⟨r.start + n, Nat.le_add_right _ _, hlt, hn⟩
    · cases hn
  · rintro ⟨k, hstart, hstop, hk⟩
    exact Run.mem_of hk hstart hstop

theorem exists_run_of_mem {style : Style} {lines : List (List Char)} {line : List Char}
    (hline : line ∈ lines)
    (hcomment : isCommentLine style line = true) : ∃ r ∈ runs style lines, line ∈ r.of lines := by
  obtain ⟨front, back, rfl⟩ := List.append_of_mem hline
  obtain ⟨r, hr, hlo, hhi⟩ :=
    exists_run_of_stretch (List.cons_ne_nil line []) (by simpa using hcomment) front back
  rw [List.append_assoc, List.singleton_append] at hr
  exact ⟨r, hr, Run.mem_of (k := front.length) (by simp) hlo hhi⟩

theorem le_start_of_mem_runsFrom {i : Nat} {since : Option Nat} {fs : List Bool} {r : Run}
    (h : r ∈ runsFrom i since fs) (hsince : ∀ s ∈ since, s ≤ i) : since.getD i ≤ r.start := by
  induction fs generalizing i since with
  | nil => cases since <;> simp_all [runsFrom]
  | cons f fs ih =>
    cases f with
    | true =>
      have hopen : since.getD i ≤ i := by cases since <;> simp_all
      have h : r ∈ runsFrom (i + 1) (some (since.getD i)) fs := h
      have hle := ih h (by simpa using Nat.le_succ_of_le hopen)
      exact hle
    | false =>
      cases since with
      | none => exact Nat.le_of_succ_le (ih h (by simp))
      | some start =>
        rcases List.mem_cons.1 h with rfl | h
        · exact Nat.le_refl _
        · have hstart : start ≤ i := hsince start rfl
          have hle : i + 1 ≤ r.start := ih h (by simp)
          exact Nat.le_trans hstart (Nat.le_of_succ_le hle)

theorem flag_of_mem_runsFrom {i : Nat} {since : Option Nat} {fs : List Bool} {r : Run}
    (h : r ∈ runsFrom i since fs) {k : Nat} (hik : i ≤ k) (hstart : r.start ≤ k)
    (hstop : k < r.stop) :
    fs[k - i]? = some true := by
  induction fs generalizing i since with
  | nil =>
    cases since with
    | none => cases h
    | some start =>
      obtain rfl := List.mem_singleton.1 h
      exact absurd hstop (Nat.not_lt.2 hik)
  | cons f fs ih =>
    -- the first flag is in no run that starts behind it
    have hbehind : ∀ {since : Option Nat}, r ∈ runsFrom (i + 1) since fs → i ≠ k →
        (f :: fs)[k - i]? = some true := by
      intro since h hne
      rw [show k - i = (k - (i + 1)) + 1 by omega, List.getElem?_cons_succ]
      exact ih h (by omega)
    have hnone : r ∈ runsFrom (i + 1) none fs → (f :: fs)[k - i]? = some true := by
      intro h
      have hle : i + 1 ≤ r.start := le_start_of_mem_runsFrom h (by simp)
      exact hbehind h (by omega)
    cases f with
    | true =>
      by_cases hne : i = k
      · simp [hne]
      · exact hbehind h hne
    | false =>
      cases since with
      | none => exact hnone h
      | some start =>
        rcases List.mem_cons.1 h with rfl | h
        · exact absurd hstop (Nat.not_lt.2 hik)
        · exact hnone h

def Linked (flags : List Bool) (j k : Nat) : Prop :=
  ∀ n, min j k ≤ n → n ≤ max j k → flags[n]? = some true

theorem exists_run_iff_linked {style : Style} {lines : List (List Char)} {j k : Nat} :
    (∃ r ∈ runs style lines, (r.start ≤ j ∧ j < r.stop) ∧ r.start ≤ k ∧ k < r.stop) ↔
      Linked (flags style lines) j k := by
  constructor
  · rintro ⟨r, hr, ⟨hstartj, hstopj⟩, hstartk, hstopk⟩ n hlow hhigh
    exact flag_of_mem_runsFrom hr (Nat.zero_le n) (by omega) (by omega)
  · intro h
    have hall : ∀ d < max j k - min j k + 1, (flags style lines)[min j k + d]? = some true :=
      fun d hd => h _ (by omega) (by omega)
    obtain ⟨r, hr, hstart, hstop⟩ := exists_run_of_flags 0 none (by simp) (Nat.succ_pos _) hall
    exact ⟨r, hr, ⟨by omega, by omega⟩, by omega, by omega⟩

theorem blockFlags_append (inside : Bool) (above below : List (List Char)) :
    blockFlags inside (above ++ below) = blockFlags inside above ++
      blockFlags (afterLines inside above) below := by
  induction above generalizing inside with
  | nil => rfl
  | cons line above ih => exact congrArg (List.cons _) (ih _)

theorem length_blockFlags (inside : Bool) (lines : List (List Char)) :
    (blockFlags inside lines).length = lines.length := by
  induction lines generalizing inside with
  | nil => rfl
  | cons line rest ih => rw [blockFlags, List.length_cons, ih, List.length_cons]

theorem flags_append_getElem? {style : Style} {above : List (List Char)} {k : Nat}
    (hk : k < above.length)
    (below : List (List Char)) : (flags style (above ++ below))[k]? = (flags style above)[k]? := by
  cases style with
  | block =>
    rw [flags, blockFlags_append, List.getElem?_append_left (by rwa [length_blockFlags])]
    rfl
  | hash =>
    rw [flags, List.map_append, List.getElem?_append_left (by rwa [List.length_map])]
    rfl

end DocGap.Comment
