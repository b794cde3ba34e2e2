import DocGap.Proofs.NamedBlocks

/-!
# Comment lines in a text that is read as a whole

Comment lines are found line by line, with one bit carried from each line to the next. A reader of
the whole text, who notes every `/*` that opens a comment and every `*/` that closes one, finds the
same lines: those on which a comment is open at the start or opens later on. The runs are the
maximal stretches of these lines.
-/
namespace DocGap.Comment

/-- A `/*` that opens a comment or a `*/` that closes one, and the place of its first character. -/
structure Mark where
  offset : Nat
  opens : Bool
deriving DecidableEq, Repr

def marksFrom (offset : Nat) : Bool → List Char → List Mark
  | _, [] => []
  | false, '/' :: '*' :: cs => ⟨offset, true⟩ :: marksFrom (offset + 2) true cs
  | true, '*' :: '/' :: cs => ⟨offset, false⟩ :: marksFrom (offset + 2) false cs
  | inside, _ :: cs => marksFrom (offset + 1) inside cs

def marks (text : List Char) : List Mark := marksFrom 0 false text

/-- Whether a comment is open behind these marks; `inside` says it of the place in front of them. -/
def openAfter (inside : Bool) (ms : List Mark) : Bool := (ms.getLast?.map Mark.opens).getD inside

def InsideAt (text : List Char) (place : Nat) : Prop :=
  openAfter false ((marks text).filter (·.offset < place)) = true

def OpensWithin (text : List Char) (start stop : Nat) : Prop :=
  ∃ m ∈ marks text, m.opens = true ∧ start ≤ m.offset ∧ m.offset < stop

def width (lines : List (List Char)) : Nat := (lines.map (·.length + 1)).sum

/-- The line with number `i` is a comment line for a reader of the whole text. -/
def CommentAt (style : Style) (lines : List (List Char)) (i : Nat) (line : List Char) : Prop :=
  match style with
  | .hash => ['#'] <+: Text.trim line
  | .block =>
    (['/', '*'] <+: Text.trim line ∨ ['*'] <+: Text.trim line) ∨
      InsideAt (Text.joinLines lines) (width (lines.take i)) ∨
        OpensWithin (Text.joinLines lines) (width (lines.take i))
          (width (lines.take i) + line.length)

section Marks

variable {k : Nat} {inside : Bool} {c : Char} {cs : List Char} {m : Mark}

theorem openAfter_append (inside : Bool) (as bs : List Mark) :
    openAfter inside (as ++ bs) = openAfter (openAfter inside as) bs := by
  rw [openAfter, openAfter, openAfter, List.getLast?_append]
  cases bs.getLast? <;> rfl

theorem openAfter_cons (inside : Bool) (m : Mark) (ms : List Mark) :
    openAfter inside (m :: ms) = openAfter m.opens ms := openAfter_append inside [m] ms

theorem marksFrom_cons (hopen : ∀ r, inside = false → c = '/' → cs ≠ '*' :: r)
    (hclose : ∀ r, inside = true → c = '*' → cs ≠ '/' :: r) :
    marksFrom k inside (c :: cs) = marksFrom (k + 1) inside cs := by
  rw [marksFrom]
  · exact hopen
  · exact hclose

theorem scanLine_cons (hopen : ∀ r, inside = false → c = '/' → cs ≠ '*' :: r)
    (hclose : ∀ r, inside = true → c = '*' → cs ≠ '/' :: r) : scanLine inside
    (c :: cs) = scanLine inside cs := by
  rw [scanLine]
  · exact hopen
  · exact hclose

theorem marksFrom_append_newline (k : Nat) (inside : Bool) (line rest : List Char) :
    marksFrom k inside (line ++ '\n' :: rest) =
      marksFrom k inside line ++ marksFrom (k + line.length + 1) (after inside line) rest := by
  fun_induction marksFrom k inside line with
  | case1 k inside =>
    rw [List.nil_append, marksFrom_cons (by simp) (by simp), after_nil]
    rfl
  | case2 k cs ih =>
    rw [List.cons_append, List.cons_append, marksFrom, ih, after_open, List.cons_append]
    simp only [List.length_cons, Nat.add_comm, Nat.add_left_comm]
  | case3 k cs ih =>
    rw [List.cons_append, List.cons_append, marksFrom, ih, after_close, List.cons_append]
    simp only [List.length_cons, Nat.add_comm, Nat.add_left_comm]
  | case4 k inside c cs hopen hclose ih =>
    have hafter : after inside (c :: cs) = after inside cs :=
      congrArg Prod.snd (scanLine_cons hopen hclose)
    have hopen' : ∀ r, inside = false → c = '/' → cs ++ '\n' :: rest ≠ '*' :: r :=
      fun r hin hc => append_cons_ne_cons (by decide) (fun r => hopen r hin hc) r
    have hclose' : ∀ r, inside = true → c = '*' → cs ++ '\n' :: rest ≠ '/' :: r :=
      fun r hin hc => append_cons_ne_cons (by decide) (fun r => hclose r hin hc) r
    rw [List.cons_append, marksFrom_cons hopen' hclose', ih, hafter, List.length_cons]
    simp only [Nat.add_comm, Nat.add_left_comm]

theorem offset_of_mem_marksFrom (h : m ∈ marksFrom k inside cs) :
    k ≤ m.offset ∧ m.offset < k + cs.length := by
  fun_induction marksFrom k inside cs with
  | case1 k inside => cases h
  | case2 k cs ih | case3 k cs ih =>
    simp only [List.length_cons]
    rcases List.mem_cons.1 h with rfl | h
    · dsimp only
      omega
    · have hrest := ih h
      omega
  | case4 k inside c cs hopen hclose ih =>
    have hrest := ih h
    rw [List.length_cons]
    omega

theorem openAfter_marksFrom (k : Nat) (inside : Bool) (cs : List Char) :
    openAfter inside (marksFrom k inside cs) = after inside cs := by
  fun_induction marksFrom k inside cs with
  | case1 k inside => exact (after_nil inside).symm
  | case2 k cs ih => rw [openAfter_cons, ih, after_open]
  | case3 k cs ih => rw [openAfter_cons, ih, after_close]
  | case4 k inside c cs hopen hclose ih => rw [ih, after, after, scanLine_cons hopen hclose]

theorem scanLine_opens (k : Nat) (inside : Bool) (cs : List Char) :
    (scanLine inside cs).1 = true ↔ ∃ m ∈ marksFrom k inside cs, m.opens = true := by
  fun_induction marksFrom k inside cs with
  | case1 k inside => cases inside <;> simp [scanLine]
  | case2 k cs ih => simp [scanLine]
  | case3 k cs ih => simp [scanLine, ih]
  | case4 k inside c cs hopen hclose ih => rw [scanLine_cons hopen hclose, ih]

end Marks

section Lines

def marksOfLines (k : Nat) (inside : Bool) : List (List Char) → List Mark
  | [] => []
  | line :: rest =>
    marksFrom k inside line ++ marksOfLines (k + line.length + 1) (after inside line) rest

theorem width_cons (line : List Char) (rest : List (List Char)) :
    width (line :: rest) = line.length + 1 + width rest := by
  rw [width, List.map_cons, List.sum_cons]
  rfl

theorem marksFrom_joinLines (k : Nat) (inside : Bool) (lines : List (List Char)) :
    marksFrom k inside (Text.joinLines lines) = marksOfLines k inside lines := by
  induction lines generalizing k inside with
  | nil => cases inside <;> rfl
  | cons line rest ih =>
    cases rest with
    | nil => simp [Text.joinLines, Text.joinWith, marksOfLines]
    | cons next rest =>
      rw [Text.joinLines_cons line (List.cons_ne_nil next rest), marksFrom_append_newline, ih]
      rfl

theorem marksOfLines_append (k : Nat) (inside : Bool) (above below : List (List Char)) :
    marksOfLines k inside (above ++ below) =
      marksOfLines k inside above ++ marksOfLines (k + width above)
      (afterLines inside above) below := by
  induction above generalizing k inside with
  | nil => rfl
  | cons line above ih =>
    rw [List.cons_append, marksOfLines, marksOfLines, ih, List.append_assoc,
      width_cons, afterLines_cons]
    simp only [Nat.add_assoc]

theorem offset_of_mem_marksOfLines {k : Nat} {inside : Bool} {lines : List (List Char)} {m : Mark}
    (h : m ∈ marksOfLines k inside lines) : k ≤ m.offset ∧ m.offset < k + width lines := by
  induction lines generalizing k inside with
  | nil => cases h
  | cons line rest ih =>
    rw [width_cons]
    rcases List.mem_append.1 h with h | h
    · have hline := offset_of_mem_marksFrom h
      omega
    · have hrest := ih h
      omega

theorem openAfter_marksOfLines (k : Nat) (inside : Bool) (lines : List (List Char)) :
    openAfter inside (marksOfLines k inside lines) = afterLines inside lines := by
  induction lines generalizing k inside with
  | nil => rfl
  | cons line rest ih =>
    rw [marksOfLines, openAfter_append, openAfter_marksFrom, ih, afterLines_cons]

theorem marks_joinLines (above below : List (List Char)) :
    marks (Text.joinLines (above ++ below)) =
      marksOfLines 0 false above ++ marksOfLines (width above) (afterLines false above) below := by
  rw [marks, marksFrom_joinLines, marksOfLines_append, Nat.zero_add]

theorem insideAt_iff (above below : List (List Char)) :
    InsideAt (Text.joinLines (above ++ below)) (width above) ↔ afterLines false above = true := by
  have habove : (marksOfLines 0 false above).filter (·.offset < width above) =
      marksOfLines 0 false above := by
    refine List.filter_eq_self.2 fun m hm => ?_
    have hoffset := offset_of_mem_marksOfLines hm
    exact decide_eq_true (by omega)
  have hbelow : (marksOfLines (width above) (afterLines false above) below).filter
      (·.offset < width above) = [] := by
    refine List.filter_eq_nil_iff.2 fun m hm => ?_
    have hoffset := offset_of_mem_marksOfLines hm
    simp only [decide_eq_true_eq]
    omega
  rw [InsideAt, marks_joinLines, List.filter_append, habove, hbelow, List.append_nil,
    openAfter_marksOfLines]

theorem opensWithin_iff (above : List (List Char)) (line : List Char) (below : List (List Char)) :
    OpensWithin (Text.joinLines (above ++ line :: below)) (width above)
      (width above + line.length) ↔
      (scanLine (afterLines false above) line).1 = true := by
  rw [OpensWithin, marks_joinLines, marksOfLines, scanLine_opens (width above)]
  constructor
  · rintro ⟨m, hm, hopens, hstart, hstop⟩
    rcases List.mem_append.1 hm with hm | hm
    · have hoffset := offset_of_mem_marksOfLines hm
      omega
    · rcases List.mem_append.1 hm with hm | hm
      · exact ⟨m, hm, hopens⟩
      · have hoffset := offset_of_mem_marksOfLines hm
        omega
  · rintro ⟨m, hm, hopens⟩
    obtain ⟨hstart, hstop⟩ := offset_of_mem_marksFrom hm
    exact ⟨m, List.mem_append_right _ (List.mem_append_left _ hm), hopens, hstart, hstop⟩

theorem isCommentLine_iff_trim (style : Style) (line : List Char) :
    isCommentLine style line = true ↔ ∃ leader ∈ style.leaders, leader <+: Text.trim line := by
  have hsolid : ∀ leader ∈ style.leaders, ∀ c ∈ leader.getLast?, Text.isBlank c = false := by
    cases style with
    | block => simp [Style.leaders, show Text.isBlank '*' = false by rfl]
    | hash => simp [Style.leaders, show Text.isBlank '#' = false by rfl]
  rw [isCommentLine_iff]
  constructor
  · rintro ⟨leader, hleader, hstarts⟩
    exact ⟨leader, hleader, Text.isPrefix_dropEndWhile hstarts (hsolid leader hleader)⟩
  · rintro ⟨leader, hleader, hstarts⟩
    exact ⟨leader, hleader, hstarts.trans (Text.dropEndWhile_isPrefix _ _)⟩

theorem flags_append_cons (style : Style) (above : List (List Char)) (line : List Char)
    (below : List (List Char)) :
    (flags style (above ++ line :: below))[above.length]? = some true ↔
      CommentAt style (above ++ line :: below) above.length line := by
  cases style with
  | block =>
    have hflag : (flags .block (above ++ line :: below))[above.length]? =
        some (afterLines false above || looksLikeBlock
        line || (scanLine (afterLines false above) line).1) := by
      rw [flags, blockFlags_append, List.getElem?_append_right (by rw [length_blockFlags]),
        length_blockFlags,
        Nat.sub_self]
      rfl
    have hlook : looksLikeBlock line = true ↔ ['/', '*'] <+: Text.trim line ∨
        ['*'] <+: Text.trim line := by
      simpa [isCommentLine, Style.leaders] using isCommentLine_iff_trim .block line
    rw [hflag, CommentAt, List.take_left, insideAt_iff, opensWithin_iff, ← hlook]
    simp only [Option.some.injEq, Bool.or_eq_true]
    tauto
  | hash =>
    have hhash : isHashLine line = true ↔ ['#'] <+: Text.trim line := by
      simpa [isCommentLine, Style.leaders] using isCommentLine_iff_trim .hash line
    rw [flags, List.map_append, List.getElem?_append_right (by rw [List.length_map]),
      List.length_map, Nat.sub_self,
      CommentAt, ← hhash]
    simp

end Lines

section Runs

variable {i : Nat} {since : Option Nat} {fs : List Bool}

theorem bounds_of_mem_runsFrom {r : Run} (h : r ∈ runsFrom i since fs)
    (hsince : ∀ s ∈ since, s < i) :
    r.start < r.stop ∧ r.stop ≤ i + fs.length := by
  -- a run that is open at place `i` has a line already, so that it is not empty when it ends there
  induction fs generalizing i since with
  | nil =>
    cases since with
    | none => cases h
    | some start =>
      obtain rfl := List.mem_singleton.1 h
      exact ⟨hsince start rfl, Nat.le_refl i⟩
  | cons f fs ih =>
    rw [List.length_cons]
    cases f with
    | true =>
      have hopen : ∀ s ∈ some (since.getD i), s < i + 1 := by
        cases since with
        | none => simp
        | some start => simpa using Nat.lt_succ_of_lt (hsince start rfl)
      have hrest := ih h hopen
      omega
    | false =>
      have hrest : r ∈ runsFrom (i + 1) none fs →
          r.start < r.stop ∧ r.stop ≤ i + (fs.length + 1) := by
        intro h
        have hbounds := ih h (by simp)
        omega
      cases since with
      | none => exact hrest h
      | some start =>
        rcases List.mem_cons.1 h with rfl | h
        · exact ⟨hsince start rfl, Nat.le_add_right _ _⟩
        · exact hrest h

theorem pairwise_runsFrom : (runsFrom i since fs).Pairwise fun r next => r.stop < next.start := by
  induction fs generalizing i since with
  | nil => cases since <;> simp [runsFrom]
  | cons f fs ih =>
    cases f with
    | true => exact ih
    | false =>
      cases since with
      | none => exact ih
      | some start =>
        refine List.pairwise_cons.2 ⟨fun next hnext => ?_, ih⟩
        exact le_start_of_mem_runsFrom hnext (by simp)

theorem exists_run_iff_flag {style : Style} {lines : List (List Char)} {i : Nat} :
    (∃ r ∈ runs style lines, r.start ≤ i ∧ i < r.stop) ↔ (flags style lines)[i]? = some true := by
  constructor
  · rintro ⟨r, hr, hstart, hstop⟩
    exact flag_of_mem_runsFrom hr (Nat.zero_le i) hstart hstop
  · intro hflag
    have hstretch : ∀ j < 1, (flags style lines)[i + j]? = some true := by
      intro j hj
      rwa [Nat.lt_one_iff.1 hj]
    obtain ⟨r, hr, hstart, hstop⟩ := exists_run_of_flags 0 none (by simp) Nat.one_pos hstretch
    exact ⟨r, hr, by omega, by omega⟩

end Runs

/-- The runs are the maximal stretches of the lines that are comment lines for a reader of
the whole text. -/
theorem runs_maximal_in_whole_scan (style : Style) (lines : List (List Char)) :
    (∀ r ∈ runs style lines, r.start < r.stop ∧ r.stop ≤ lines.length) ∧
    (runs style lines).Pairwise (fun r next => r.stop < next.start) ∧
    ∀ i line, lines[i]? = some line →
      ((∃ r ∈ runs style lines, r.start ≤ i ∧ i < r.stop) ↔ CommentAt style lines i line) := by
  have hlength : (flags style lines).length = lines.length := by
    cases style with
    | block => exact length_blockFlags false lines
    | hash => exact List.length_map isHashLine
  refine ⟨fun r hr => ?_, pairwise_runsFrom, fun i line hline => ?_⟩
  · have hbounds := bounds_of_mem_runsFrom hr (by simp)
    rwa [hlength, Nat.zero_add] at hbounds
  · obtain ⟨above, below, hlines, rfl⟩ : ∃ above below, lines = above ++ line :: below ∧
      above.length = i := by
      obtain ⟨hi, hget⟩ := List.getElem?_eq_some_iff.1 hline
      refine ⟨lines.take i, lines.drop (i + 1), ?_, List.length_take_of_le (Nat.le_of_lt hi)⟩
      rw [← hget, ← List.drop_eq_getElem_cons hi, List.take_append_drop]
    rw [exists_run_iff_flag, hlines]
    exact flags_append_cons style above line below

/-- Marks that share a character: the first line opens a comment, the second closes it
and opens none. -/
def overlappingMarks : List (List Char) :=
  ["f(); /*/".toList, "*/*".toList, "g();".toList, " * h".toList]

theorem overlappingMarks_runs :
    runs .block overlappingMarks = [⟨0, 2⟩, ⟨3, 4⟩] ∧ overlappingMarks[2]? = some "g();".toList ∧
      CommentAt .block overlappingMarks 1 "*/*".toList ∧
        ¬ CommentAt .block overlappingMarks 2 "g();".toList := by
  have hruns : runs .block overlappingMarks = [⟨0, 2⟩, ⟨3, 4⟩] := by decide
  obtain ⟨-, -, hlines⟩ := runs_maximal_in_whole_scan .block overlappingMarks
  refine ⟨hruns, rfl,
    (hlines 1 _ rfl).1 ⟨⟨0, 2⟩, by rw [hruns]; exact List.mem_cons_self, by decide⟩, ?_⟩
  rw [← hlines 2 _ rfl, hruns]
  decide

end DocGap.Comment
