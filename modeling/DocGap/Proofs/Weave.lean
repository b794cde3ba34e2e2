import DocGap.Plan
import DocGap.Proofs.Lines

/-!
# Where blocks go

A batch is put in from the bottom up on a page that is only ever moved upwards. What comes out is
the same as splicing blocks into a list of lines one after the other, and each block is decided on
by what the lines look like then.
-/
namespace DocGap.Plan

namespace Page

theorem eq_of_lines_eq {p q : Page} (hlines : p.lines = q.lines)
    (hheight : p.height = q.height) : p = q := by
  obtain ⟨above, height, below, hp⟩ := p
  obtain ⟨above', height', below', hq⟩ := q
  simp only [lines] at hlines hheight
  have hlength : above.reverse.length = above'.reverse.length := by simp [← hp, ← hq, hheight]
  obtain ⟨habove, hbelow⟩ := List.append_inj hlines hlength
  simp_all

theorem height_up (n : Nat) (p : Page) : (p.up n).height = p.height - n := by
  fun_induction up n p with
  | case1 n line above below ih =>
    rw [ih]
    simp
  | case2 n p h =>
    obtain ⟨above, height, below, hp⟩ := p
    cases n with
    | zero => rfl
    | succ n =>
      cases above with
      | nil => simp [hp]
      | cons line above => exact absurd rfl (h n line above _ below hp rfl)

theorem height_upTo (line : Nat) (p : Page) : (p.upTo line).height = min p.height (line - 1) := by
  rw [upTo, height_up]
  omega

theorem height_le (p : Page) : p.height ≤ p.lines.length := by simp [lines, p.height_eq]

theorem lines_insert_eq_take (block : List (List Char)) (p : Page) :
    (p.insert block).lines = p.lines.take p.height ++ block ++ p.lines.drop p.height := by
  have hheight : p.height = p.above.reverse.length := by simp [p.height_eq]
  rw [lines_insert, hheight, lines, List.take_left, List.drop_left]

def inFrontOf (line : Nat) (lines : List (List Char)) : Page := (atBottom lines).upTo line

theorem upTo_eq_inFrontOf {p : Page} {line : Nat}
    (h : p.height = p.lines.length ∨ line ≤ p.height + 1) :
    p.upTo line = inFrontOf line p.lines := by
  have hle := p.height_le
  refine eq_of_lines_eq (by simp [inFrontOf]) ?_
  rw [inFrontOf, height_upTo, height_upTo]
  simp only [atBottom]
  omega

theorem above_inFrontOf (line : Nat) (lines : List (List Char)) :
    (inFrontOf line lines).above = (lines.take (line - 1)).reverse := by
  have hlines : (inFrontOf line lines).lines = lines := by simp [inFrontOf]
  have hheight : (inFrontOf line lines).above.reverse.length = min lines.length (line - 1) := by
    rw [List.length_reverse, ← height_eq]
    exact height_upTo line (atBottom lines)
  refine List.reverse_eq_iff.1 ?_
  calc (inFrontOf line lines).above.reverse
      = (inFrontOf line lines).lines.take (inFrontOf line lines).above.reverse.length :=
        List.take_left.symm
    _ = lines.take (line - 1) := by rw [hlines, hheight, Nat.min_comm, ← List.take_eq_take_min]

end Page

def splice (line : Nat) (block lines : List (List Char)) : List (List Char) :=
  lines.take (line - 1) ++ block ++ lines.drop (line - 1)

/-- The lines with the blocks of some insertions, put in from the last to the first. -/
def weave (returns : Bool) (lines : List (List Char)) (landed : List Insertion) :
    List (List Char) :=
  landed.foldr (fun i => splice i.insertionLine (blockLines returns i.content)) lines

/-- Why an insertion is left out, if it is, when the insertions `landed` have gone in. -/
def refusalOver? (setting : Setting) (lines : List (List Char))
    (landed : List Insertion) (i : Insertion) :
    Option Reason :=
  if i.insertionLine = 0 ∨ setting.lineCount + 1 < i.insertionLine then
    some (.outOfRange setting.lineCount)
  else if i.target ∈ landed.map (·.target) then some .duplicateInBatch
  else if namedAbove setting.style setting.window
      (.inFrontOf i.insertionLine (weave setting.returns lines landed)) i.target.name then
    some .alreadyDocumented
  else none

/-- The insertions that go in, when the last is decided on first. -/
def landing (setting : Setting) (lines : List (List Char)) : List Insertion → List Insertion
  | [] => []
  | i :: rest =>
    let landed := landing setting lines rest
    match refusalOver? setting lines landed i with
    | some _ => landed
    | none => i :: landed

theorem length_splice (line : Nat) (block lines : List (List Char)) :
    (splice line block lines).length = block.length + lines.length := by
  simp [splice]
  omega

theorem length_weave (returns : Bool) (lines : List (List Char)) (landed : List Insertion) :
    (weave returns lines landed).length =
      (landed.flatMap fun i => blockLines returns i.content).length + lines.length := by
  induction landed with
  | nil => simp [weave]
  | cons i landed ih =>
    rw [weave, List.foldr_cons, length_splice]
    rw [weave] at ih
    rw [ih, List.flatMap_cons, List.length_append, Nat.add_assoc]

theorem landing_sublist (setting : Setting) (lines : List (List Char)) (batch : List Insertion) :
    (landing setting lines batch).Sublist batch := by
  induction batch with
  | nil => exact .slnil
  | cons i rest ih =>
    rw [landing]
    split
    · exact ih.cons i
    · exact ih.cons_cons i

theorem mem_range_of_mem_landing {setting : Setting} {lines : List (List Char)}
    {batch : List Insertion}
    {i : Insertion} (h : i ∈ landing setting lines batch) :
    1 ≤ i.insertionLine ∧ i.insertionLine ≤ setting.lineCount + 1 := by
  induction batch with
  | nil => cases h
  | cons j rest ih =>
    rw [landing] at h
    split at h
    · exact ih h
    · next hnone =>
      rcases List.mem_cons.1 h with rfl | h
      · unfold refusalOver? at hnone
        split at hnone
        · cases hnone
        · omega
      · exact ih h

theorem nodup_targets_landing (setting : Setting) (lines : List (List Char))
    (batch : List Insertion) :
    ((landing setting lines batch).map (·.target)).Nodup := by
  induction batch with
  | nil => exact List.nodup_nil
  | cons i rest ih =>
    rw [landing]
    split
    · exact ih
    · next hnone =>
      refine List.nodup_cons.2 ⟨fun hmem => ?_, ih⟩
      rw [refusalOver?, if_pos hmem] at hnone
      split at hnone <;> cases hnone

def Landed.of (returns : Bool) (i : Insertion) : Landed :=
  ⟨i.target, i.insertionLine, (blockLines returns i.content).length⟩

/-- The progress made with the insertions of `batch` is what splicing them says. The division may be
moved on to every line that is not below them. -/
structure Agrees (setting : Setting) (lines : List (List Char))
    (batch : List Insertion) (p : Progress) :
    Prop where
  page_lines : p.page.lines = weave setting.returns lines (landing setting lines batch)
  landed : p.landed = (landing setting lines batch).map (Landed.of setting.returns)
  targets : ∀ t, p.targets.contains t = true ↔ t ∈ (landing setting lines batch).map (·.target)
  height : ∀ line, (∀ i ∈ batch, line ≤ i.insertionLine) →
    p.page.height = p.page.lines.length ∨ line ≤ p.page.height + 1

namespace Agrees

variable {setting : Setting} {lines : List (List Char)} {rest : List Insertion}
  {i : Insertion} {p : Progress}

theorem upTo_page (h : Agrees setting lines rest p)
    (hle : ∀ j ∈ rest, i.insertionLine ≤ j.insertionLine) :
    p.page.upTo i.insertionLine =
      .inFrontOf i.insertionLine (weave setting.returns lines (landing setting lines rest)) := by
  rw [Page.upTo_eq_inFrontOf (h.height _ hle), h.page_lines]

theorem refusal?_eq (h : Agrees setting lines rest p)
    (hle : ∀ j ∈ rest, i.insertionLine ≤ j.insertionLine) :
    refusal? setting p (p.page.upTo i.insertionLine) i =
      refusalOver? setting lines (landing setting lines rest) i := by
  simp only [refusal?, refusalOver?, h.upTo_page hle, h.targets]

theorem step (hcount : setting.lineCount ≤ lines.length) (h : Agrees setting lines rest p)
    (hle : ∀ j ∈ rest, i.insertionLine ≤ j.insertionLine) (place : Nat) :
    Agrees setting lines (i :: rest) (step setting place i p) := by
  have hheight := h.height _ hle
  have hpage := Page.height_le p.page
  have hup := Page.height_upTo i.insertionLine p.page
  rw [Plan.step, h.refusal?_eq hle]
  cases hrefusal : refusalOver? setting lines (landing setting lines rest) i with
  | some reason =>
    have hlanding : landing setting lines (i :: rest) = landing setting lines rest := by
      simp [landing, hrefusal]
    refine ⟨?_, ?_, ?_, ?_⟩
    · simpa [hlanding] using h.page_lines
    · simpa [hlanding] using h.landed
    · simpa [hlanding] using h.targets
    · intro line hline
      have hi : line ≤ i.insertionLine := hline i List.mem_cons_self
      simp only [Page.lines_upTo, hup]
      omega
  | none =>
    have hlanding : landing setting lines (i :: rest) = i :: landing setting lines rest := by
      simp [landing, hrefusal]
    have hlength := length_weave setting.returns lines (landing setting lines rest)
    rw [← h.page_lines] at hlength
    have hrange : i.insertionLine ≤ setting.lineCount + 1 :=
      (mem_range_of_mem_landing (hlanding ▸ List.mem_cons_self)).2
    -- the page can be moved up to the line, since it has not gone beyond it
    have hdivision : (p.page.upTo i.insertionLine).height = i.insertionLine - 1 := by omega
    refine ⟨?_, ?_, ?_, ?_⟩
    · simp only [hlanding, weave, List.foldr_cons, Page.lines_insert_eq_take,
        hdivision, Page.lines_upTo,
        h.page_lines, splice]
    · simp only [hlanding, List.map_cons, h.landed, Landed.of]
    · intro t
      simp only [hlanding, List.map_cons, List.mem_cons,
        Std.HashSet.contains_insert, Bool.or_eq_true,
        beq_iff_eq, h.targets]
      exact or_congr_left eq_comm
    · intro line hline
      have hi : line ≤ i.insertionLine := hline i List.mem_cons_self
      simp only [Page.insert, hdivision]
      omega

end Agrees

def ordered (batch : List Insertion) : List Insertion := (inOrder batch).map (·.1)

theorem pairwise_inOrder (batch : List Insertion) :
    (inOrder batch).Pairwise fun a b => a.1.insertionLine ≤ b.1.insertionLine := by
  let le (a b : Insertion × Nat) : Bool := a.1.insertionLine ≤ b.1.insertionLine
  have htrans : ∀ a b c, le a b → le b c → le a c := by grind
  have htotal : ∀ a b, le a b || le b a := by grind
  simpa [inOrder, le] using List.pairwise_mergeSort htrans htotal batch.zipIdx

theorem pairwise_ordered (batch : List Insertion) :
    (ordered batch).Pairwise fun a b => a.insertionLine ≤ b.insertionLine :=
  List.pairwise_map.2 (pairwise_inOrder batch)

theorem ordered_of_pairwise {batch : List Insertion}
    (h : batch.Pairwise fun a b => a.insertionLine ≤ b.insertionLine) : ordered batch = batch := by
  have hplaced : (batch.zipIdx.map Prod.fst).Pairwise fun a b =>
      a.insertionLine ≤ b.insertionLine := by
    rwa [List.zipIdx_map_fst]
  rw [ordered, inOrder,
    List.mergeSort_of_pairwise ((List.pairwise_map.1 hplaced).imp decide_eq_true),
    List.zipIdx_map_fst]

theorem inOrder_perm (batch : List Insertion) : (inOrder batch).Perm batch.zipIdx :=
  List.mergeSort_perm _ _

theorem ordered_perm (batch : List Insertion) : (ordered batch).Perm batch := by
  have h := (inOrder_perm batch).map Prod.fst
  rwa [List.zipIdx_map_fst] at h

def runOver (setting : Setting) (lines : List (List Char))
    (placed : List (Insertion × Nat)) : Progress :=
  placed.foldr (fun (i, place) p => step setting place i p) ⟨.atBottom lines, [], ∅, []⟩

theorem runOver_agrees {setting : Setting} {lines : List (List Char)}
    {placed : List (Insertion × Nat)}
    (hcount : setting.lineCount ≤ lines.length)
    (hsorted : placed.Pairwise fun a b => a.1.insertionLine ≤ b.1.insertionLine) :
    Agrees setting lines (placed.map (·.1)) (runOver setting lines placed) := by
  unfold runOver
  induction placed with
  | nil =>
    have hbottom : (Page.atBottom lines).height = (Page.atBottom lines).lines.length := by
      rw [Page.lines_atBottom]
      rfl
    exact ⟨by simp [weave, landing], rfl, by simp [landing], fun _ _ => .inl hbottom⟩
  | cons first rest ih =>
    obtain ⟨hfirst, hrest⟩ := List.pairwise_cons.1 hsorted
    refine (ih hrest).step hcount (fun j hj => ?_) first.2
    obtain ⟨k, hk, rfl⟩ := List.mem_map.1 hj
    exact hfirst k hk

theorem run_agrees {setting : Setting} {lines : List (List Char)} (batch : List Insertion)
    (hcount : setting.lineCount ≤ lines.length) :
    Agrees setting lines (ordered batch) (run setting lines batch) :=
  runOver_agrees hcount (pairwise_inOrder batch)

section Shape

variable {returns : Bool} {lines : List (List Char)} {landed : List Insertion} {i : Insertion}

theorem take_weave {n : Nat} (hrange : ∀ i ∈ landed, i.insertionLine ≤ lines.length + 1)
    (hle : ∀ i ∈ landed, n ≤ i.insertionLine - 1) :
    (weave returns lines landed).take n = lines.take n := by
  induction landed with
  | nil => rfl
  | cons i landed ih =>
    have hlength := length_weave returns lines landed
    have hi := hrange i List.mem_cons_self
    have hn := hle i List.mem_cons_self
    have htake : n ≤ ((weave returns lines landed).take (i.insertionLine - 1)).length := by
      rw [List.length_take]
      omega
    rw [← ih (fun j hj => hrange j (List.mem_cons_of_mem _ hj)) fun j hj =>
      hle j (List.mem_cons_of_mem _ hj)]
    change (splice _ _ (weave returns lines landed)).take n = _
    rw [splice, List.append_assoc, List.take_append_of_le_length htake, List.take_take,
      Nat.min_eq_left hn]

theorem weave_cons (hrange : ∀ j ∈ i :: landed, j.insertionLine ≤ lines.length + 1)
    (hle : ∀ j ∈ landed, i.insertionLine ≤ j.insertionLine) :
    weave returns lines (i :: landed) = lines.take (i.insertionLine - 1) ++
      (blockLines returns i.content ++ (weave returns lines landed).drop
      (i.insertionLine - 1)) := by
  have htake : (weave returns lines landed).take (i.insertionLine - 1) =
      lines.take (i.insertionLine - 1) :=
    take_weave (fun j hj => hrange j (List.mem_cons_of_mem _ hj)) fun j hj =>
      Nat.sub_le_sub_right (hle j hj) 1
  rw [← htake, ← List.append_assoc]
  rfl

theorem weave_append (first second : List Insertion) :
    weave returns lines (first ++ second) = weave returns (weave returns lines second) first :=
  List.foldr_append

theorem weave_lines_append {below : List (List Char)}
    (h : ∀ i ∈ landed, i.insertionLine ≤ lines.length + 1) :
    weave returns (lines ++ below) landed = weave returns lines landed ++ below := by
  induction landed with
  | nil => rfl
  | cons i landed ih =>
    have hlength := length_weave returns lines landed
    have hi := h i List.mem_cons_self
    have hle : i.insertionLine - 1 ≤ (weave returns lines landed).length := by omega
    change splice _ _ (weave returns (lines ++ below) landed) =
      splice _ _ (weave returns lines landed) ++ below
    rw [ih fun j hj => h j (List.mem_cons_of_mem _ hj), splice, splice,
      List.take_append_of_le_length hle,
      List.drop_append_of_le_length hle, List.append_assoc, List.append_assoc, List.append_assoc]

theorem weave_of_bottom (h : ∀ i ∈ landed, i.insertionLine = lines.length + 1) :
    weave returns lines landed = lines ++ landed.flatMap fun i => blockLines returns i.content := by
  induction landed with
  | nil => simp [weave]
  | cons i landed ih =>
    change splice _ _ (weave returns lines landed) = _
    rw [ih fun j hj => h j (List.mem_cons_of_mem _ hj), splice, h i List.mem_cons_self,
      Nat.add_sub_cancel,
      List.take_left, List.drop_left, List.flatMap_cons, List.append_assoc]

theorem filter_append_filter {n : Nat}
    (h : landed.Pairwise fun i j => i.insertionLine ≤ j.insertionLine) :
    landed = landed.filter (·.insertionLine ≤ n) ++ landed.filter (n < ·.insertionLine) := by
  induction landed with
  | nil => rfl
  | cons i landed ih =>
    obtain ⟨hi, hlanded⟩ := List.pairwise_cons.1 h
    by_cases hle : i.insertionLine ≤ n
    · rw [List.filter_cons_of_pos (by simpa using hle),
        List.filter_cons_of_neg (by simpa using hle),
        List.cons_append, ← ih hlanded]
    · have hbelow : landed.filter (·.insertionLine ≤ n) = [] :=
        List.filter_eq_nil_iff.2 fun j hj => by simpa using Nat.lt_of_lt_of_le (by omega) (hi j hj)
      have hall := ih hlanded
      rw [hbelow, List.nil_append] at hall
      rw [List.filter_cons_of_neg (by simpa using hle),
        List.filter_cons_of_pos (by simpa using hle), hbelow,
        List.nil_append, ← hall]

/-- The blocks for the place behind the last line are at the bottom. -/
theorem weave_eq_append_bottom (returns : Bool)
    (hsorted : landed.Pairwise fun i j => i.insertionLine ≤ j.insertionLine)
    (hrange : ∀ i ∈ landed, i.insertionLine ≤ lines.length + 1) :
    weave returns lines landed =
      weave returns lines (landed.filter (·.insertionLine ≤ lines.length)) ++
      (landed.filter (·.insertionLine = lines.length + 1)).flatMap fun i =>
      blockLines returns i.content := by
  have hbottom : landed.filter (lines.length < ·.insertionLine) =
      landed.filter (·.insertionLine = lines.length + 1) := by
    refine List.filter_congr fun i hi => decide_eq_decide.2 ?_
    have hle := hrange i hi
    omega
  have hsplit := filter_append_filter (n := lines.length) hsorted
  rw [hbottom] at hsplit
  have happend : weave returns lines landed = _ := congrArg (weave returns lines) hsplit
  rw [happend, weave_append, weave_of_bottom fun i hi => of_decide_eq_true (List.mem_filter.1 hi).2,
    weave_lines_append]
  intro i hi
  exact Nat.le_succ_of_le (of_decide_eq_true (List.mem_filter.1 hi).2)

theorem landing_eq_nil_iff {setting : Setting} {batch : List Insertion} :
    landing setting lines batch = [] ↔ ∀ i ∈ batch, refusalOver? setting lines [] i ≠ none := by
  induction batch with
  | nil => simp [landing]
  | cons i rest ih =>
    rw [landing, List.forall_mem_cons, ← ih]
    cases hrest : landing setting lines rest with
    | nil => cases refusalOver? setting lines [] i <;> simp
    | cons j landed => split <;> simp

theorem refusalOver?_first_line {setting : Setting} (hline : i.insertionLine = 1)
    (hnew : i.target ∉ landed.map (·.target)) : refusalOver? setting lines landed i = none := by
  have habove : (Page.inFrontOf 1 (weave setting.returns lines landed)).above = [] := by
    have hheight := Page.height_upTo 1 (.atBottom (weave setting.returns lines landed))
    rw [Nat.sub_self, Nat.min_zero, Page.height_eq] at hheight
    exact List.length_eq_zero_iff.1 hheight
  rw [refusalOver?, if_neg (by omega), if_neg hnew, hline]
  simp [namedAbove, habove]

theorem landing_first_line {setting : Setting} {batch : List Insertion}
    (hline : ∀ i ∈ batch, i.insertionLine = 1)
    (hnodup : (batch.map (·.target)).Nodup) : landing setting lines batch = batch := by
  induction batch with
  | nil => rfl
  | cons i rest ih =>
    obtain ⟨hnew, hrest⟩ := List.nodup_cons.1 hnodup
    rw [landing, ih (fun j hj => hline j (List.mem_cons_of_mem _ hj)) hrest,
      refusalOver?_first_line (hline i List.mem_cons_self) hnew]

theorem blockLines_ne_nil (returns : Bool) (content : String) :
    blockLines returns content ≠ [] := by
  simpa [blockLines] using Text.splitLines_ne_nil content.toList

theorem newline_not_mem_of_mem_blockLines {content : String} {l : List Char}
    (h : l ∈ blockLines returns content) : '\n' ∉ l := by
  obtain ⟨line, hline, rfl⟩ := List.mem_map.1 h
  have hdrop : '\n' ∉ Text.dropEndWhile (· = '\r') line := fun hn =>
    Text.newline_not_mem_of_mem_splitLines hline ((Text.dropEndWhile_isPrefix _ line).subset hn)
  cases returns <;> simpa using hdrop

theorem mem_weave_iff {l : List Char} :
    l ∈ weave returns lines landed ↔
      l ∈ lines ∨ ∃ i ∈ landed, l ∈ blockLines returns i.content := by
  induction landed with
  | nil => simp [weave]
  | cons i landed ih =>
    have hsplice : l ∈ weave returns lines (i :: landed) ↔
        l ∈ blockLines returns i.content ∨ l ∈ weave returns lines landed := by
      change l ∈ splice _ _ (weave returns lines landed) ↔ _
      rw [splice, List.mem_append, List.mem_append, or_assoc, or_left_comm, ← List.mem_append,
        List.take_append_drop]
    rw [hsplice, ih]
    simp [or_left_comm]

theorem newline_not_mem_of_mem_weave (hlines : ∀ l ∈ lines, '\n' ∉ l) {l : List Char}
    (h : l ∈ weave returns lines landed) : '\n' ∉ l := by
  rcases mem_weave_iff.1 h with h | ⟨i, -, h⟩
  · exact hlines l h
  · exact newline_not_mem_of_mem_blockLines h

end Shape

section Text

variable (style : Comment.Style) (window : Nat) (text : String) (batch : List Insertion)

def linesOf : List (List Char) := Text.splitLines (splitMark text.toList).2

def settingFor : Setting :=
  ⟨style, window, hasReturns (splitMark text.toList).2, countLines (linesOf text)⟩

def landedIn : List Insertion := landing (settingFor style window text)
    (linesOf text) (ordered batch)

def wovenLines : List (List Char) :=
  weave (settingFor style window text).returns (linesOf text) (landedIn style window text batch)

theorem splitMark_append (cs : List Char) : (splitMark cs).1 ++ (splitMark cs).2 = cs := by
  unfold splitMark
  split
  · split <;> rfl
  · rfl

theorem eq_byteOrderMark_of_mem_splitMark {cs : List Char} {c : Char} (h : c ∈ (splitMark cs).1) :
    c = byteOrderMark := by
  unfold splitMark at h
  split at h
  · split at h
    · next hc => rw [List.mem_singleton.1 h, hc]
    · cases h
  · cases h

theorem newline_not_mem_splitMark (cs : List Char) : '\n' ∉ (splitMark cs).1 :=
  fun h => absurd (eq_byteOrderMark_of_mem_splitMark h) (by decide)

theorem splitLines_mark (cs : List Char) {rest first : List Char} {lines : List (List Char)}
    (h : Text.splitLines rest = first :: lines) :
    Text.splitLines ((splitMark cs).1 ++ rest) = ((splitMark cs).1 ++ first) :: lines :=
  Text.pieces_append_of_not_mem (newline_not_mem_splitMark cs) h

theorem exists_linesOf : ∃ first rest, linesOf text = first :: rest ∧
    Text.splitLines text.toList = ((splitMark text.toList).1 ++ first) :: rest := by
  obtain ⟨first, rest, hlines⟩ :=
    List.exists_cons_of_ne_nil (Text.splitLines_ne_nil (splitMark text.toList).2)
  have hmarked := splitLines_mark text.toList hlines
  rw [splitMark_append] at hmarked
  exact ⟨first, rest, hlines, hmarked⟩

theorem length_linesOf : (linesOf text).length = (Text.splitLines text.toList).length := by
  obtain ⟨first, rest, hlines, hmarked⟩ := exists_linesOf text
  rw [hlines, hmarked, List.length_cons, List.length_cons]

theorem countLines_le_length (lines : List (List Char)) : countLines lines ≤ lines.length := by
  unfold countLines
  split <;> omega

theorem length_le_countLines_succ (lines : List (List Char)) :
    lines.length ≤ countLines lines + 1 := by
  unfold countLines
  split <;> omega

theorem run_agrees_settingFor :
    Agrees (settingFor style window text) (linesOf text) (ordered batch)
      (run (settingFor style window text) (linesOf text) batch) :=
  run_agrees batch (countLines_le_length (linesOf text))

theorem content_ofBatch :
    (ofBatch style window text batch).content =
      String.ofList ((splitMark text.toList).1 ++
      Text.joinLines (wovenLines style window text batch)) := by
  rw [wovenLines, landedIn, ← (run_agrees_settingFor style window text batch).page_lines]
  rfl

theorem splitLines_wovenLines :
    Text.splitLines (Text.joinLines (wovenLines style window text batch)) =
      wovenLines style window text batch := by
  refine Text.splitLines_joinLines (fun hnil => ?_) fun l hl => ?_
  · have hlength := congrArg List.length hnil
    rw [wovenLines, length_weave, List.length_nil] at hlength
    exact Text.splitLines_ne_nil _
      (List.length_eq_zero_iff.1 (Nat.eq_zero_of_add_eq_zero_left hlength))
  · exact newline_not_mem_of_mem_weave (fun _ => Text.newline_not_mem_of_mem_splitLines) hl

theorem exists_wovenLines : ∃ first rest, wovenLines style window text batch = first :: rest ∧
    Text.splitLines (ofBatch style window text batch).content.toList =
      ((splitMark text.toList).1 ++ first) :: rest := by
  have hlines := splitLines_wovenLines style window text batch
  obtain ⟨first, rest, hwoven⟩ := List.exists_cons_of_ne_nil
    (Text.splitLines_ne_nil (Text.joinLines (wovenLines style window text batch)))
  refine ⟨first, rest, hlines.symm.trans hwoven, ?_⟩
  rw [content_ofBatch, String.toList_ofList, splitLines_mark text.toList hwoven]

theorem getElem?_content {n : Nat} {l : List Char}
    (h : (wovenLines style window text batch)[n]? = some l) :
    (Text.splitLines (ofBatch style window text batch).content.toList)[n]? =
      some (if n = 0 then (splitMark text.toList).1 ++ l else l) := by
  obtain ⟨first, rest, hwoven, hlines⟩ := exists_wovenLines style window text batch
  rw [hwoven] at h
  rw [hlines]
  cases n with
  | zero => simpa using h
  | succ n => simpa using h

theorem applied_ofBatch :
    (ofBatch style window text batch).applied =
      place 0 ((landedIn style window text batch).map
        (Landed.of (settingFor style window text).returns)) := by
  rw [landedIn, ← (run_agrees_settingFor style window text batch).landed]
  rfl

theorem landedIn_sorted :
    (landedIn style window text batch).Pairwise fun i j => i.insertionLine ≤ j.insertionLine :=
  (pairwise_ordered batch).sublist (landing_sublist _ _ _)

theorem landedIn_range {i : Insertion} (hi : i ∈ landedIn style window text batch) :
    i.insertionLine ≤ (linesOf text).length + 1 :=
  Nat.le_trans (mem_range_of_mem_landing hi).2 (Nat.succ_le_succ (countLines_le_length _))

theorem mem_of_mem_landedIn {i : Insertion}
    (hi : i ∈ landedIn style window text batch) : i ∈ batch :=
  (ordered_perm batch).subset ((landing_sublist _ _ _).subset hi)

def Applied.landed (a : Applied) : Landed := ⟨a.target, a.insertionLine, a.lineCount⟩

theorem map_landed_place (shift : Nat) (landed : List Landed) :
    (place shift landed).map Applied.landed = landed := by
  induction landed generalizing shift with
  | nil => rfl
  | cons l rest ih => rw [place, List.map_cons, ih, Applied.landed]

theorem map_landed_applied :
    (ofBatch style window text batch).applied.map Applied.landed =
      (landedIn style window text batch).map
      (Landed.of (settingFor style window text).returns) := by
  rw [applied_ofBatch, map_landed_place]

theorem content_eq_iff :
    (ofBatch style window text batch).content = text ↔ landedIn style window text batch = [] := by
  rw [content_ofBatch, ← String.toList_inj, String.toList_ofList]
  constructor
  · intro h
    have hbody : Text.joinLines (wovenLines style window text batch) = (splitMark text.toList).2 :=
      List.append_cancel_left (h.trans (splitMark_append text.toList).symm)
    have hlines := splitLines_wovenLines style window text batch
    rw [hbody, ← linesOf, wovenLines] at hlines
    have hlength := length_weave (settingFor style window text).returns (linesOf text)
      (landedIn style window text batch)
    rw [← hlines] at hlength
    cases hlanded : landedIn style window text batch with
    | nil => rfl
    | cons i rest =>
      have hblock :=
        List.length_pos_iff.2 (blockLines_ne_nil (settingFor style window text).returns i.content)
      rw [hlanded, List.flatMap_cons, List.length_append] at hlength
      omega
  · intro h
    rw [wovenLines, h]
    change _ ++ Text.joinLines (linesOf text) = _
    rw [linesOf, Text.joinLines_splitLines, splitMark_append]

theorem applied_eq_nil_iff :
    (ofBatch style window text batch).applied = [] ↔ landedIn style window text batch = [] := by
  have hmap := map_landed_applied style window text batch
  rw [← List.map_eq_nil_iff (f := Applied.landed), hmap, List.map_eq_nil_iff]

theorem forall_insertionLine_applied (P : Nat → Prop) :
    (∀ a ∈ (ofBatch style window text batch).applied, P a.insertionLine) ↔
      ∀ i ∈ landedIn style window text batch, P i.insertionLine := by
  have happlied : (∀ a ∈ (ofBatch style window text batch).applied, P a.insertionLine) ↔
      ∀ l ∈ (ofBatch style window text batch).applied.map Applied.landed, P l.insertionLine := by
    simp [Applied.landed]
  rw [happlied, map_landed_applied]
  simp [Landed.of]

end Text

end DocGap.Plan
