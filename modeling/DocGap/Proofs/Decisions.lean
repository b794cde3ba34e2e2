import DocGap.Proofs.Merge
import DocGap.Proofs.Refusals

/-!
# What becomes of a batch

Every insertion of a batch is decided on once, from the bottom line to the top line, and either goes
in or is left out for a reason. The two lists of a plan report these decisions, each in its own
order. What is decided depends on the order of the batch only as far as insertions in front of one
line are concerned.
-/
namespace DocGap.Plan

def Precedes (x y : Insertion × Nat) : Prop :=
  x.1.insertionLine < y.1.insertionLine ∨ x.1.insertionLine = y.1.insertionLine ∧ x.2 < y.2

instance : DecidableRel Precedes := fun _ _ => inferInstanceAs (Decidable (_ ∨ _))

theorem Precedes.asymm {x y : Insertion × Nat} (h : Precedes x y) : ¬ Precedes y x := by
  simp only [Precedes] at h ⊢
  omega

theorem Precedes.irrefl {x : Insertion × Nat} : ¬ Precedes x x := fun h => h.asymm h

theorem pairwise_precedes_inOrder (batch : List Insertion) : (inOrder batch).Pairwise Precedes := by
  refine List.pairwise_iff_forall_sublist.2 fun {x y} hxy => ?_
  rcases Nat.lt_or_eq_of_le
    (List.pairwise_iff_forall_sublist.1 (pairwise_inOrder batch) hxy) with hlt | heq
  · exact .inl hlt
  · -- two insertions in front of one line are in the order of the batch
    have hline := hxy.filter (·.1.insertionLine = y.1.insertionLine)
    rw [filter_inOrder, List.filter_cons_of_pos (by simpa using heq),
      List.filter_cons_of_pos (by simp),
      List.filter_nil] at hline
    exact .inr ⟨heq, List.pairwise_iff_forall_sublist.1 (pairwise_zipIdx batch)
      (hline.trans List.filter_sublist)⟩

section Verdict

variable {setting : Setting} {lines : List (List Char)} {placed rest : List (Insertion × Nat)}
  {x y : Insertion × Nat}

/-- The insertions that are decided on before `x`, since the text is worked on from the
bottom up. -/
def decidedBefore (placed : List (Insertion × Nat)) (x : Insertion × Nat) : List Insertion :=
  (placed.filter (Precedes x ·)).map (·.1)

def verdict? (setting : Setting) (lines : List (List Char)) (placed : List (Insertion × Nat))
    (x : Insertion × Nat) : Option Reason :=
  refusalOver? setting lines (landing setting lines (decidedBefore placed x)) x.1

theorem decidedBefore_cons_self (h : (x :: rest).Pairwise Precedes) :
    decidedBefore (x :: rest) x = rest.map (·.1) := by
  have hall : rest.filter (Precedes x ·) = rest :=
    List.filter_eq_self.2 fun y hy => decide_eq_true (List.rel_of_pairwise_cons h hy)
  rw [decidedBefore, List.filter_cons_of_neg (by simpa using Precedes.irrefl), hall]

theorem decidedBefore_cons (h : Precedes y x) : decidedBefore
    (y :: rest) x = decidedBefore rest x := by
  rw [decidedBefore, List.filter_cons_of_neg (by simpa using h.asymm), decidedBefore]

theorem decidedBefore_isSuffix (h : placed.Pairwise Precedes) (hx : x ∈ placed) :
    decidedBefore placed x <:+ placed.map (·.1) := by
  induction placed with
  | nil => cases hx
  | cons y rest ih =>
    rw [List.map_cons]
    rcases List.mem_cons.1 hx with rfl | hx
    · rw [decidedBefore_cons_self h]
      exact List.suffix_cons _ _
    · rw [decidedBefore_cons (List.rel_of_pairwise_cons h hx)]
      exact (ih h.of_cons hx).trans (List.suffix_cons _ _)

theorem verdict?_cons (h : (y :: rest).Pairwise Precedes) (hx : x ∈ rest) :
    verdict? setting lines (y :: rest) x = verdict? setting lines rest x := by
  rw [verdict?, decidedBefore_cons (List.rel_of_pairwise_cons h hx), verdict?]

theorem landing_isSuffix {part whole : List Insertion} (h : part <:+ whole) :
    landing setting lines part <:+ landing setting lines whole := by
  obtain ⟨front, rfl⟩ := h
  induction front with
  | nil => exact List.suffix_rfl
  | cons i front ih =>
    rw [List.cons_append, landing]
    split
    · exact ih
    · exact ih.trans (List.suffix_cons _ _)

theorem landing_eq_filter (h : placed.Pairwise Precedes) :
    landing setting lines (placed.map (·.1)) =
      (placed.filter fun x => (verdict? setting lines placed x).isNone).map (·.1) := by
  induction placed with
  | nil => rfl
  | cons y rest ih =>
    have hothers : ∀ x ∈ rest, (verdict? setting lines (y :: rest) x).isNone =
        (verdict? setting lines rest x).isNone := fun x hx => by rw [verdict?_cons h hx]
    rw [List.map_cons, landing, List.filter_cons, verdict?, decidedBefore_cons_self h,
      List.filter_congr hothers,
      ih h.of_cons]
    cases refusalOver? setting lines _ y.1 <;> rfl

theorem refusals_eq_filterMap (h : placed.Pairwise Precedes) :
    refusals setting lines placed = placed.filterMap fun x =>
      (verdict? setting lines placed x).map fun reason => (x.2, .of x.1 reason) := by
  induction placed with
  | nil => rfl
  | cons y rest ih =>
    have hothers : ∀ x ∈ rest,
        (verdict? setting lines (y :: rest) x).map (fun reason => (x.2, Skipped.of x.1 reason)) =
          (verdict? setting lines rest x).map fun reason => (x.2, .of x.1 reason) :=
      fun x hx => by rw [verdict?_cons h hx]
    rw [refusals, List.filterMap_cons, verdict?, decidedBefore_cons_self h,
      List.filterMap_congr hothers,
      ih h.of_cons]
    cases refusalOver? setting lines (landing setting lines (rest.map (·.1))) y.1 <;> rfl

theorem refusalOver?_eq_outOfRange_iff {landed : List Insertion} {i : Insertion} {count : Nat} :
    refusalOver? setting lines landed i = some (.outOfRange count) ↔
      count = setting.lineCount ∧
        (i.insertionLine = 0 ∨ setting.lineCount + 1 < i.insertionLine) := by
  unfold refusalOver?
  split
  · next hout => simp [hout, eq_comm]
  · next hin =>
    simp only [hin, and_false, iff_false]
    split
    · simp
    · split <;> simp

theorem mem_targets_of_refusalOver? {landed : List Insertion} {i : Insertion}
    (h : refusalOver? setting lines landed i = some .duplicateInBatch) :
    i.target ∈ landed.map (·.target) := by
  unfold refusalOver? at h
  split at h
  · cases h
  · split at h
    · assumption
    · split at h <;> cases h

end Verdict

section Text

variable (style : Comment.Style) (window : Nat) (text : String) (batch : List Insertion)

def verdictIn? (x : Insertion × Nat) : Option Reason :=
  verdict? (settingFor style window text) (linesOf text) (inOrder batch) x

def decisionsIn : List (Insertion × Option Reason) :=
  batch.zipIdx.map fun x => (x.1, verdictIn? style window text batch x)

theorem map_fst_decisionsIn : (decisionsIn style window text batch).map (·.1) = batch := by
  rw [decisionsIn, List.map_map]
  exact List.zipIdx_map_fst 0 batch

theorem landedIn_eq_filter :
    landedIn style window text batch =
      ((inOrder batch).filter fun x => (verdictIn? style window text batch x).isNone).map (·.1) :=
  landing_eq_filter (pairwise_precedes_inOrder batch)

theorem landedIn_perm :
    (landedIn style window text batch).Perm
      (((decisionsIn style window text batch).filter (·.2.isNone)).map (·.1)) := by
  rw [landedIn_eq_filter, decisionsIn, List.filter_map, List.map_map]
  exact ((inOrder_perm batch).filter _).map _

theorem filter_landedIn (line : Nat) :
    (landedIn style window text batch).filter (·.insertionLine = line) =
      ((decisionsIn style window text batch).filter fun d =>
        d.2.isNone && d.1.insertionLine = line).map (·.1) := by
  have hline := congrArg (List.filter fun x => (verdictIn? style window text batch x).isNone)
    (filter_inOrder batch line)
  rw [List.filter_filter, List.filter_filter] at hline
  rw [landedIn_eq_filter, decisionsIn, List.filter_map, List.filter_map,
    List.filter_filter, List.map_map]
  refine congrArg _ (Eq.trans (List.filter_congr fun x _ => ?_) hline)
  exact Bool.and_comm _ _

theorem skipped_eq_filterMap :
    (ofBatch style window text batch).skipped =
      (decisionsIn style window text batch).filterMap fun d => d.2.map (.of d.1) := by
  rw [skipped_ofBatch, ← List.filter_true (inBatchOrder _),
    refusals_eq_filterMap (pairwise_precedes_inOrder batch), decisionsIn, List.filterMap_map]
  refine filter_inBatchOrder ?_
  simp only [List.filter_true, Function.comp_apply, Option.map_map]
  exact (inOrder_perm batch).filterMap _

theorem map_key_applied :
    (ofBatch style window text batch).applied.map (fun a => (a.target, a.insertionLine)) =
      (landedIn style window text batch).map fun i => (i.target, i.insertionLine) := by
  have h := congrArg (List.map fun l => (l.target, l.insertionLine))
    (map_landed_applied style window text batch)
  rwa [List.map_map, List.map_map] at h

theorem map_target_applied :
    (ofBatch style window text batch).applied.map (·.target) =
      (landedIn style window text batch).map (·.target) := by
  have h := congrArg (List.map Prod.fst) (map_key_applied style window text batch)
  rwa [List.map_map, List.map_map] at h

end Text

/-- The lists of a plan report what is decided on each insertion of a batch: left out for a
reason, or not. -/
structure Reports (plan : Plan) (decided : List (Insertion × Option Reason)) : Prop where
  /-- Nothing is lost or counted twice. -/
  complete : (plan.applied.map (fun a => (a.target, a.insertionLine)) ++
      plan.skipped.map fun s => (s.target, s.insertionLine)).Perm
    (decided.map fun d => (d.1.target, d.1.insertionLine))
  skipped : plan.skipped = decided.filterMap fun d => d.2.map (.of d.1)
  sorted : plan.applied.Pairwise fun a b => a.insertionLine ≤ b.insertionLine
  /-- Blocks in front of one line are in the order of the batch. -/
  ties : ∀ line, (plan.applied.filter (·.insertionLine = line)).map (·.target) =
    (decided.filter fun d => d.2.isNone && d.1.insertionLine = line).map (·.1.target)
  outOfRange : ∀ d ∈ decided, ∀ count, d.2 = some (.outOfRange count) ↔
    count = plan.lineCount ∧ (d.1.insertionLine = 0 ∨ plan.lineCount + 1 < d.1.insertionLine)
  targets : (plan.applied.map (·.target)).Nodup
  duplicate : ∀ d ∈ decided, d.2 = some .duplicateInBatch →
    ∃ a ∈ plan.applied, a.target = d.1.target

section Reports

variable (style : Comment.Style) (window : Nat) (text : String) (batch : List Insertion)

theorem complete_ofBatch :
    ((ofBatch style window text batch).applied.map (fun a => (a.target, a.insertionLine)) ++
        (ofBatch style window text batch).skipped.map fun s => (s.target, s.insertionLine)).Perm
      ((decisionsIn style window text batch).map fun d => (d.1.target, d.1.insertionLine)) := by
  have hskipped : (ofBatch style window text batch).skipped.map
      (fun s => (s.target, s.insertionLine)) =
      ((decisionsIn style window text batch).filter fun d => !d.2.isNone).map
        fun d => (d.1.target, d.1.insertionLine) := by
    rw [skipped_eq_filterMap, List.map_filterMap, ← List.filterMap_eq_map, List.filterMap_filter]
    refine List.filterMap_congr fun d _ => ?_
    cases d.2 <;> rfl
  have happlied := (landedIn_perm style window text batch).map fun i => (i.target, i.insertionLine)
  rw [← map_key_applied, List.map_map] at happlied
  have hsplit := (List.filter_append_perm (·.2.isNone) (decisionsIn style window text batch)).map
    fun d => (d.1.target, d.1.insertionLine)
  rw [List.map_append, ← hskipped] at hsplit
  exact (happlied.append_right _).trans hsplit

theorem sorted_applied :
    (ofBatch style window text batch).applied.Pairwise fun a b =>
      a.insertionLine ≤ b.insertionLine := by
  have hsorted :
      ((landedIn style window text batch).map fun i => (i.target, i.insertionLine)).Pairwise
      fun a b => a.2 ≤ b.2 := List.pairwise_map.2 (landedIn_sorted style window text batch)
  rwa [← map_key_applied, List.pairwise_map] at hsorted

theorem filter_applied (line : Nat) :
    ((ofBatch style window text batch).applied.filter (·.insertionLine = line)).map (·.target) =
      ((decisionsIn style window text batch).filter fun d =>
        d.2.isNone && d.1.insertionLine = line).map (·.1.target) := by
  have hkeys := congrArg (fun keys => (keys.filter fun k => k.2 = line).map (·.1))
    (map_key_applied style window text batch)
  simp only [List.filter_map, List.map_map] at hkeys
  have hline := congrArg (List.map (·.target)) (filter_landedIn style window text batch line)
  rw [List.map_map] at hline
  exact hkeys.trans hline

theorem exists_applied_of_duplicate {x : Insertion × Nat} (hx : x ∈ batch.zipIdx)
    (h : verdictIn? style window text batch x = some .duplicateInBatch) :
    ∃ a ∈ (ofBatch style window text batch).applied, a.target = x.1.target := by
  have hbefore :=
    decidedBefore_isSuffix (pairwise_precedes_inOrder batch) ((inOrder_perm batch).mem_iff.2 hx)
  have hmem := ((landing_isSuffix hbefore).map (·.target)).subset (mem_targets_of_refusalOver? h)
  rw [← ordered, ← landedIn, ← map_target_applied] at hmem
  exact List.mem_map.1 hmem

/-- Each insertion of a batch is decided on, and a plan reports all decisions. -/
theorem ofBatch_reports :
    ∃ decided : List (Insertion × Option Reason), decided.map (·.1) = batch ∧
      (ofBatch style window text batch).Reports decided := by
  refine ⟨decisionsIn style window text batch, map_fst_decisionsIn style window text batch, ?_⟩
  refine ⟨complete_ofBatch style window text batch, skipped_eq_filterMap style window text batch,
    sorted_applied style window text batch, filter_applied style window text batch,
      fun d hd count => ?_, ?_,
    fun d hd hduplicate => ?_⟩
  · obtain ⟨x, -, rfl⟩ := List.mem_map.1 hd
    exact refusalOver?_eq_outOfRange_iff
  · rw [map_target_applied]
    exact nodup_targets_landing _ _ _
  · obtain ⟨x, hx, rfl⟩ := List.mem_map.1 hd
    exact exists_applied_of_duplicate style window text batch hx hduplicate

end Reports

/-- The same insertions in another order, those in front of one line in the same order. -/
structure Reorders (batch other : List Insertion) : Prop where
  perm : batch.Perm other
  line : ∀ line, batch.filter (·.insertionLine = line) = other.filter (·.insertionLine = line)

section Reorders

theorem mem_iff_of_filter_eq {first second : List Insertion}
    (h : ∀ line, first.filter (·.insertionLine = line) = second.filter (·.insertionLine = line))
    (i : Insertion) :
    i ∈ first ↔ i ∈ second := by
  have hline := congrArg (i ∈ ·) (h i.insertionLine)
  simpa using hline

theorem eq_of_filter_eq {first second : List Insertion}
    (hfirst : first.Pairwise fun i j => i.insertionLine ≤ j.insertionLine)
    (hsecond : second.Pairwise fun i j => i.insertionLine ≤ j.insertionLine)
    (h : ∀ line, first.filter (·.insertionLine = line) = second.filter (·.insertionLine = line)) :
    first = second := by
  induction first generalizing second with
  | nil =>
    refine (List.eq_nil_iff_forall_not_mem.2 fun i hi => ?_).symm
    simpa using (mem_iff_of_filter_eq h i).2 hi
  | cons i first ih =>
    cases second with
    | nil => simpa using (mem_iff_of_filter_eq h i).1 List.mem_cons_self
    | cons j second =>
      obtain ⟨hi, hfirst⟩ := List.pairwise_cons.1 hfirst
      obtain ⟨hj, hrest⟩ := List.pairwise_cons.1 hsecond
      -- both are in front of the uppermost line, and the first there
      have hji : j.insertionLine ≤ i.insertionLine := by
        rcases List.mem_cons.1 ((mem_iff_of_filter_eq h i).1 List.mem_cons_self) with heq | hmem
        · exact Nat.le_of_eq (congrArg _ heq.symm)
        · exact hj i hmem
      have hij : i.insertionLine ≤ j.insertionLine := by
        rcases List.mem_cons.1 ((mem_iff_of_filter_eq h j).2 List.mem_cons_self) with heq | hmem
        · exact Nat.le_of_eq (congrArg _ heq.symm)
        · exact hi j hmem
      have hline := h i.insertionLine
      rw [List.filter_cons_of_pos (by simp), List.filter_cons_of_pos (by simp; omega)] at hline
      obtain ⟨rfl, -⟩ := List.cons.inj hline
      refine congrArg _ (ih hfirst hrest fun line => ?_)
      have hother := h line
      rw [List.filter_cons, List.filter_cons] at hother
      split at hother
      · exact (List.cons.inj hother).2
      · exact hother

theorem filter_ordered (batch : List Insertion) (line : Nat) :
    (ordered batch).filter (·.insertionLine = line) = batch.filter (·.insertionLine = line) := by
  have hplaced := congrArg (List.map Prod.fst) (filter_inOrder batch line)
  conv_rhs => rw [← List.zipIdx_map_fst 0 batch]
  rw [ordered, List.filter_map, List.filter_map]
  exact hplaced

theorem Reorders.ordered_eq {batch other : List Insertion} (h : Reorders batch other) :
    ordered batch = ordered other := by
  refine eq_of_filter_eq (pairwise_ordered batch) (pairwise_ordered other) fun line => ?_
  rw [filter_ordered, filter_ordered, h.line]

theorem inBatchOrder_perm (found : List (Nat × Skipped)) : (inBatchOrder found).Perm
    (found.map (·.2)) :=
  (List.mergeSort_perm _ _).map _

theorem map_snd_refusals {setting : Setting} {lines : List (List Char)}
    {first second : List (Insertion × Nat)}
    (h : first.map (·.1) = second.map (·.1)) :
    (refusals setting lines first).map (·.2) = (refusals setting lines second).map (·.2) := by
  induction first generalizing second with
  | nil =>
    obtain rfl := List.map_eq_nil_iff.1 h.symm
    rfl
  | cons x first ih =>
    obtain ⟨y, second, rfl, hxy, hrest⟩ := List.map_eq_cons_iff.1 h.symm
    obtain ⟨i, place⟩ := x
    obtain rfl : y.1 = i := hxy
    rw [refusals, refusals, hrest]
    cases refusalOver? setting lines (landing setting lines (first.map (·.1))) y.1 with
    | some reason => simp only [List.map_cons, ih hrest.symm]
    | none => exact ih hrest.symm

variable (style : Comment.Style) (window : Nat) (text : String) {batch other : List Insertion}

/-- The order of a batch does not matter, except among the insertions in front of one line. -/
theorem ofBatch_reordered (h : Reorders batch other) :
    (ofBatch style window text batch).content = (ofBatch style window text other).content ∧
      (ofBatch style window text batch).applied = (ofBatch style window text other).applied ∧
      (ofBatch style window text batch).lineCount = (ofBatch style window text other).lineCount ∧
      (ofBatch style window text batch).skipped.Perm (ofBatch style window text other).skipped := by
  have hlanded : landedIn style window text batch = landedIn style window text other := by
    rw [landedIn, h.ordered_eq, landedIn]
  refine ⟨?_, ?_, rfl, ?_⟩
  · rw [content_ofBatch, content_ofBatch, wovenLines, hlanded, wovenLines]
  · rw [applied_ofBatch, applied_ofBatch, hlanded]
  · rw [skipped_ofBatch, skipped_ofBatch]
    refine (inBatchOrder_perm _).trans (List.Perm.trans ?_ (inBatchOrder_perm _).symm)
    rw [map_snd_refusals h.ordered_eq]

def tangled : List Insertion :=
  [⟨⟨"f", .function, 2⟩, 2, "/** f */"⟩, ⟨⟨"g", .function, 1⟩, 1, "/** g */"⟩,
    ⟨⟨"f", .function, 2⟩, 1, "/** f */"⟩]

def untangled : List Insertion :=
  [⟨⟨"g", .function, 1⟩, 1, "/** g */"⟩, ⟨⟨"f", .function, 2⟩, 1, "/** f */"⟩,
    ⟨⟨"f", .function, 2⟩, 2, "/** f */"⟩]

theorem tangled_reordered :
    Reorders tangled untangled ∧
      (ofBatch .block 10 "x\n" tangled).content = (ofBatch .block 10 "x\n" untangled).content ∧
      (ofBatch .block 10 "x\n" tangled).applied = (ofBatch .block 10 "x\n" untangled).applied ∧
      (ofBatch .block 10 "x\n" tangled).skipped.Perm
        (ofBatch .block 10 "x\n" untangled).skipped := by
  have hreorders : Reorders tangled untangled := by
    refine ⟨by decide, fun line => ?_⟩
    by_cases hfirst : 1 = line
    · subst hfirst
      rfl
    · by_cases hsecond : 2 = line
      · subst hsecond
        rfl
      · simp [tangled, untangled, hfirst, hsecond]
  obtain ⟨hcontent, happlied, -, hskipped⟩ := ofBatch_reordered .block 10 "x\n" hreorders
  exact ⟨hreorders, hcontent, happlied, hskipped⟩

end Reorders

end DocGap.Plan
