import Mathlib.Data.List.Nodup
import DocGap.Proofs.Weave

/-!
# What is left out

The insertions that a plan leaves out are reported in the order of the batch, whatever the order in
which they were decided on. So the first one reported for a line that does not exist is the first of
its kind in the batch.
-/
namespace DocGap.Plan

def Skipped.of (i : Insertion) (reason : Reason) : Skipped := ⟨i.target, i.insertionLine, reason⟩

def refusals (setting : Setting) (lines : List (List Char)) : List
    (Insertion × Nat) → List (Nat × Skipped)
  | [] => []
  | (i, place) :: rest =>
    match refusalOver? setting lines (landing setting lines (rest.map (·.1))) i with
    | some reason => (place, .of i reason) :: refusals setting lines rest
    | none => refusals setting lines rest

section Run

variable {setting : Setting} {lines : List (List Char)} {placed : List (Insertion × Nat)}

theorem skipped_runOver (hcount : setting.lineCount ≤ lines.length)
    (hsorted : placed.Pairwise fun a b => a.1.insertionLine ≤ b.1.insertionLine) :
    (runOver setting lines placed).skipped = refusals setting lines placed := by
  induction placed with
  | nil => rfl
  | cons first rest ih =>
    obtain ⟨i, place⟩ := first
    obtain ⟨hfirst, hrest⟩ := List.pairwise_cons.1 hsorted
    have hle : ∀ j ∈ rest.map (·.1), i.insertionLine ≤ j.insertionLine := by
      intro j hj
      obtain ⟨k, hk, rfl⟩ := List.mem_map.1 hj
      exact hfirst k hk
    change (step setting place i (runOver setting lines rest)).skipped = _
    rw [step, (runOver_agrees hcount hrest).refusal?_eq hle, refusals, ← ih hrest]
    cases refusalOver? setting lines (landing setting lines (rest.map (·.1))) i with
    | some reason => rfl
    | none => rfl

theorem filter_refusals {q : Skipped → Bool} {f : Insertion → Option Skipped}
    (h : ∀ landed i, ((refusalOver? setting lines landed i).map (Skipped.of i)).filter q = f i) :
    (refusals setting lines placed).filter (q ·.2) =
      placed.filterMap fun x => (f x.1).map fun s => (x.2, s) := by
  induction placed with
  | nil => rfl
  | cons first rest ih =>
    obtain ⟨i, place⟩ := first
    have hi := h (landing setting lines (rest.map (·.1))) i
    rw [refusals, List.filterMap_cons, ← ih]
    cases hreason : refusalOver? setting lines (landing setting lines (rest.map (·.1))) i with
    | none =>
      rw [hreason] at hi
      simp [← hi]
    | some reason =>
      rw [hreason] at hi
      by_cases hq : q (.of i reason) = true
      · simp [← hi, Option.filter, hq]
      · simp [← hi, Option.filter, hq]

theorem refusals_of_landing_eq_nil (h : landing setting lines (placed.map (·.1)) = []) :
    refusals setting lines placed =
      placed.filterMap fun x => (refusalOver? setting lines [] x.1).map fun reason =>
      (x.2, .of x.1 reason) := by
  induction placed with
  | nil => rfl
  | cons first rest ih =>
    obtain ⟨i, place⟩ := first
    have hall := landing_eq_nil_iff.1 h
    have hrest : landing setting lines (rest.map (·.1)) = [] :=
      landing_eq_nil_iff.2 fun j hj => hall j (List.mem_cons_of_mem _ hj)
    obtain ⟨reason, hreason⟩ := Option.ne_none_iff_exists'.1 (hall i List.mem_cons_self)
    rw [refusals, List.filterMap_cons, ← ih hrest, hrest, hreason]
    rfl

end Run

theorem pairwise_zipIdx (batch : List Insertion) : batch.zipIdx.Pairwise fun x y => x.2 < y.2 := by
  rw [← List.pairwise_map, List.zipIdx_map_snd]
  exact List.pairwise_lt_range' 1

/-- The records of one sort are in the order of the batch, if they are those of the
batch in any order. -/
theorem filter_inBatchOrder {batch : List Insertion} {q : Skipped → Bool}
    {f : Insertion × Nat → Option Skipped} {found : List (Nat × Skipped)}
    (h : (found.filter (q ·.2)).Perm
      (batch.zipIdx.filterMap fun x => (f x).map fun s => (x.2, s))) :
    (inBatchOrder found).filter q = batch.zipIdx.filterMap f := by
  let le (a b : Nat × Skipped) : Bool := a.1 ≤ b.1
  have htrans : ∀ a b c, le a b → le b c → le a c := by grind
  have htotal : ∀ a b, le a b || le b a := by grind
  have hstrict : (batch.zipIdx.filterMap fun x => (f x).map fun s => (x.2, s)).Pairwise
      fun a b => a.1 < b.1 := by
    refine List.pairwise_filterMap.2 ((pairwise_zipIdx batch).imp fun {x y} hlt a ha b hb => ?_)
    obtain ⟨s, -, rfl⟩ := Option.map_eq_some_iff.1 ha
    obtain ⟨u, -, rfl⟩ := Option.map_eq_some_iff.1 hb
    exact hlt
  have hnodup : ((batch.zipIdx.filterMap fun x => (f x).map fun s => (x.2, s)).map (·.1)).Nodup :=
    (List.pairwise_map.2 hstrict).imp Nat.ne_of_lt
  have hperm := ((List.mergeSort_perm found le).filter (q ·.2)).trans h
  -- places are all different, so that there is only one way to put the records in order
  have hsorted : (found.mergeSort le).filter (q ·.2) =
      batch.zipIdx.filterMap fun x => (f x).map fun s => (x.2, s) := by
    refine hperm.eq_of_pairwise (fun a b ha hb hab hba => ?_)
      ((List.pairwise_mergeSort htrans htotal found).filter _)
      (hstrict.imp fun hlt => decide_eq_true (Nat.le_of_lt hlt))
    apply List.inj_on_of_nodup_map hnodup (hperm.subset ha) hb
    exact Nat.le_antisymm (of_decide_eq_true hab) (of_decide_eq_true hba)
  calc (inBatchOrder found).filter q
      = ((found.mergeSort le).filter (q ·.2)).map (·.2) := List.filter_map
    _ = batch.zipIdx.filterMap f := by
        rw [hsorted, List.map_filterMap]
        simp [Function.comp_def]

theorem filterMap_zipIdx_fst {α : Type} (batch : List Insertion) (f : Insertion → Option α) :
    (batch.zipIdx.filterMap fun x => f x.1) = batch.filterMap f := by
  conv_rhs => rw [← List.zipIdx_map_fst 0 batch, List.filterMap_map]
  rfl

def outside (count : Nat) (i : Insertion) : Bool :=
  i.insertionLine = 0 || count + 1 < i.insertionLine

def outsideRecord? (count : Nat) (i : Insertion) : Option Skipped :=
  (Option.guard (outside count) i).map fun i => .of i (.outOfRange count)

theorem filter_refusalOver? (setting : Setting) (lines : List (List Char)) (landed : List Insertion)
    (i : Insertion) :
    ((refusalOver? setting lines landed i).map (Skipped.of i)).filter (·.reason.isOutOfRange) =
      outsideRecord? setting.lineCount i := by
  by_cases hout : i.insertionLine = 0 ∨ setting.lineCount + 1 < i.insertionLine
  · have houtside : outside setting.lineCount i = true := by simpa [outside] using hout
    rw [refusalOver?, if_pos hout, outsideRecord?, Option.guard_pos houtside]
    rfl
  · have hinside : outside setting.lineCount i = false := by simpa [outside] using hout
    rw [refusalOver?, if_neg hout, outsideRecord?, Option.guard, hinside]
    split
    · rfl
    · split <;> rfl

section Text

variable (style : Comment.Style) (window : Nat) (text : String) (batch : List Insertion)

theorem skipped_ofBatch :
    (ofBatch style window text batch).skipped =
      inBatchOrder (refusals (settingFor style window text) (linesOf text) (inOrder batch)) :=
  congrArg inBatchOrder
    (skipped_runOver (countLines_le_length (linesOf text)) (pairwise_inOrder batch))

/-- The first record of a line that does not exist is that of the first such insertion
of the batch. -/
theorem outOfRange?_ofBatch :
    (ofBatch style window text batch).outOfRange? =
      (batch.find? (outside (countLines (linesOf text)))).map
        fun i => .of i (.outOfRange (countLines (linesOf text))) := by
  have hfilter : ((ofBatch style window text batch).skipped).filter (·.reason.isOutOfRange) =
      batch.filterMap (outsideRecord? (countLines (linesOf text))) := by
    rw [skipped_ofBatch, ← filterMap_zipIdx_fst]
    apply filter_inBatchOrder
    rw [filter_refusals (filter_refusalOver? (settingFor style window text) (linesOf text))]
    exact (inOrder_perm batch).filterMap _
  rw [outOfRange?, ← List.head?_filter, hfilter, List.head?_filterMap,
    List.find?_eq_findSome?_guard,
    List.map_findSome?]
  rfl

variable {style window text batch} in
theorem skipped_of_landedIn_eq_nil (h : landedIn style window text batch = []) :
    (ofBatch style window text batch).skipped = batch.filterMap fun i =>
      (refusalOver? (settingFor style window text) (linesOf text) [] i).map (.of i) := by
  have hrefusals : refusals (settingFor style window text) (linesOf text) (inOrder batch) = _ :=
    refusals_of_landing_eq_nil h
  rw [skipped_ofBatch, hrefusals, ← List.filter_true (inBatchOrder _), ← filterMap_zipIdx_fst]
  refine filter_inBatchOrder ?_
  rw [List.filter_true]
  simpa [Option.map_map, Function.comp_def] using (inOrder_perm batch).filterMap _

end Text

end DocGap.Plan
