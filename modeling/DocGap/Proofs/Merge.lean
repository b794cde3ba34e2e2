import Mathlib.Data.List.Forall2
import Mathlib.Data.List.Nodup
import DocGap.Proofs.Weave

/-!
# Blocks in one pass

Putting blocks in from the bottom up gives what one pass from the top gives: for each line the
blocks in front of it, in the order of the batch, and then the line. In that pass every line of the
result knows which block it comes from, so that the records of a plan can be held against it: they
say where the lines of each block are, and without these the old text is left.
-/
namespace DocGap.Plan

section Merge

variable (returns : Bool) (lines : List (List Char))

/-- The blocks in front of line `line` and the line itself, if it exists. Each line comes with the
insertion that it is from. -/
def mergeAt (chosen : List Insertion) (line : Nat) : List (Option Insertion × List Char) :=
  (chosen.filter (·.insertionLine = line)).flatMap
      (fun i => (blockLines returns i.content).map (some i, ·)) ++
    lines[line - 1]?.toList.map (none, ·)

def merge (chosen : List Insertion) : List (Option Insertion × List Char) :=
  (List.range' 1 (lines.length + 1)).flatMap (mergeAt returns lines chosen)

def mergeOrder (chosen : List Insertion) : List Insertion :=
  (List.range' 1 (lines.length + 1)).flatMap fun line => chosen.filter (·.insertionLine = line)

end Merge

/-- The record `a` is for the insertion `i`, and tells which of the merged lines are its lines. -/
structure Applied.Locates (returns : Bool)
    (merged : List (Option Insertion × List Char)) (i : Insertion)
    (a : Applied) : Prop where
  target : a.target = i.target
  insertionLine : a.insertionLine = i.insertionLine
  startLine : i.insertionLine ≤ a.startLine
  lineCount : a.lineCount = (blockLines returns i.content).length
  lines : ∀ n l, merged[n]? = some (some i, l) ↔
    a.startLine ≤ n + 1 ∧ (blockLines returns i.content)[n + 1 - a.startLine]? = some l

def Applied.covers (a : Applied) (line : Nat) : Bool :=
  a.startLine ≤ line && line < a.startLine + a.lineCount

def uncovered (applied : List Applied) (lines : List (List Char)) : List (List Char) :=
  ((lines.zipIdx 1).filter fun l => !applied.any (·.covers l.2)).map (·.1)

section Shape

variable {returns : Bool} {lines : List (List Char)}
  {chosen landed : List Insertion} {i : Insertion}

theorem merge_congr (h : ∀ line, chosen.filter (·.insertionLine = line) =
    landed.filter (·.insertionLine = line)) : merge returns lines chosen =
    merge returns lines landed := by
  unfold merge mergeAt
  simp only [h]

theorem mergeOrder_congr (h : ∀ line, chosen.filter (·.insertionLine = line) =
    landed.filter (·.insertionLine = line)) : mergeOrder lines chosen =
    mergeOrder lines landed := by
  unfold mergeOrder
  simp only [h]

theorem mergeAt_above {line : Nat} (h : ∀ i ∈ landed, line < i.insertionLine) :
    mergeAt returns lines landed line = lines[line - 1]?.toList.map (none, ·) := by
  have hnone : landed.filter (·.insertionLine = line) = [] := by
    apply List.filter_eq_nil_iff.2
    intro i hi
    have hlt := h i hi
    simp only [decide_eq_true_eq]
    omega
  rw [mergeAt, hnone, List.flatMap_nil, List.nil_append]

theorem flatMap_mergeAt_above {n : Nat} (hn : n ≤ lines.length)
    (h : ∀ i ∈ landed, n < i.insertionLine) :
    (List.range' 1 n).flatMap (mergeAt returns lines landed) = (lines.take n).map (none, ·) := by
  induction n with
  | zero => simp
  | succ n ih =>
    have hlt : n < lines.length := hn
    have hlast : mergeAt returns lines landed (1 + n) = [(none, lines[n])] := by
      rw [mergeAt_above fun i hi => by have := h i hi; omega]
      simp [hlt]
    rw [List.range'_1_concat, List.flatMap_append, List.flatMap_singleton, hlast,
      ih (by omega) fun i hi => by have := h i hi; omega, List.take_succ_eq_append_getElem hlt,
      List.map_append]
    rfl

theorem merge_split {n : Nat} (hn : n ≤ lines.length) (h : ∀ i ∈ landed, n < i.insertionLine) :
    merge returns lines landed = (lines.take n).map (none, ·) ++
      (List.range' (n + 1) (lines.length + 1 - n)).flatMap (mergeAt returns lines landed) := by
  have hrange : List.range' 1 (lines.length + 1) =
      List.range' 1 n ++ List.range' (n + 1) (lines.length + 1 - n) := by
    have happend := @List.range'_append 1 n (lines.length + 1 - n) 1
    rw [show n + (lines.length + 1 - n) = lines.length + 1 by omega, Nat.one_mul,
      Nat.add_comm 1 n] at happend
    exact happend.symm
  rw [merge, hrange, List.flatMap_append, flatMap_mergeAt_above hn h]

@[simp] theorem merge_nil : merge returns lines [] = lines.map (none, ·) := by
  rw [merge_split (Nat.le_refl _) (by simp), List.take_length]
  simp [mergeAt]

theorem merge_cons (hpos : 1 ≤ i.insertionLine) (hrange : i.insertionLine ≤ lines.length + 1)
    (hle : ∀ j ∈ landed, i.insertionLine ≤ j.insertionLine) :
    ∃ below, merge returns lines landed = (lines.take (i.insertionLine - 1)).map
      (none, ·) ++ below ∧
      merge returns lines (i :: landed) = (lines.take (i.insertionLine - 1)).map (none, ·) ++
        ((blockLines returns i.content).map (some i, ·) ++ below) := by
  have hn : i.insertionLine - 1 ≤ lines.length := by omega
  have habove : ∀ j ∈ i :: landed, i.insertionLine - 1 < j.insertionLine := by
    intro j hj
    rcases List.mem_cons.1 hj with rfl | hj
    · omega
    · have := hle j hj
      omega
  refine ⟨_, merge_split hn fun j hj => habove j (List.mem_cons_of_mem _ hj), ?_⟩
  rw [merge_split hn habove]
  obtain ⟨count, hcount⟩ : ∃ count, lines.length + 1 - (i.insertionLine - 1) = count + 1 :=
    ⟨lines.length + 1 - i.insertionLine, by omega⟩
  rw [hcount, List.range'_succ, Nat.sub_add_cancel hpos, List.flatMap_cons, List.flatMap_cons]
  -- the block stands in front of its line, and the lines further down do not know of it
  have hfirst : mergeAt returns lines (i :: landed) i.insertionLine =
      (blockLines returns i.content).map (some i, ·) ++
      mergeAt returns lines landed i.insertionLine := by
    simp [mergeAt]
  have hbelow : ∀ line ∈ List.range' (i.insertionLine + 1) count,
      mergeAt returns lines (i :: landed) line = mergeAt returns lines landed line := by
    intro line hline
    have hlt : i.insertionLine < line := (List.mem_range'_1.1 hline).1
    rw [mergeAt, List.filter_cons_of_neg (by simp only [decide_eq_true_eq]; omega), mergeAt]
  rw [hfirst, List.flatMap_congr hbelow, List.append_assoc]

theorem mem_merge {origin : Option Insertion} {l : List Char}
    (h : (origin, l) ∈ merge returns lines landed) :
    origin = none ∨ ∃ i ∈ landed, origin = some i ∧ l ∈ blockLines returns i.content := by
  obtain ⟨line, -, hline⟩ := List.mem_flatMap.1 h
  rcases List.mem_append.1 hline with hblock | hold
  · obtain ⟨i, hi, hl⟩ := List.mem_flatMap.1 hblock
    obtain ⟨l', hl', heq⟩ := List.mem_map.1 hl
    cases heq
    exact .inr ⟨i, (List.mem_filter.1 hi).1, rfl, hl'⟩
  · obtain ⟨l', -, heq⟩ := List.mem_map.1 hold
    cases heq
    exact .inl rfl

/-- Insertions in the order of their lines, on lines that exist. -/
structure Settled (lines : List (List Char)) (landed : List Insertion) : Prop where
  sorted : landed.Pairwise fun i j => i.insertionLine ≤ j.insertionLine
  pos : ∀ i ∈ landed, 1 ≤ i.insertionLine
  range : ∀ i ∈ landed, i.insertionLine ≤ lines.length + 1

namespace Settled

theorem tail (h : Settled lines (i :: landed)) : Settled lines landed :=
  ⟨h.sorted.of_cons, fun j hj => h.pos j (List.mem_cons_of_mem _ hj),
    fun j hj => h.range j (List.mem_cons_of_mem _ hj)⟩

theorem le (h : Settled lines (i :: landed)) : ∀ j ∈ landed, i.insertionLine ≤ j.insertionLine :=
  fun _ => List.rel_of_pairwise_cons h.sorted

theorem exists_below (h : Settled lines (i :: landed)) (returns : Bool) :
    ∃ below, merge returns lines landed = (lines.take (i.insertionLine - 1)).map
      (none, ·) ++ below ∧
      merge returns lines (i :: landed) = (lines.take (i.insertionLine - 1)).map (none, ·) ++
        ((blockLines returns i.content).map (some i, ·) ++ below) :=
  merge_cons (h.pos i List.mem_cons_self) (h.range i List.mem_cons_self) h.le

theorem map_snd_merge (h : Settled lines landed) :
    (merge returns lines landed).map (·.2) = weave returns lines landed := by
  induction landed with
  | nil => simp [weave, Function.comp_def]
  | cons i landed ih =>
    obtain ⟨below, hless, hmore⟩ := h.exists_below returns
    have hlength : (lines.take (i.insertionLine - 1)).length = i.insertionLine - 1 := by
      have hrange := h.range i List.mem_cons_self
      rw [List.length_take]
      omega
    have hwoven := ih h.tail
    rw [hless] at hwoven
    rw [hmore, weave_cons h.range h.le, ← hwoven]
    simp only [List.map_append, List.map_map, Function.comp_def, List.map_id']
    rw [List.drop_left' hlength]

theorem filter_merge (h : Settled lines landed) (returns : Bool) :
    (merge returns lines landed).filter (·.1 = none) = lines.map (none, ·) := by
  induction landed with
  | nil => simp [List.filter_map, Function.comp_def]
  | cons i landed ih =>
    obtain ⟨below, hless, hmore⟩ := h.exists_below returns
    have hold := ih h.tail
    rw [hless, List.filter_append] at hold
    rw [hmore, List.filter_append, List.filter_append, ← hold]
    simp [List.filter_map, Function.comp_def]

theorem getElem?_merge_cons (h : Settled lines (i :: landed)) (n : Nat) :
    (merge returns lines (i :: landed))[n]? =
      if n < i.insertionLine - 1 then lines[n]?.map (none, ·)
      else if n < i.insertionLine - 1 + (blockLines returns i.content).length then
        (blockLines returns i.content)[n - (i.insertionLine - 1)]?.map (some i, ·)
      else (merge returns lines landed)[n - (blockLines returns i.content).length]? := by
  obtain ⟨below, hless, hmore⟩ := h.exists_below returns
  have hrange := h.range i List.mem_cons_self
  have hlength :
      ((lines.take (i.insertionLine - 1)).map fun l => ((none : Option Insertion), l)).length =
      i.insertionLine - 1 := by
    rw [List.length_map, List.length_take]
    omega
  rw [hmore, hless]
  split
  · next hlt =>
      rw [List.getElem?_append_left (by omega), List.getElem?_map, List.getElem?_take_of_lt hlt]
  · split
    · next hlt =>
      rw [List.getElem?_append_right (by omega),
        List.getElem?_append_left (by simp; omega), hlength,
        List.getElem?_map]
    · next hge =>
      rw [List.getElem?_append_right (by omega), List.getElem?_append_right (by simp; omega),
        List.getElem?_append_right (by omega), hlength, List.length_map]
      congr 1
      omega

theorem getElem?_merge_self (h : Settled lines (i :: landed)) (hi : i ∉ landed)
    (n : Nat) (l : List Char) :
    (merge returns lines (i :: landed))[n]? = some (some i, l) ↔
      i.insertionLine ≤ n + 1 ∧
        (blockLines returns i.content)[n + 1 - i.insertionLine]? = some l := by
  have hpos := h.pos i List.mem_cons_self
  rw [h.getElem?_merge_cons, show n + 1 - i.insertionLine = n - (i.insertionLine - 1) by omega]
  split
  · next hlt => simp; omega
  · split
    · simp; omega
    · next hge =>
      rw [List.getElem?_eq_none (l := blockLines returns i.content) (by omega)]
      refine ⟨fun hl => ?_, by simp⟩
      rcases mem_merge (List.mem_of_getElem? hl) with hnone | ⟨j, hj, heq, -⟩
      · cases hnone
      · cases heq
        exact absurd hj hi

theorem getElem?_merge_other (h : Settled lines (i :: landed)) {j : Insertion}
    (hne : i ≠ j) (n : Nat)
    (l : List Char) :
    (merge returns lines (i :: landed))[n]? = some (some j, l) ↔
      i.insertionLine + (blockLines returns i.content).length ≤ n + 1 ∧
        (merge returns lines landed)[n - (blockLines returns i.content).length]? =
          some (some j, l) := by
  have hpos := h.pos i List.mem_cons_self
  rw [h.getElem?_merge_cons]
  split
  · next hlt => simp; omega
  · split
    · next hlt => simp [hne]; omega
    · next hge => exact (and_iff_right (by omega)).symm

theorem forall₂_place (h : Settled lines landed) (hnodup : landed.Nodup) (shift : Nat) :
    List.Forall₂
      (fun i a => (a.landed = .of returns i ∧ i.insertionLine + shift ≤ a.startLine) ∧
        ∀ n l, (merge returns lines landed)[n]? = some (some i, l) ↔
          a.startLine ≤ n + shift + 1 ∧
            (blockLines returns i.content)[n + shift + 1 - a.startLine]? = some l)
      landed (place shift (landed.map (.of returns))) := by
  induction landed generalizing shift with
  | nil => exact .nil
  | cons i landed ih =>
    obtain ⟨hi, hlanded⟩ := List.nodup_cons.1 hnodup
    have hpos := h.pos i List.mem_cons_self
    have hothers : ∀ j ∈ landed, i.insertionLine ≤ j.insertionLine ∧ i ≠ j :=
      fun j hj => ⟨h.le j hj, fun heq => hi (heq ▸ hj)⟩
    have hrest := ih h.tail hlanded (shift + (blockLines returns i.content).length)
    refine .cons ⟨⟨rfl, Nat.le_refl _⟩, fun n l => ?_⟩
      (((List.forall₂_and_left landed _).2 ⟨hothers, hrest⟩).imp ?_)
    · rw [h.getElem?_merge_self hi]
      change _ ↔ i.insertionLine + shift ≤ n + shift + 1 ∧
        (blockLines returns i.content)[n + shift + 1 - (i.insertionLine + shift)]? = some l
      rw [show n + shift + 1 - (i.insertionLine + shift) = n + 1 - i.insertionLine by omega]
      exact and_congr_left' (by omega)
    · -- the lines of the other blocks are further down by the length of this one
      rintro j a ⟨⟨hle, hne⟩, ⟨hof, hstart⟩, hlines⟩
      refine ⟨⟨hof, by omega⟩, fun n l => ?_⟩
      rw [h.getElem?_merge_other hne, hlines]
      by_cases hge : i.insertionLine + (blockLines returns i.content).length ≤ n + 1
      · rw [show n - (blockLines returns i.content).length +
          (shift + (blockLines returns i.content).length) =
          n + shift by omega]
        exact and_iff_right hge
      · exact iff_of_false (fun hl => hge hl.1) fun hl => hge (by omega)

theorem locates (h : Settled lines landed) (returns : Bool) (hnodup : landed.Nodup) :
    List.Forall₂ (Applied.Locates returns (merge returns lines landed)) landed
      (place 0 (landed.map (.of returns))) := by
  refine (h.forall₂_place hnodup 0).imp ?_
  rintro i a ⟨⟨hof, hstart⟩, hlines⟩
  exact ⟨congrArg (·.target) hof, congrArg (·.insertionLine) hof, hstart,
    congrArg (·.lineCount) hof, hlines⟩

theorem mergeOrder_eq (h : Settled lines landed) : mergeOrder lines landed = landed := by
  have hprefix : ∀ n,
      (List.range' 1 n).flatMap (fun line => landed.filter (·.insertionLine = line)) =
      landed.filter (·.insertionLine ≤ n) := by
    intro n
    induction n with
    | zero =>
      refine (List.filter_eq_nil_iff.2 fun i hi => ?_).symm
      have hpos := h.pos i hi
      simp only [decide_eq_true_eq]
      omega
    | succ n ih =>
      have hsplit := filter_append_filter (n := n) (h.sorted.filter (·.insertionLine ≤ n + 1))
      rw [List.filter_filter, List.filter_filter] at hsplit
      rw [List.range'_1_concat, List.flatMap_append, List.flatMap_singleton, ih, hsplit]
      congr 1 <;> refine List.filter_congr fun i _ => ?_
      · grind
      · grind
  rw [mergeOrder, hprefix]
  exact List.filter_eq_self.2 fun i hi => decide_eq_true (h.range i hi)

end Settled

end Shape

section Covered

variable {returns : Bool} {merged : List (Option Insertion × List Char)} {landed : List Insertion}
  {applied : List Applied}

theorem Applied.Locates.covers_iff {i : Insertion} {a : Applied}
    (h : a.Locates returns merged i) (n : Nat) :
    a.covers (n + 1) = true ↔ ∃ l, merged[n]? = some (some i, l) := by
  have hexists : ∀ k, (∃ l, (blockLines returns i.content)[k]? = some l) ↔ k < a.lineCount := by
    intro k
    simp [List.getElem?_eq_some_iff, h.lineCount]
  simp only [h.lines, exists_and_left, hexists, Applied.covers, Bool.and_eq_true, decide_eq_true_eq]
  omega

theorem any_covers_iff
    (h : List.Forall₂ (Applied.Locates returns merged) landed applied) (n : Nat) :
    applied.any (·.covers (n + 1)) = true ↔ ∃ i ∈ landed, ∃ l, merged[n]? = some (some i, l) := by
  induction h with
  | nil => simp
  | cons hlocates _ ih =>
    rw [List.any_cons, Bool.or_eq_true, ih, hlocates.covers_iff]
    simp

theorem exists_locates
    (h : List.Forall₂ (Applied.Locates returns merged) landed applied) {a : Applied}
    (ha : a ∈ applied) : ∃ i ∈ landed, a.Locates returns merged i := by
  induction h with
  | nil => cases ha
  | cons hlocates _ ih =>
    rcases List.mem_cons.1 ha with rfl | ha
    · exact ⟨_, List.mem_cons_self, hlocates⟩
    · obtain ⟨i, hi, hlocates⟩ := ih ha
      exact ⟨i, List.mem_cons_of_mem _ hi, hlocates⟩

theorem uncovered_merge {lines : List (List Char)} (h : Settled lines landed)
    (hnodup : landed.Nodup) :
    uncovered (place 0 (landed.map (.of returns)))
      ((merge returns lines landed).map (·.2)) = lines := by
  have hcovers := any_covers_iff (h.locates returns hnodup)
  have hold : ∀ x ∈ (merge returns lines landed).zipIdx 1,
      (!(place 0 (landed.map (.of returns))).any (·.covers x.2)) = decide (x.1.1 = none) := by
    rintro ⟨⟨origin, l⟩, n⟩ hx
    obtain ⟨hn, hx⟩ := List.mem_zipIdx_iff_le_and_getElem?_sub.1 hx
    obtain ⟨n, rfl⟩ := Nat.exists_eq_add_of_le' hn
    have hn := hcovers n
    rw [show (merge returns lines landed)[n]? = some (origin, l) from hx] at hn
    rcases mem_merge (List.mem_of_getElem? hx) with rfl | ⟨i, hi, rfl, -⟩
    · simpa using hn
    · have hcovered := hn.2 ⟨i, hi, l, rfl⟩
      simp [hcovered]
  have hfilter := congrArg (List.map (·.2)) (h.filter_merge returns)
  rw [List.map_map, Function.comp_def, List.map_id'] at hfilter
  calc uncovered (place 0 (landed.map (.of returns))) ((merge returns lines landed).map (·.2))
      = (((merge returns lines landed).zipIdx 1).filter fun x => x.1.1 = none).map (·.1.2) := by
        rw [uncovered, List.zipIdx_map, List.filter_map, List.map_map, ← List.filter_congr hold]
        rfl
    _ = ((((merge returns lines landed).zipIdx 1).map (·.1)).filter (·.1 = none)).map (·.2) := by
        rw [List.filter_map, List.map_map]
        rfl
    _ = lines := by rw [List.zipIdx_map_fst, hfilter]

end Covered

section Chosen

theorem filter_mem_of_sublist {α : Type} [DecidableEq α] {part whole : List α}
    (h : part.Sublist whole)
    (hnodup : whole.Nodup) : whole.filter (· ∈ part) = part := by
  induction h with
  | slnil => rfl
  | @cons part whole a hpart ih =>
    obtain ⟨ha, hwhole⟩ := List.nodup_cons.1 hnodup
    have hout : a ∉ part := fun hmem => ha (hpart.subset hmem)
    rw [List.filter_cons_of_neg (by simpa using hout), ih hwhole]
  | @cons_cons part whole a hpart ih =>
    obtain ⟨ha, hwhole⟩ := List.nodup_cons.1 hnodup
    have hsame : ∀ b ∈ whole, decide (b ∈ a :: part) = decide (b ∈ part) := by
      intro b hb
      have hne : b ≠ a := fun heq => ha (heq ▸ hb)
      simp [hne]
    rw [List.filter_cons_of_pos (by simp), List.filter_congr hsame, ih hwhole]

theorem filter_inOrder (batch : List Insertion) (line : Nat) :
    (inOrder batch).filter (·.1.insertionLine = line) =
      batch.zipIdx.filter (·.1.insertionLine = line) := by
  let le (a b : Insertion × Nat) : Bool := a.1.insertionLine ≤ b.1.insertionLine
  have htrans : ∀ a b c, le a b → le b c → le a c := by grind
  have htotal : ∀ a b, le a b || le b a := by grind
  -- the places of one line are in order already, so that sorting keeps them as they are
  have hordered : (batch.zipIdx.filter (·.1.insertionLine = line)).Pairwise fun a b =>
      le a b = true := by
    refine List.pairwise_of_forall_mem_list fun a ha b hb => ?_
    have ha := of_decide_eq_true (List.mem_filter.1 ha).2
    have hb := of_decide_eq_true (List.mem_filter.1 hb).2
    simp [le, ha, hb]
  have hsublist := (List.sublist_mergeSort htrans htotal hordered List.filter_sublist).filter
    (·.1.insertionLine = line)
  simp only [List.filter_filter, Bool.and_self] at hsublist
  have hlength := ((inOrder_perm batch).filter (·.1.insertionLine = line)).length_eq
  exact (hsublist.eq_of_length hlength.symm).symm

theorem nodup_zipIdx (batch : List Insertion) : batch.zipIdx.Nodup := by
  refine List.Nodup.of_map Prod.snd ?_
  rw [List.zipIdx_map_snd]
  exact List.nodup_range' 1

theorem nodup_inOrder (batch : List Insertion) : (inOrder batch).Nodup :=
  (inOrder_perm batch).nodup_iff.2 (nodup_zipIdx batch)

theorem exists_chosen {batch landed : List Insertion} (h : landed.Sublist (ordered batch)) :
    ∃ chosen : List Insertion, chosen.Sublist batch ∧ chosen.Perm landed ∧
      ∀ line, chosen.filter (·.insertionLine = line) = landed.filter (·.insertionLine = line) := by
  obtain ⟨placed, hplaced, rfl⟩ := List.sublist_map_iff.1 h
  have hnodup := nodup_zipIdx batch
  have hsorted := inOrder_perm batch
  refine ⟨(batch.zipIdx.filter (· ∈ placed)).map (·.1), ?_, ?_, fun line => ?_⟩
  · have hsublist := (List.filter_sublist (p := (· ∈ placed)) (l := batch.zipIdx)).map Prod.fst
    rwa [List.zipIdx_map_fst] at hsublist
  · refine List.Perm.map _ ((List.perm_ext_iff_of_nodup (hnodup.filter _) ?_).2 fun x => ?_)
    · exact (nodup_inOrder batch).sublist hplaced
    · have hmem : x ∈ placed → x ∈ batch.zipIdx := fun hx => hsorted.subset (hplaced.subset hx)
      simp only [List.mem_filter, decide_eq_true_eq]
      exact and_iff_right_of_imp hmem
  · have hline := hplaced.filter (·.1.insertionLine = line)
    rw [filter_inOrder] at hline
    have hfilter := filter_mem_of_sublist hline (hnodup.filter _)
    rw [List.filter_map, List.filter_map]
    refine congrArg _ (Eq.trans ?_ hfilter)
    rw [List.filter_filter, List.filter_filter]
    refine List.filter_congr fun x _ => ?_
    simp only [List.mem_filter, Function.comp_apply]
    grind

end Chosen

section Text

variable (style : Comment.Style) (window : Nat) (text : String) (batch : List Insertion)

theorem settled_landedIn : Settled (linesOf text) (landedIn style window text batch) :=
  ⟨landedIn_sorted style window text batch, fun _ hi => (mem_range_of_mem_landing hi).1,
    fun _ hi => landedIn_range style window text batch hi⟩

theorem nodup_landedIn : (landedIn style window text batch).Nodup :=
  .of_map (·.target) (nodup_targets_landing _ _ _)

theorem locates_landedIn :
    List.Forall₂
      (Applied.Locates (settingFor style window text).returns
        (merge (settingFor style window text).returns (linesOf text)
        (landedIn style window text batch)))
      (landedIn style window text batch) (ofBatch style window text batch).applied := by
  rw [applied_ofBatch]
  exact (settled_landedIn style window text batch).locates _
    (nodup_landedIn style window text batch)

theorem splitLines_drop_content :
    Text.splitLines
      ((ofBatch style window text batch).content.toList.drop (splitMark text.toList).1.length) =
      wovenLines style window text batch := by
  rw [content_ofBatch, String.toList_ofList, List.drop_left, splitLines_wovenLines]

def mergeInto (chosen : List Insertion) : List (Option Insertion × List Char) :=
  merge (hasReturns (splitMark text.toList).2) (linesOf text) chosen

/-- A plan is a merge in one pass of the lines with some insertions of the batch. The records say
where the lines of each block are in the result; without these lines the text is left. -/
theorem ofBatch_eq_merge :
    ∃ chosen : List Insertion, chosen.Sublist batch ∧ (chosen.map (·.target)).Nodup ∧
      (ofBatch style window text batch).content = String.ofList
        ((splitMark text.toList).1 ++ Text.joinLines ((mergeInto text chosen).map (·.2))) ∧
      Text.splitLines
          ((ofBatch style window text batch).content.toList.drop (splitMark text.toList).1.length) =
        (mergeInto text chosen).map (·.2) ∧
      List.Forall₂ (Applied.Locates (hasReturns (splitMark text.toList).2) (mergeInto text chosen))
        (mergeOrder (linesOf text) chosen) (ofBatch style window text batch).applied ∧
      (splitMark text.toList).1 ++
        Text.joinLines (uncovered (ofBatch style window text batch).applied
          (Text.splitLines
            ((ofBatch style window text batch).content.toList.drop
            (splitMark text.toList).1.length))) =
        text.toList := by
  obtain ⟨chosen, hsublist, hperm, hline⟩ :=
    exists_chosen (landing_sublist (settingFor style window text) (linesOf text) (ordered batch))
  have hsettled := settled_landedIn style window text batch
  have hmerge : mergeInto text chosen =
      merge (settingFor style window text).returns (linesOf text)
      (landedIn style window text batch) :=
    merge_congr hline
  have horder : mergeOrder (linesOf text) chosen = landedIn style window text batch :=
    (mergeOrder_congr hline).trans hsettled.mergeOrder_eq
  have hlines : (mergeInto text chosen).map (·.2) = wovenLines style window text batch := by
    rw [hmerge]
    exact hsettled.map_snd_merge
  have hresult := (splitLines_drop_content style window text batch).trans hlines.symm
  refine ⟨chosen, hsublist, (hperm.map _).nodup_iff.2 (nodup_targets_landing _ _ _),
    ?_, hresult, ?_, ?_⟩
  · rw [content_ofBatch, ← hlines]
  · have hlocates := locates_landedIn style window text batch
    rwa [← hmerge, ← horder] at hlocates
  · rw [hresult, hmerge, applied_ofBatch,
      uncovered_merge hsettled (nodup_landedIn style window text batch),
      linesOf, Text.joinLines_splitLines, splitMark_append]

end Text

end DocGap.Plan
