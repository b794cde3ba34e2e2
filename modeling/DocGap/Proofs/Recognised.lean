import Mathlib.Algebra.GroupWithZero.Nat
import DocGap.Proofs.Rerun

/-!
# Blocks are recognised

A block goes above the line before its element, and the lines that come in above an element move it
down. If no block is longer than the window, then the explanations are found above the line to which
the element has moved, whatever the payload says and even if the nearest block is that of another
element.
-/
namespace DocGap

namespace Plan

theorem movedLine_eq_add_sum (applied : List Applied) (line : Nat) :
    movedLine applied line =
      line + ((applied.filter (·.insertionLine ≤ line)).map (·.lineCount)).sum := by
  induction applied with
  | nil => rfl
  | cons a applied ih =>
    rw [movedLine, List.foldr_cons, ← movedLine, ih]
    by_cases ha : a.insertionLine ≤ line
    · rw [if_pos ha, List.filter_cons_of_pos (by simpa using ha), List.map_cons, List.sum_cons]
      omega
    · rw [if_neg ha, List.filter_cons_of_neg (by simpa using ha)]

/-- The line to which line `n` moves is the old one. A byte order mark is not on it, since a
block stands above. -/
theorem getElem?_content_movedLine (style : Comment.Style) (window : Nat) (text : String)
    (batch : List Insertion)
    {n : Nat} (hpos : 1 ≤ n) (hle : n ≤ (linesOf text).length)
    (hnear : ∃ i ∈ landedIn style window text batch, i.insertionLine = insertionLineFor n) :
    (Text.splitLines (ofBatch style window text batch).content.toList)[
        movedLine (ofBatch style window text batch).applied n - 1]? = (linesOf text)[n - 1]? := by
  obtain ⟨i, -, front, rest, habove, -⟩ :=
    exists_block_above_movedLine style window text batch hpos hle hnear
  have hbelow : movedLine (ofBatch style window text batch).applied n - 1 ≠ 0 := by
    intro hzero
    rw [hzero, List.take_zero] at habove
    have hnil := List.append_eq_nil_iff.1 (List.append_eq_nil_iff.1 habove.symm).2
    exact blockLines_ne_nil _ _ hnil.1
  have hlt : n - 1 < (linesOf text).length := by omega
  have hline := getElem?_wovenLines_movedLine style window text batch hpos hle
  rw [List.getElem?_eq_getElem hlt] at hline ⊢
  rw [getElem?_content style window text batch hline, if_neg hbelow]

end Plan

namespace Settings

open Comment Plan

variable (settings : Settings) (payload : Payload) (path : Path)
  (language : Language) (text : String)

/-- If no block is longer than the window, then every element that got a block has both explanations
above it on the line to which it has moved. -/
theorem blocks_recognised
    (hfits : ∀ a ∈ (settings.planFor payload path language text).applied,
      a.lineCount ≤ settings.analysisWindow) :
    ∀ a ∈ (settings.planFor payload path language text).applied,
      let plan := settings.planFor payload path language text
      let lines := Text.splitLines plan.content.toList
      let moved :=
        a.target.line +
          ((plan.applied.filter (·.insertionLine ≤ a.target.line)).map (·.lineCount)).sum
      (∃ line, (linesOf text)[a.target.line - 1]? = some line ∧ lines[moved - 1]? = some line) ∧
        Gap.presence (.ofLanguage (some language)) settings.analysisWindow moved lines.toArray =
          ⟨true, true⟩ := by
  intro a ha
  dsimp only
  rw [← movedLine_eq_add_sum]
  constructor
  · obtain ⟨e, he, htarget, -, hi⟩ := exists_element_of_mem_applied ha
    have hpos := he.line_pos
    have hle := he.line_le
    have hlt : e.line - 1 < (linesOf text).length := by omega
    rw [htarget]
    refine ⟨(linesOf text)[e.line - 1], List.getElem?_eq_getElem hlt, ?_⟩
    rw [← List.getElem?_eq_getElem hlt]
    exact getElem?_content_movedLine _ _ _ _ hpos hle ⟨_, hi, rfl⟩
  · have hannounced := announced_movedLine_of_fits hfits ha
    rw [Gap.announced] at hannounced
    obtain ⟨htechnical, hsimple⟩ := Bool.and_eq_true_iff.1 hannounced
    exact congrArg₂ Gap.Presence.mk htechnical hsimple

section Neighbours

def neighbours : String := "def f(): pass\r\ndef g(): pass\r\n"

def firstNeighbour : Element := ⟨"f", .function, 1, 0, some "def f()", none, ""⟩

def secondNeighbour : Element := ⟨"g", .function, 2, 15, some "def g()", none, ""⟩

def neighbourTexts : Explanation := ⟨"def h():\r  pass", "class C"⟩

def neighbourPayload : Payload := ⟨[⟨⟨"a.py"⟩, "g", some 2, neighbourTexts⟩]⟩

def narrow : Settings := ⟨8, .standard, ⟨false, .english⟩⟩

theorem documentable_neighbours :
    (Outline.ofSource ⟨"a.py"⟩ .python neighbours).documentable =
      [firstNeighbour, secondNeighbour] := by
  have hfinds : Extraction.Finds .python neighbours.toList [firstNeighbour, secondNeighbour] := by
    rw [neighbours, String.toList_ofList]
    decide
  rw [Outline.documentable_of_finds _ hfinds]
  rfl

theorem landedIn_neighbours :
    landedIn .hash narrow.mutation.window neighbours
        (narrow.batchFor neighbourPayload ⟨"a.py"⟩ .python neighbours) =
      [firstNeighbour, secondNeighbour].map
      (narrow.blockFor neighbourPayload ⟨"a.py"⟩ .python) := by
  obtain ⟨hfirst, hsecond⟩ : narrow.wants .python neighbours firstNeighbour = true ∧
      narrow.wants .python neighbours secondNeighbour = true := by
    rw [wants, wants, Gap.announced, Gap.announced, neighbours, String.toList_ofList]
    decide
  have hsorted : ([firstNeighbour, secondNeighbour].map
      (narrow.blockFor neighbourPayload ⟨"a.py"⟩ .python)).Pairwise fun a b =>
        a.insertionLine ≤ b.insertionLine := by decide
  rw [landedIn, batchFor_eq, documentable_neighbours, List.filter_cons_of_pos hfirst,
    List.filter_cons_of_pos hsecond, List.filter_nil, ordered_of_pairwise hsorted,
    landing_first_line (by decide) (by decide)]

theorem length_neighbour (returns : Bool) {e : Element}
    (he : e ∈ [firstNeighbour, secondNeighbour]) :
    (Plan.blockLines returns (narrow.blockFor neighbourPayload ⟨"a.py"⟩ .python e).content).length =
      8 := by
  have hwell := Outline.wellFormed_of_mem_documentable (documentable_neighbours ▸ he)
  have hgiven : neighbourPayload.find? ⟨"a.py"⟩ "g" 2 = some neighbourTexts := by
    simp [Payload.find?, Payload.candidates, Payload.sameFile, Path.same, neighbourPayload]
  rw [blockLines_blockFor _ _ _ _ hwell, List.length_map]
  simp only [List.mem_cons, List.not_mem_nil, or_false] at he
  rcases he with rfl | rfl
  · decide
  · rw [show neighbourPayload.find?
      ⟨"a.py"⟩ secondNeighbour.name secondNeighbour.line = _ from hgiven]
    decide

theorem applied_neighbours :
    (narrow.planFor neighbourPayload ⟨"a.py"⟩ .python neighbours).applied =
      [⟨firstNeighbour.target, 1, 1, 8⟩, ⟨secondNeighbour.target, 1, 9, 8⟩] := by
  have hstyle : Style.ofLanguage (some .python) = .hash := rfl
  rw [planFor, hstyle, applied_ofBatch, landedIn_neighbours]
  simp only [List.map_cons, List.map_nil, Landed.of, length_neighbour _ (List.mem_cons_self),
    length_neighbour _ (List.mem_cons_of_mem _ List.mem_cons_self)]
  rfl

theorem firstNeighbour_recognised :
    (∀ a ∈ (narrow.planFor neighbourPayload ⟨"a.py"⟩ .python neighbours).applied,
      a.lineCount ≤ narrow.analysisWindow) ∧
    ⟨firstNeighbour.target, 1, 1, 8⟩ ∈
      (narrow.planFor neighbourPayload ⟨"a.py"⟩ .python neighbours).applied ∧
    Gap.presence .hash 8 17 (Text.splitLines
      (narrow.planFor neighbourPayload ⟨"a.py"⟩ .python neighbours).content.toList).toArray =
      ⟨true, true⟩ := by
  have hfits : ∀ a ∈ (narrow.planFor neighbourPayload ⟨"a.py"⟩ .python neighbours).applied,
      a.lineCount ≤ narrow.analysisWindow := by
    rw [applied_neighbours]
    decide
  have hmem : ⟨firstNeighbour.target, 1, 1, 8⟩ ∈
      (narrow.planFor neighbourPayload ⟨"a.py"⟩ .python neighbours).applied := by
    rw [applied_neighbours]
    exact List.mem_cons_self
  have hrecognised :=
    (blocks_recognised narrow neighbourPayload ⟨"a.py"⟩ .python neighbours hfits _ hmem).2
  rw [applied_neighbours] at hrecognised
  exact ⟨hfits, hmem, hrecognised⟩

end Neighbours

end Settings

end DocGap
