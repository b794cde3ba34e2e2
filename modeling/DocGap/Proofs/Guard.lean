import DocGap.Proofs.CommentRuns
import DocGap.Proofs.Weave

/-!
# How far the guard looks

A block is left out if a comment that touches the window above its line names its target. Such a
comment may go on below the line. What is found above the line depends on the lines above it only,
and the rest is found in the one comment that goes on over the line.
-/
namespace DocGap.Plan

open Comment

namespace Page

def top (p : Page) : Page := { p with below := [] }

def scannedAbove (window : Nat) (p : Page) : List (List Char) :=
  (p.above.take (window + scanLimit)).reverse

def scanned (window : Nat) (p : Page) : List (List Char) :=
  p.scannedAbove window ++ p.below.take scanLimit

end Page

/-- A comment that goes on over the division names the element below it. -/
def namedAcross (style : Style) (window : Nat) (p : Page) (name : String) : Bool :=
  (runs style (p.scanned window)).any fun run =>
    decide (run.start < (p.scannedAbove window).length) &&
      (Run.of ⟨(p.scannedAbove window).length, run.stop⟩ (p.scanned window)).any
      (Text.contains name.toList)

section Guard

variable {style : Style} {window : Nat} {p q : Page} {name : String}

/-- The name is in a line that comment lines link with a line of the window. -/
theorem namedAbove_iff :
    namedAbove style window p name = true ↔
      ∃ j k l, (p.scannedAbove window).length ≤ j + window ∧ j < (p.scannedAbove window).length ∧
        Linked (flags style (p.scanned window)) j k ∧ (p.scanned window)[k]? = some l ∧
          name.toList <:+: l := by
  have hlength : (p.above.take (window + scanLimit)).length = (p.scannedAbove window).length := by
    rw [Page.scannedAbove, List.length_reverse]
  have hunfold : namedAbove style window p name =
      if (p.scannedAbove window).length - window = (p.scannedAbove window).length then false
      else (runs style (p.scanned window)).any fun run =>
        decide (run.start < (p.scannedAbove window).length ∧
          (p.scannedAbove window).length - window < run.stop) &&
          (run.of (p.scanned window)).any (Text.contains name.toList) := by
    rw [← hlength]
    rfl
  rw [hunfold]
  split
  · next hempty =>
    refine iff_of_false Bool.false_ne_true ?_
    rintro ⟨j, k, l, hwindow, hj, -⟩
    omega
  · next hwindow =>
    simp only [List.any_eq_true, Bool.and_eq_true, decide_eq_true_eq,
      Text.contains_iff_isInfix, Run.mem_of_iff]
    constructor
    · rintro ⟨r, hr, ⟨hstart, hstop⟩, l, ⟨k, hk, hkstop, hl⟩, hname⟩
      -- a line of the window that is in the run
      refine ⟨max r.start ((p.scannedAbove window).length - window), k, l, by omega,
        by omega, ?_, hl, hname⟩
      exact exists_run_iff_linked.1 ⟨r, hr, ⟨by omega, by omega⟩, hk, hkstop⟩
    · rintro ⟨j, k, l, hlow, hj, hlinked, hl, hname⟩
      obtain ⟨r, hr, ⟨hstartj, hstopj⟩, hstartk, hstopk⟩ := exists_run_iff_linked.2 hlinked
      exact ⟨r, hr, ⟨by omega, by omega⟩, l, ⟨k, hstartk, hstopk, hl⟩, hname⟩

theorem namedAcross_iff :
    namedAcross style window p name = true ↔
      0 < (p.scannedAbove window).length ∧ ∃ k l, (p.scannedAbove window).length ≤ k ∧
        Linked (flags style (p.scanned window)) ((p.scannedAbove window).length - 1) k ∧
          (p.scanned window)[k]? = some l ∧ name.toList <:+: l := by
  simp only [namedAcross, List.any_eq_true, Bool.and_eq_true, decide_eq_true_eq,
    Text.contains_iff_isInfix,
    Run.mem_of_iff]
  constructor
  · rintro ⟨r, hr, hstart, l, ⟨k, hk, hkstop, hl⟩, hname⟩
    refine ⟨by omega, k, l, hk,
      exists_run_iff_linked.1 ⟨r, hr, ⟨by omega, by omega⟩, by omega, hkstop⟩, hl, hname⟩
  · rintro ⟨hpos, k, l, hk, hlinked, hl, hname⟩
    obtain ⟨r, hr, ⟨hstartj, hstopj⟩, hstartk, hstopk⟩ := exists_run_iff_linked.2 hlinked
    exact ⟨r, hr, by omega, l, ⟨k, hk, hstopk, hl⟩, hname⟩

theorem Page.scanned_top (window : Nat) (p : Page) :
    p.top.scannedAbove window = p.scannedAbove window ∧
      p.top.scanned window = p.scannedAbove window :=
  ⟨rfl, by simp [scanned, scannedAbove, top]⟩

/-- What the guard finds is found above the division, or in the comment that goes on over it. -/
theorem namedAbove_eq_or (style : Style) (p : Page) (name : String) (hwindow : 0 < window) :
    namedAbove style window p name =
      (namedAbove style window p.top name || namedAcross style window p name) := by
  obtain ⟨habove, htop⟩ := Page.scanned_top window p
  have hlink : ∀ {j k}, j < (p.scannedAbove window).length → k < (p.scannedAbove window).length →
      (Linked (flags style (p.scanned window)) j k ↔
        Linked (flags style (p.scannedAbove window)) j k) := by
    intro j k hj hk
    refine forall_congr' fun n => forall_congr' fun _ => forall_congr' fun hn => ?_
    rw [Page.scanned, flags_append_getElem? (by omega)]
  rw [Bool.eq_iff_iff, Bool.or_eq_true, namedAbove_iff, namedAbove_iff,
    namedAcross_iff, habove, htop]
  constructor
  · rintro ⟨j, k, l, hlow, hj, hlinked, hl, hname⟩
    by_cases hk : k < (p.scannedAbove window).length
    · refine .inl ⟨j, k, l, hlow, hj, (hlink hj hk).1 hlinked, ?_, hname⟩
      rwa [Page.scanned, List.getElem?_append_left hk] at hl
    · refine .inr ⟨by omega, k, l, by omega, fun n hn hnk =>
        hlinked n (by omega) (by omega), hl, hname⟩
  · rintro (⟨j, k, l, hlow, hj, hlinked, hl, hname⟩ | ⟨hpos, k, l, hk, hlinked, hl, hname⟩)
    · have hk : k < (p.scannedAbove window).length := (List.getElem?_eq_some_iff.1 hl).1
      refine ⟨j, k, l, hlow, hj, (hlink hj hk).2 hlinked, ?_, hname⟩
      rwa [Page.scanned, List.getElem?_append_left hk]
    · exact ⟨_, k, l, by omega, by omega, hlinked, hl, hname⟩

theorem namedAbove_zero (style : Style) (p : Page) (name : String) :
    namedAbove style 0 p name = false := by
  simp [namedAbove]

theorem Page.top_eq_of_above_eq (h : p.above = q.above) : p.top = q.top := by
  obtain ⟨above, height, below, hp⟩ := p
  obtain ⟨above', height', below', hq⟩ := q
  simp only at h
  simp [top, hp, hq, h]

end Guard

end DocGap.Plan
