import DocGap.Proofs.CommentRuns
import DocGap.Proofs.GapBatch

/-!
# When explanations are announced

If a line of the window above an element is a comment line and holds a marker, then the comments
above the element announce the explanation.
-/
namespace DocGap

namespace Gap

open Comment

def marks (markers : List String) (line : List Char) : Prop :=
  ∃ marker ∈ markers, marker.toList <:+: line.map lowerCase

theorem any_announces_of_mem {style : Style} {window n : Nat} {lines : Array (List Char)}
    {markers : List String} {line : List Char} (hline : line ∈ linesAbove window n lines)
    (hcomment : isCommentLine style line = true) (hmarks : marks markers line) :
    (commentsAbove style window n lines).any (announces markers) = true := by
  obtain ⟨r, hr, hmem⟩ := exists_run_of_mem hline hcomment
  obtain ⟨marker, hmarker, hpart⟩ := hmarks
  refine List.any_eq_true.2 ⟨_, List.mem_map_of_mem hr, List.any_eq_true.2 ⟨marker, hmarker, ?_⟩⟩
  rw [Text.contains_iff_isInfix]
  exact hpart.trans ((Text.isInfix_joinWith hmem).map lowerCase)

theorem mem_linesAbove {window n : Nat} {lines front tail : List (List Char)}
    (h : lines.take (n - 1) = front ++ tail) (hwindow : tail.length ≤ window) {line : List Char}
    (hline : line ∈ tail) :
    line ∈ linesAbove window n lines.toArray := by
  have hlength := congrArg List.length h
  simp only [List.length_take, List.length_append] at hlength
  have htake : lines.take (min (n - 1) lines.length) = front ++ tail := by
    rw [← List.take_eq_take_min]
    exact h
  simp only [linesAbove, Array.toList_extract, List.size_toArray, List.extract_eq_take_drop]
  rw [← List.drop_take, htake, List.drop_append_of_le_length (by omega)]
  exact List.mem_append_right _ hline

theorem announced_of_tail {style : Style} {window n : Nat} {text : String}
    {front tail : List (List Char)}
    (h : (Text.splitLines text.toList).take (n - 1) = front ++ tail)
    (hwindow : tail.length ≤ window)
    (htechnical : ∃ line ∈ tail, isCommentLine style line = true ∧ marks technicalMarkers line)
    (hsimple : ∃ line ∈ tail, isCommentLine style line = true ∧ marks simpleMarkers line) :
    announced style window text n = true := by
  obtain ⟨technical, ht, htcomment, htmarks⟩ := htechnical
  obtain ⟨simple, hs, hscomment, hsmarks⟩ := hsimple
  simp only [announced, presence, Bool.and_eq_true]
  exact ⟨any_announces_of_mem (mem_linesAbove h hwindow ht) htcomment htmarks,
    any_announces_of_mem (mem_linesAbove h hwindow hs) hscomment hsmarks⟩

end Gap

end DocGap
