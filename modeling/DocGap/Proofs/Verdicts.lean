import DocGap.Proofs.Decisions
import DocGap.Proofs.Guard

/-!
# Verdicts in a batch and alone

The blocks that are put in before an insertion is decided on all go in front of its line or further
down. They can still reach the comment that goes on over the line, and only through it can they
change what is decided.
-/
namespace DocGap.Plan

def Applies (plan : Plan) (i : Insertion) : Prop :=
  ∃ a ∈ plan.applied, a.target = i.target ∧ a.insertionLine = i.insertionLine

/-- Both plans have a block for the insertion, or both leave it out for the same reason. -/
structure AgreeOn (plan other : Plan) (i : Insertion) : Prop where
  applies : plan.Applies i ↔ other.Applies i
  skipped : ∀ reason, Skipped.of i reason ∈ plan.skipped ↔ Skipped.of i reason ∈ other.skipped

/-- What is decided on before `i`: the insertions in front of lines further down, and those behind
`i` in the batch that are in front of the same line. -/
def decidedFirst (before : List Insertion) (i : Insertion)
    (after : List Insertion) : List Insertion :=
  before.filter (i.insertionLine < ·.insertionLine) ++
    after.filter (i.insertionLine ≤ ·.insertionLine)

section Batch

variable {style : Comment.Style} {window : Nat} {text : String}
  {before after : List Insertion} {i : Insertion}

theorem mem_decisionsIn :
    (i, verdictIn? style window text (before ++ i :: after) (i, before.length)) ∈
      decisionsIn style window text (before ++ i :: after) := by
  refine List.mem_map.2 ⟨(i, before.length), ?_, rfl⟩
  exact List.mem_zipIdx_iff_getElem?.2 (by simp)

theorem eq_of_mem_decisionsIn (h : ((before ++ i :: after).map (·.target)).Nodup)
    {d : Insertion × Option Reason}
    (hd : d ∈ decisionsIn style window text (before ++ i :: after))
    (htarget : d.1.target = i.target) :
    d = (i, verdictIn? style window text (before ++ i :: after) (i, before.length)) := by
  have hnodup : ((decisionsIn style window text (before ++ i :: after)).map
      (·.1.target)).Nodup := by
    have hmap := congrArg (List.map (·.target))
      (map_fst_decisionsIn style window text (before ++ i :: after))
    rw [List.map_map] at hmap
    exact hmap ▸ h
  exact List.inj_on_of_nodup_map hnodup hd mem_decisionsIn htarget

theorem applies_iff (h : ((before ++ i :: after).map (·.target)).Nodup) :
    (ofBatch style window text (before ++ i :: after)).Applies i ↔
      verdictIn? style window text (before ++ i :: after) (i, before.length) = none := by
  have happlies : (ofBatch style window text (before ++ i :: after)).Applies i ↔
      (i.target, i.insertionLine) ∈
        (landedIn style window text (before ++ i :: after)).map fun j =>
        (j.target, j.insertionLine) := by
    rw [← map_key_applied]
    simp [Applies]
  rw [happlies, ((landedIn_perm style window text (before ++ i :: after)).map _).mem_iff]
  constructor
  · intro hmem
    obtain ⟨j, hj, hkey⟩ := List.mem_map.1 hmem
    obtain ⟨d, hd, rfl⟩ := List.mem_map.1 hj
    obtain ⟨hd, hnone⟩ := List.mem_filter.1 hd
    obtain rfl := eq_of_mem_decisionsIn h hd (Prod.mk.inj hkey).1
    exact Option.isNone_iff_eq_none.1 hnone
  · intro hnone
    refine List.mem_map.2 ⟨i, List.mem_map.2 ⟨_, List.mem_filter.2 ⟨mem_decisionsIn, ?_⟩, rfl⟩, rfl⟩
    exact Option.isNone_iff_eq_none.2 hnone

theorem mem_skipped_iff (h : ((before ++ i :: after).map (·.target)).Nodup) (reason : Reason) :
    Skipped.of i reason ∈ (ofBatch style window text (before ++ i :: after)).skipped ↔
      verdictIn? style window text (before ++ i :: after) (i, before.length) = some reason := by
  rw [skipped_eq_filterMap, List.mem_filterMap]
  constructor
  · rintro ⟨d, hd, hof⟩
    obtain ⟨found, hfound, hof⟩ := Option.map_eq_some_iff.1 hof
    obtain rfl := eq_of_mem_decisionsIn h hd (congrArg (·.target) hof)
    exact hfound.trans (congrArg (some ·.reason) hof)
  · intro hsome
    exact ⟨_, mem_decisionsIn, by simp [hsome]⟩

variable (style window text) in
theorem agreeOn_iff {first last : List Insertion}
    (h : ((before ++ i :: after).map (·.target)).Nodup)
    (hother : ((first ++ i :: last).map (·.target)).Nodup) :
    AgreeOn (ofBatch style window text (before ++ i :: after))
      (ofBatch style window text (first ++ i :: last)) i ↔
      verdictIn? style window text (before ++ i :: after) (i, before.length) =
        verdictIn? style window text (first ++ i :: last) (i, first.length) := by
  constructor
  · rintro ⟨-, hskipped⟩
    simp only [mem_skipped_iff h, mem_skipped_iff hother] at hskipped
    exact Option.ext fun reason => hskipped reason
  · intro heq
    refine ⟨?_, fun reason => ?_⟩
    · rw [applies_iff h, applies_iff hother, heq]
    · rw [mem_skipped_iff h, mem_skipped_iff hother, heq]

theorem map_fst_filter_precedes :
    ((before ++ i :: after).zipIdx.filter (Precedes (i, before.length) ·)).map (·.1) =
      decidedFirst before i after := by
  have hbefore : ∀ x ∈ before.zipIdx,
      decide (Precedes (i, before.length) x) = decide (i.insertionLine < x.1.insertionLine) := by
    intro x hx
    have hlt := List.snd_lt_of_mem_zipIdx hx
    refine decide_eq_decide.2 ?_
    simp only [Precedes]
    omega
  have hafter : ∀ x ∈ after.zipIdx (before.length + 1),
      decide (Precedes (i, before.length) x) = decide (i.insertionLine ≤ x.1.insertionLine) := by
    intro x hx
    have hle := List.le_snd_of_mem_zipIdx hx
    refine decide_eq_decide.2 ?_
    simp only [Precedes]
    omega
  rw [List.zipIdx_append, List.zipIdx_cons, Nat.zero_add, List.filter_append,
    List.filter_cons_of_neg (by simpa using Precedes.irrefl), List.filter_congr hbefore,
      List.filter_congr hafter,
    List.map_append, decidedFirst]
  conv_rhs => rw [← List.zipIdx_map_fst 0 before, ← List.zipIdx_map_fst (before.length + 1) after,
    List.filter_map, List.filter_map]
  rfl

theorem decidedBefore_inOrder :
    decidedBefore (inOrder (before ++ i :: after)) (i, before.length) =
      ordered (decidedFirst before i after) := by
  refine eq_of_filter_eq (List.pairwise_map.2 ((pairwise_inOrder _).filter _))
    (pairwise_ordered _) fun line => ?_
  rw [filter_ordered, ← map_fst_filter_precedes, decidedBefore, List.filter_map, List.filter_map]
  refine congrArg _ ?_
  rw [List.filter_comm _ _ (inOrder _), List.filter_comm _ _ (List.zipIdx _)]
  exact congrArg _ (filter_inOrder _ line)

theorem verdictIn?_append :
    verdictIn? style window text (before ++ i :: after) (i, before.length) =
      refusalOver? (settingFor style window text) (linesOf text)
        (landedIn style window text (decidedFirst before i after)) i := by
  rw [verdictIn?, verdict?, decidedBefore_inOrder]
  rfl

theorem verdictIn?_alone :
    verdictIn? style window text [i] (i, 0) =
      refusalOver? (settingFor style window text) (linesOf text) [] i := by
  have hnone : landedIn style window text (decidedFirst [] i []) = [] := by
    rw [landedIn, show decidedFirst [] i [] = [] from rfl, ordered_of_pairwise .nil, landing]
  have halone : verdictIn? style window text ([] ++ [i]) (i, 0) = _ := verdictIn?_append
  rwa [hnone, List.nil_append] at halone

theorem agreeOn_alone (h : ((before ++ i :: after).map (·.target)).Nodup) :
    AgreeOn (ofBatch style window text (before ++ i :: after)) (ofBatch style window text [i]) i ↔
      refusalOver? (settingFor style window text) (linesOf text)
          (landedIn style window text (decidedFirst before i after)) i =
        refusalOver? (settingFor style window text) (linesOf text) [] i := by
  have hsingle : (([] ++ [i]).map Insertion.target).Nodup := List.nodup_singleton _
  have hagree := agreeOn_iff style window text h hsingle
  rwa [List.nil_append, List.length_nil, verdictIn?_append, verdictIn?_alone] at hagree

theorem refusalOver?_of_new {setting : Setting} {lines : List (List Char)} {landed : List Insertion}
    (hnew : i.target ∉ landed.map (·.target)) :
    refusalOver? setting lines landed i =
      if outside setting.lineCount i then some (.outOfRange setting.lineCount)
      else if namedAbove setting.style setting.window
          (.inFrontOf i.insertionLine (weave setting.returns lines landed)) i.target.name then
        some .alreadyDocumented
      else none := by
  simp only [refusalOver?, outside, if_neg hnew, Bool.or_eq_true, decide_eq_true_eq]

theorem refusalOver?_eq_iff {setting : Setting} {lines : List (List Char)} {landed : List Insertion}
    (hnew : i.target ∉ landed.map (·.target))
    (hle : ∀ j ∈ landed, i.insertionLine ≤ j.insertionLine)
    (hrange : ∀ j ∈ landed, j.insertionLine ≤ lines.length + 1) :
    refusalOver? setting lines landed i = refusalOver? setting lines [] i ↔
      (0 < setting.window → outside setting.lineCount i = false →
        namedAbove setting.style setting.window
          (Page.inFrontOf i.insertionLine lines).top i.target.name = false →
          namedAcross setting.style setting.window
              (.inFrontOf i.insertionLine (weave setting.returns lines landed)) i.target.name =
            namedAcross setting.style setting.window
              (.inFrontOf i.insertionLine lines) i.target.name) := by
  have htop : (Page.inFrontOf i.insertionLine (weave setting.returns lines landed)).top =
      (Page.inFrontOf i.insertionLine lines).top := by
    refine Page.top_eq_of_above_eq ?_
    rw [Page.above_inFrontOf, Page.above_inFrontOf, take_weave hrange fun j hj =>
      Nat.sub_le_sub_right (hle j hj) 1]
  have hempty : i.target ∉ ([] : List Insertion).map (·.target) := List.not_mem_nil
  rw [refusalOver?_of_new hnew, refusalOver?_of_new hempty,
    show weave setting.returns lines [] = lines from rfl]
  cases outside setting.lineCount i with
  | true => simp
  | false =>
    rcases Nat.eq_zero_or_pos setting.window with hzero | hwindow
    · simp [hzero, namedAbove_zero]
    · rw [namedAbove_eq_or _ (.inFrontOf _ (weave setting.returns lines landed)) _ hwindow, htop,
        namedAbove_eq_or _ (.inFrontOf _ lines) _ hwindow]
      cases namedAbove setting.style setting.window
        (Page.inFrontOf i.insertionLine lines).top i.target.name with
      | true => simp
      | false =>
        rw [Bool.false_or, Bool.false_or]
        generalize namedAcross setting.style setting.window
          (.inFrontOf i.insertionLine lines) _ = alone
        generalize namedAcross setting.style setting.window _ _ = beside
        cases alone <;> cases beside <;> simp [hwindow]

theorem of_mem_decidedFirst {j : Insertion} (h : j ∈ decidedFirst before i after) :
    (j ∈ before ∨ j ∈ after) ∧ i.insertionLine ≤ j.insertionLine := by
  rcases List.mem_append.1 h with h | h
  · obtain ⟨hj, hlt⟩ := List.mem_filter.1 h
    exact ⟨.inl hj, Nat.le_of_lt (of_decide_eq_true hlt)⟩
  · obtain ⟨hj, hle⟩ := List.mem_filter.1 h
    exact ⟨.inr hj, of_decide_eq_true hle⟩

variable (style window text) in
/-- With different targets, an insertion is decided on in a batch as it is alone, exactly if its
line does not exist, or a comment above the line names it, or the comment that goes on over the line
names it both in the text and in the text with the blocks that are put in before, or in neither. -/
theorem agreeOn_alone_iff (h : ((before ++ i :: after).map (·.target)).Nodup) :
    AgreeOn (ofBatch style window text (before ++ i :: after)) (ofBatch style window text [i]) i ↔
      (0 < window → outside (countLines (linesOf text)) i = false →
        namedAbove style window
          (Page.inFrontOf i.insertionLine (linesOf text)).top i.target.name = false →
          namedAcross style window (.inFrontOf i.insertionLine
              (wovenLines style window text (decidedFirst before i after))) i.target.name =
            namedAcross style window
              (.inFrontOf i.insertionLine (linesOf text)) i.target.name) := by
  have hnew : i.target ∉
      (landedIn style window text (decidedFirst before i after)).map (·.target) := by
    intro hmem
    obtain ⟨j, hj, htarget⟩ := List.mem_map.1 hmem
    rw [List.map_append, List.map_cons, List.nodup_append] at h
    rcases (of_mem_decidedFirst (mem_of_mem_landedIn _ _ _ _ hj)).1 with hbefore | hafter
    · exact h.2.2 _ (List.mem_map_of_mem hbefore) _ List.mem_cons_self htarget
    · exact (List.nodup_cons.1 h.2.1).1 (htarget ▸ List.mem_map_of_mem hafter)
  have hle : ∀ j ∈ landedIn style window text (decidedFirst before i after), i.insertionLine ≤
    j.insertionLine :=
    fun j hj => (of_mem_decidedFirst (mem_of_mem_landedIn _ _ _ _ hj)).2
  rw [agreeOn_alone h]
  exact refusalOver?_eq_iff hnew hle fun j hj => landedIn_range _ _ _ _ hj

end Batch

section Shorter

def shorter : Insertion := ⟨⟨"add", .function, 3⟩, 2, "/** add */"⟩

def longer : Insertion := ⟨⟨"add_all", .function, 4⟩, 3, "/** add_all */"⟩

theorem landedIn_longer {text : String}
    (h : refusalOver? (settingFor .block 10 text) (linesOf text) [] longer = none) :
    landedIn .block 10 text (decidedFirst [] shorter [longer]) = [longer] := by
  rw [landedIn, show decidedFirst [] shorter [longer] = [longer] from rfl,
    ordered_of_pairwise (List.pairwise_singleton _ _), landing, landing, h]

def divided : String := "/* c */\nx\nfn add() {}\nfn add_all() {}\n"

theorem shorter_agrees_divided :
    ([shorter, longer].map (·.target)).Nodup ∧
      AgreeOn (ofBatch .block 10 divided [shorter, longer])
        (ofBatch .block 10 divided [shorter]) shorter := by
  have hnodup : (([] ++ [shorter, longer]).map Insertion.target).Nodup := by decide
  have hfree : refusalOver? (settingFor .block 10 divided) (linesOf divided) [] longer = none := by
    rw [settingFor, linesOf, divided, String.toList_ofList]
    decide
  refine ⟨hnodup, ?_⟩
  rw [← List.nil_append [shorter, longer]]
  refine (agreeOn_alone_iff .block 10 divided hnodup).2 fun _ _ _ => ?_
  rw [wovenLines, landedIn_longer hfree, settingFor, linesOf, divided, String.toList_ofList]
  decide

def commented : String := "/* c */\n/* d */\nfn add() {}\nfn add_all() {}\n"

/-- The block of the second function lengthens the comment, which then names the first. -/
theorem shorter_documented_by_longer :
    ([shorter, longer].map (·.target)).Nodup ∧
      ¬ AgreeOn (ofBatch .block 10 commented [shorter, longer])
        (ofBatch .block 10 commented [shorter]) shorter := by
  have hnodup : (([] ++ [shorter, longer]).map Insertion.target).Nodup := by decide
  obtain ⟨hfree, hbeside, halone⟩ :
      refusalOver? (settingFor .block 10 commented) (linesOf commented) [] longer = none ∧
        refusalOver? (settingFor .block 10 commented) (linesOf commented) [longer] shorter =
          some .alreadyDocumented ∧
        refusalOver? (settingFor .block 10 commented) (linesOf commented) [] shorter = none := by
    rw [settingFor, linesOf, commented, String.toList_ofList]
    decide
  refine ⟨hnodup, ?_⟩
  rw [← List.nil_append [shorter, longer], agreeOn_alone hnodup,
    landedIn_longer hfree, hbeside, halone]
  exact Option.some_ne_none _

end Shorter

end DocGap.Plan
