import DocGap.Request
import DocGap.Proofs.GapBatch

/-!
# Whom an answer reaches

An answer may name its file by the last components of the path, and the first answer that fits is
taken. So even if every answer names its file in full, an answer for a short path is taken for a
longer path that ends with it, when both files have an element of that name on that line and the
short path was asked for first. Nothing else can go wrong with the answers to a request.
-/
namespace DocGap

namespace Payload

def fits (file : Path) (name : String) (line : Nat) (a : Answer) : Bool :=
  (a.name = name && sameFile file a.file) && a.line = some line

theorem fits_iff {file : Path} {name : String} {line : Nat} {a : Answer} :
    fits file name line a = true ↔ sameFile file a.file = true ∧ a.name = name ∧
      a.line = some line := by
  simp only [fits, Bool.and_eq_true, decide_eq_true_eq]
  tauto

theorem sameFile_self (file : Path) : sameFile file file = true := by
  simp [sameFile, Path.same]

theorem find?_eq_of_fits {p : Payload} {file : Path} {name : String} {line : Nat} {a : Answer}
    (h : p.answers.find? (fits file name line) = some a) :
    p.find? file name line = some a.text := by
  have hfound : (p.candidates file name).find? (·.line = some line) = some a := by
    rw [candidates, List.find?_filter, ← h]
    congr 1
    funext b
    simp [fits]
  rw [find?, hfound]
  rfl

end Payload

namespace Request

open Payload

def blank (a : Answer) : Answer := { a with text := ⟨"", ""⟩ }

/-- The payload is what the request asks for, with some texts filled in. -/
def Fills (files : List FileGaps) (payload : Payload) : Prop :=
  payload.answers.map blank = (template files).answers

def AnswerFor (file : FileGaps) (g : Gap) (a : Answer) : Prop :=
  a.file = file.outline.path ∧ a.name = g.element.name ∧ a.line = some g.element.line

/-- No answer for the earlier file fits a gap of the later one. -/
def Apart (earlier later : FileGaps) : Prop :=
  sameFile later.outline.path earlier.outline.path = true → ∀ g ∈ earlier.gaps, ∀ h ∈ later.gaps,
    ¬ (g.element.name = h.element.name ∧ g.element.line = h.element.line)

section Answers

variable {file : FileGaps} {files before after : List FileGaps} {answers : List Answer}
  {payload : Payload}

theorem answerFor_of_blank {g : Gap} {a : Answer} (h : blank a = blankAnswer file.outline.path g) :
    AnswerFor file g a := by
  simp only [blank, blankAnswer, Answer.mk.injEq] at h
  exact ⟨h.1, h.2.1, h.2.2.1⟩

theorem AnswerFor.fits {g : Gap} {a : Answer} (h : AnswerFor file g a) :
    fits file.outline.path g.element.name g.element.line a = true :=
  fits_iff.2 ⟨h.1 ▸ sameFile_self _, h.2⟩

theorem exists_gap_of_mem (h : answers.map blank = (template files).answers) {a : Answer}
    (ha : a ∈ answers) :
    ∃ file ∈ files, ∃ g ∈ file.gaps, AnswerFor file g a := by
  have hmem : blank a ∈ (template files).answers := h ▸ List.mem_map_of_mem ha
  obtain ⟨file, hfile, hmem⟩ := List.mem_flatMap.1 hmem
  obtain ⟨g, hg, hblank⟩ := List.mem_map.1 hmem
  exact ⟨file, hfile, g, hg, answerFor_of_blank hblank.symm⟩

theorem exists_answer_of_mem (h : answers.map blank = (template files).answers)
    (hfile : file ∈ files) {g : Gap}
    (hg : g ∈ file.gaps) : ∃ a ∈ answers, AnswerFor file g a := by
  have hmem : blankAnswer file.outline.path g ∈ answers.map blank := by
    rw [h]
    exact List.mem_flatMap.2 ⟨file, hfile, List.mem_map_of_mem hg⟩
  obtain ⟨a, ha, hblank⟩ := List.mem_map.1 hmem
  exact ⟨a, ha, answerFor_of_blank hblank⟩

theorem Fills.split (h : Fills (before ++ file :: after) payload) :
    ∃ earlier own later, payload.answers = earlier ++ (own ++ later) ∧
      earlier.map blank = (template before).answers ∧
        own.map blank = (template [file]).answers := by
  have hsplit : (template (before ++ file :: after)).answers =
      (template before).answers ++ ((template [file]).answers ++ (template after).answers) := by
    simp [template]
  obtain ⟨earlier, rest, hanswers, hearlier, hrest⟩ := List.map_eq_append_iff.1 (h.trans hsplit)
  obtain ⟨own, later, rfl, hown, -⟩ := List.map_eq_append_iff.1 hrest
  exact ⟨earlier, own, later, hanswers, hearlier, hown⟩

theorem exists_taken (h : Fills files payload) (hfile : file ∈ files) {g : Gap}
    (hg : g ∈ file.gaps) :
    ∃ a, payload.answers.find? (fits file.outline.path g.element.name g.element.line) = some a := by
  obtain ⟨a, ha, hfor⟩ := exists_answer_of_mem h hfile hg
  exact Option.isSome_iff_exists.1 (List.find?_isSome.2 ⟨a, ha, hfor.fits⟩)

theorem answerFor_of_apart (h : Fills (before ++ file :: after) payload)
    (hapart : ∀ earlier ∈ before, Apart earlier file) {g : Gap} (hg : g ∈ file.gaps) :
    ∃ a ∈ payload.answers, AnswerFor file g a ∧
      payload.find? file.outline.path g.element.name g.element.line = some a.text := by
  obtain ⟨earlier, own, later, hanswers, hearlier, hown⟩ := h.split
  have hnone : earlier.find? (fits file.outline.path g.element.name g.element.line) = none := by
    refine List.find?_eq_none.2 fun a ha hfits => ?_
    obtain ⟨other, hother, k, hk, hfor⟩ := exists_gap_of_mem hearlier ha
    obtain ⟨hsame, hname, hline⟩ := fits_iff.1 hfits
    refine hapart other hother (hfor.1 ▸ hsame) k hk g hg ⟨hfor.2.1.symm.trans hname, ?_⟩
    exact Option.some.inj (hfor.2.2.symm.trans hline)
  obtain ⟨a, ha, hfor⟩ := exists_answer_of_mem hown List.mem_cons_self hg
  obtain ⟨b, hb⟩ := Option.isSome_iff_exists.1 (List.find?_isSome.2 ⟨a, ha, hfor.fits⟩)
  have htaken : payload.answers.find?
      (fits file.outline.path g.element.name g.element.line) = some b := by
    rw [hanswers, List.find?_append, hnone, List.find?_append, hb]
    rfl
  -- the answer that is taken is one for the file itself, though perhaps for another gap of the same
  -- name and line
  obtain ⟨self, hself, k, hk, hown⟩ := exists_gap_of_mem hown (List.mem_of_find?_eq_some hb)
  rw [List.mem_singleton.1 hself] at hown
  exact ⟨b, List.mem_of_find?_eq_some htaken, ⟨hown.1, (fits_iff.1 (List.find?_some hb)).2⟩,
    find?_eq_of_fits htaken⟩

end Answers

/-- The payload that says for which file each text was written. -/
def signed (files : List FileGaps) : Payload :=
  ⟨(template files).answers.map fun a => { a with text := ⟨a.file.spelling, a.file.spelling⟩ }⟩

theorem fills_signed (files : List FileGaps) : Fills files (signed files) := by
  simp only [Fills, signed, template, List.map_flatMap, List.map_map]
  rfl

theorem text_of_mem_signed {files : List FileGaps} {a : Answer} (h : a ∈ (signed files).answers) :
    a.text.technical = a.file.spelling := by
  obtain ⟨b, -, rfl⟩ := List.mem_map.1 h
  rfl

theorem apart_of_signed {earlier file : FileGaps} {before after : List FileGaps}
    (hearlier : earlier ∈ before)
    (hnew : file.outline.path ∉ before.map (·.outline.path))
    (h : ∀ g ∈ file.gaps, ∃ a ∈ (signed (before ++ file :: after)).answers, AnswerFor file g a ∧
      (signed (before ++ file :: after)).find? file.outline.path g.element.name g.element.line =
        some a.text) :
    Apart earlier file := by
  intro hsame g hg k hk ⟨hname, hline⟩
  obtain ⟨a, ha, hfor, hfound⟩ := h k hk
  obtain ⟨first, own, later, hanswers, hfirst, -⟩ := (fills_signed (before ++ file :: after)).split
  obtain ⟨b, hb, hbfor⟩ := exists_answer_of_mem hfirst hearlier hg
  have hfits : fits file.outline.path k.element.name k.element.line b = true :=
    fits_iff.2 ⟨hbfor.1 ▸ hsame, hbfor.2.1.trans hname, hbfor.2.2.trans (congrArg some hline)⟩
  obtain ⟨c, hc⟩ := Option.isSome_iff_exists.1 (List.find?_isSome.2 ⟨b, hb, hfits⟩)
  have htaken : (signed (before ++ file :: after)).answers.find?
      (fits file.outline.path k.element.name k.element.line) = some c := by
    rw [hanswers, List.find?_append, hc]
    rfl
  -- the text that is found was written for a file before, and says so
  obtain ⟨other, hother, _, _, hcfor⟩ := exists_gap_of_mem hfirst (List.mem_of_find?_eq_some hc)
  have htext : c.text = a.text := Option.some.inj ((find?_eq_of_fits htaken).symm.trans hfound)
  have hspelling : c.file.spelling = a.file.spelling := by
    rw [← text_of_mem_signed (List.mem_of_find?_eq_some htaken), ← text_of_mem_signed ha, htext]
  refine hnew (List.mem_map.2 ⟨other, hother, ?_⟩)
  rw [← hcfor.1, ← hfor.1, Path.mk.injEq]
  exact hspelling

/-- Filling in a request addresses every answer to its element exactly if no file is asked for
before one whose path ends with its own and that has an element of the same name on the same line.
In any case, the text that an element gets was written for an element of that name on that line. -/
theorem answers_reach_iff (files : List FileGaps) (hpaths : (files.map (·.outline.path)).Nodup) :
    ((∀ payload, Fills files payload → ∀ file ∈ files, ∀ g ∈ file.gaps, ∃ a ∈ payload.answers,
        AnswerFor file g a ∧
          payload.find? file.outline.path g.element.name g.element.line = some a.text) ↔
      files.Pairwise Apart) ∧
    ∀ payload, Fills files payload → ∀ file ∈ files, ∀ g ∈ file.gaps, ∃ a ∈ payload.answers,
      (sameFile file.outline.path a.file = true ∧ a.name = g.element.name ∧
        a.line = some g.element.line) ∧
        payload.find? file.outline.path g.element.name g.element.line = some a.text := by
  refine ⟨⟨fun h => ?_, fun hapart payload hfills file hfile g hg => ?_⟩,
    fun payload hfills file hfile g hg => ?_⟩
  · refine List.pairwise_iff_getElem.2 fun i j hi hj hij => ?_
    obtain ⟨before, file, after, hsplit, hearlier, hlater⟩ : ∃ before file after,
        files = before ++ file :: after ∧ files[i] ∈ before ∧ files[j] = file := by
      refine ⟨files.take j, files[j], files.drop (j + 1), ?_, ?_, rfl⟩
      · rw [List.getElem_cons_drop, List.take_append_drop]
      · exact List.mem_take_iff_getElem.2 ⟨i, by omega, rfl⟩
    rw [hlater]
    generalize files[i] = earlier at hearlier
    subst hsplit
    rw [List.map_append, List.map_cons] at hpaths
    refine apart_of_signed hearlier ?_ fun g hg => h _ (fills_signed _) file (by simp) g hg
    exact fun hmem => (List.nodup_append.1 hpaths).2.2 _ hmem _ List.mem_cons_self rfl
  · obtain ⟨before, after, rfl⟩ := List.append_of_mem hfile
    exact answerFor_of_apart hfills
      (fun earlier hearlier =>
      (List.pairwise_append.1 hapart).2.2 earlier hearlier file List.mem_cons_self) hg
  · obtain ⟨a, ha⟩ := exists_taken hfills hfile hg
    exact ⟨a, List.mem_of_find?_eq_some ha, fits_iff.1 (List.find?_some ha), find?_eq_of_fits ha⟩

section Nested

def fileAt (path : Path) : FileGaps := .ofOutline 10 (.ofSource path .python "def g(): pass\n")

def soleGap : Gap := ⟨⟨"g", .function, 1, 0, some "def g()", none, ""⟩, true, true⟩

theorem fileAt_eq (path : Path) : (fileAt path).outline.path = path ∧
    (fileAt path).gaps = [soleGap] := by
  refine ⟨(Outline.text_ofSource _ _ _).2.2, ?_⟩
  have hfinds : Extraction.Finds .python "def g(): pass\n".toList [soleGap.element] := by
    rw [String.toList_ofList]
    decide +kernel
  have hgap : Gap.ofElement? .hash 10
      (Text.splitLines "def g(): pass\n".toList).toArray soleGap.element =
      some soleGap := by
    rw [String.toList_ofList]
    decide +kernel
  obtain ⟨htext, hlanguage, -⟩ := Outline.text_ofSource path .python "def g(): pass\n"
  rw [fileAt, FileGaps.ofOutline, htext, hlanguage, Outline.documentable_of_finds _ hfinds]
  exact congrArg (·.toList) hgap

def soleAnswer (path : Path) (text : String) : Answer := ⟨path, "g", some 1, ⟨text, text⟩⟩

theorem fills_soleAnswers (first second : Path) (text other : String) :
    Fills [fileAt first, fileAt second] ⟨[soleAnswer first text, soleAnswer second other]⟩ := by
  obtain ⟨hfirst, hfirstGaps⟩ := fileAt_eq first
  obtain ⟨hsecond, hsecondGaps⟩ := fileAt_eq second
  simp only [Fills, template, List.flatMap_cons, List.flatMap_nil, hfirst, hfirstGaps,
    hsecond, hsecondGaps]
  rfl

theorem sameFile_nested :
    sameFile ⟨"f.py"⟩ ⟨"a/f.py"⟩ = false ∧ sameFile ⟨"a/f.py"⟩ ⟨"f.py"⟩ = true := by
  decide +kernel

theorem paths_nested : ([fileAt ⟨"a/f.py"⟩, fileAt ⟨"f.py"⟩].map (·.outline.path)).Nodup := by
  rw [List.map_cons, List.map_singleton, (fileAt_eq _).1, (fileAt_eq _).1]
  decide

theorem inner_first_reached :
    let files := [fileAt ⟨"a/f.py"⟩, fileAt ⟨"f.py"⟩]
    let payload : Payload := ⟨[soleAnswer ⟨"a/f.py"⟩ "inner", soleAnswer ⟨"f.py"⟩ "outer"]⟩
    (files.map (·.outline.path)).Nodup ∧ Fills files payload ∧
      ∀ file ∈ files, ∀ g ∈ file.gaps, ∃ a ∈ payload.answers, AnswerFor file g a ∧
        payload.find? file.outline.path g.element.name g.element.line = some a.text := by
  intro files payload
  have hfills : Fills files payload := fills_soleAnswers _ _ _ _
  have hapart : files.Pairwise Apart := by
    refine List.pairwise_pair.2 fun hsame => ?_
    rw [(fileAt_eq _).1, (fileAt_eq _).1, sameFile_nested.1] at hsame
    cases hsame
  exact ⟨paths_nested, hfills, (answers_reach_iff files paths_nested).1.2 hapart payload hfills⟩

/-- The function of the longer path gets the text for the shorter one if that is asked for first. -/
theorem inner_gets_outer :
    let files := [fileAt ⟨"f.py"⟩, fileAt ⟨"a/f.py"⟩]
    let payload : Payload := ⟨[soleAnswer ⟨"f.py"⟩ "outer", soleAnswer ⟨"a/f.py"⟩ "inner"]⟩
    (files.map (·.outline.path)).Nodup ∧ Fills files payload ∧
      payload.find? ⟨"a/f.py"⟩ "g" 1 = some ⟨"outer", "outer"⟩ := by
  refine ⟨(List.Perm.swap _ _ _).nodup_iff.1 paths_nested, fills_soleAnswers _ _ _ _, ?_⟩
  have hfits : fits ⟨"a/f.py"⟩ "g" 1 (soleAnswer ⟨"f.py"⟩ "outer") = true :=
    fits_iff.2 ⟨sameFile_nested.2, rfl, rfl⟩
  exact find?_eq_of_fits (List.find?_cons_of_pos hfits)

end Nested

end Request

end DocGap
