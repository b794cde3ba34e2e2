import DocGap.Proofs.CommentLines
import DocGap.Proofs.Undisturbed

/-!
# Blocks go in front of lines that exist

Every element stands on a line that is not empty, so that a plan counts this line, whether the text
starts with a byte order mark or ends with a line feed. A block goes no further down than its
element. So a batch for the gaps of a text names no line that does not exist, and no attempt on a
file with that text fails for this reason, whatever the disk does.
-/
namespace DocGap

namespace Plan

theorem lt_countLines {lines : List (List Char)} {n : Nat} {l : List Char}
    (h : lines[n]? = some l) (hne : l ≠ []) :
    n < countLines lines := by
  obtain ⟨hn, -⟩ := List.getElem?_eq_some_iff.1 h
  unfold countLines
  split
  · next hlast =>
    have hother : n ≠ lines.length - 1 := by
      intro heq
      rw [List.getLast?_eq_getElem?, ← heq, h, Option.some.injEq] at hlast
      exact hne hlast
    omega
  · exact hn

theorem exists_getElem?_linesOf {text : String} {n : Nat} {line : List Char} {y : Char}
    (h : (Text.splitLines text.toList)[n]? = some line) (hy : y ∈ line)
    (hmark : y ≠ byteOrderMark) :
    ∃ l, (linesOf text)[n]? = some l ∧ y ∈ l := by
  obtain ⟨first, rest, hlines, hsplit⟩ := exists_linesOf text
  rw [hsplit] at h
  rw [hlines]
  cases n with
  | zero =>
    obtain rfl : (splitMark text.toList).1 ++ first = line := by simpa using h
    refine ⟨first, rfl, (List.mem_append.1 hy).resolve_left fun hmem => ?_⟩
    exact hmark (eq_byteOrderMark_of_mem_splitMark hmem)
  | succ n => exact ⟨line, h, hy⟩

end Plan

theorem Outline.line_le_countLines {path : Path} {language : Language} {text : String} {e : Element}
    (h : e ∈ (Outline.ofSource path language text).documentable) :
    1 ≤ e.line ∧ e.line ≤ Plan.countLines (Plan.linesOf text) := by
  obtain ⟨f, hf, rfl, -⟩ := exists_finding_of_mem_documentable h
  obtain ⟨before, line, hline, -, y, hy, hforeign⟩ := Extraction.onLine_of_mem_findings hf
  have hmark : y ≠ Plan.byteOrderMark :=
    fun heq => hforeign (heq ▸ language.byteOrderMark_mem_foreign)
  obtain ⟨l, hl, hmem⟩ := Plan.exists_getElem?_linesOf hline.getElem?_eq hy hmark
  have hlt := Plan.lt_countLines hl (List.ne_nil_of_mem hmem)
  rw [hline.number]
  omega

theorem insertionLineFor_range {line count : Nat} (h : 1 ≤ line ∧ line ≤ count) :
    1 ≤ insertionLineFor line ∧ insertionLineFor line ≤ count := by
  unfold insertionLineFor
  omega

theorem Text.decode_toUTF8 (text : String) : Text.decode text.toUTF8 = .ok text := by
  have hvalid : String.fromUTF8? text.toUTF8 = some text := by
    unfold String.fromUTF8?
    split
    · rfl
    · next hinvalid => exact absurd text.isValidUTF8 (by simpa using hinvalid)
  rw [Text.decode, hvalid]

def MutationError.failure? : MutationError → Option Mutation.Failure
  | read _ _ | backup _ _ _ => none
  | rolledBack _ cause | restoreFailed _ _ cause _ => some cause

namespace Mutation

variable {σ : Type} {d : Disk σ} {options : Options} {path : Path} {s : σ}

theorem failure?_recover (d : Disk σ) (path backup : Path) (old : ByteArray)
    (cause : Failure) (s : σ) :
    (recover d path backup old cause s).1.failure? = some cause := by
  unfold recover
  split <;> rfl

theorem failure?_commit {backup : Path} {old : ByteArray} {plan : Plan}
    (hrange : plan.outOfRange? = none)
    {e : MutationError} (h : (commit d path backup old plan s).1 = .error e) :
    ∃ cause, e.failure? = some (.commit cause) := by
  simp only [commit, hrange] at h
  split at h
  · cases h
  · split at h
    · cases h
    · next cause t hwrite =>
      obtain rfl := Except.error.inj h
      exact ⟨cause, failure?_recover d path backup old (.commit cause) t⟩

theorem readText_of_read {text : String} {t : σ} (h : d.read path s = (.ok text.toUTF8, t)) :
    readText d path s = (.ok (text.toUTF8, text), t) := by
  simp only [readText, h, Text.decode_toUTF8]

theorem failure?_apply {batch : List Insertion} {text : String} {t : σ}
    (hread : d.read path s = (.ok text.toUTF8, t))
    (hrange : (planFor options path text batch).outOfRange? = none) {e : MutationError}
    (h : (apply d options path batch s).1 = .error e) (line count : Nat) :
    e.failure? ≠ some (.invalidInsertion line count) := by
  simp only [apply, readText_of_read hread] at h
  split at h
  · obtain rfl := Except.error.inj h
    simp [MutationError.failure?]
  · obtain ⟨cause, hcause⟩ := failure?_commit hrange h
    simp [hcause]

end Mutation

namespace Settings

variable (settings : Settings) (payload : Payload) (path : Path)
  (language : Language) (text : String)

theorem find?_outside_batchFor :
    (settings.batchFor payload path language text).find?
      (Plan.outside (Plan.countLines (Plan.linesOf text))) =
      none := by
  rw [List.find?_eq_none]
  intro i hi
  rw [batchFor_eq] at hi
  obtain ⟨e, he, rfl⟩ := List.mem_map.1 hi
  have hrange := insertionLineFor_range (Outline.line_le_countLines (List.mem_filter.1 he).1)
  have hline : (settings.blockFor payload path language e).insertionLine =
    insertionLineFor e.line := rfl
  simp only [Plan.outside, hline, Bool.or_eq_true, decide_eq_true_eq]
  omega

/-- Every block for a gap goes in front of a line that exists, so that none is left out for its
line, and an attempt on a file with that text never goes back because of a line. -/
theorem insertion_lines_exist :
    (∀ e ∈ (Outline.ofSource path language text).documentable, ∀ style window batch,
      1 ≤ insertionLineFor e.line ∧
        insertionLineFor e.line ≤ (Plan.ofBatch style window text batch).lineCount) ∧
    (∀ style window,
      ∀ s ∈ (Plan.ofBatch style window text (settings.batchFor payload path language text)).skipped,
      s.reason.isOutOfRange = false) ∧
    (∀ {σ : Type} (d : Disk σ) (options : Mutation.Options) (file : Path) (s t : σ),
      d.read file s = (.ok text.toUTF8, t) → ∀ e,
        (Mutation.apply d options file (settings.batchFor payload path language text) s).1 =
          .error e →
          ∀ line count, e.failure? ≠ some (.invalidInsertion line count)) ∧
    ∀ (options : Mutation.Options) (file : Path) (m : Memory), options.backupSuffix ≠ "" →
      m.get? file = some text.toUTF8 → ∃ report,
        (Mutation.apply Memory.disk options file
          (settings.batchFor payload path language text) m).1 = .ok report := by
  have hnone : ∀ style window,
      (Plan.ofBatch style window text (settings.batchFor payload path language text)).outOfRange? =
        none := by
    intro style window
    rw [Plan.outOfRange?_ofBatch, find?_outside_batchFor, Option.map_none]
  refine ⟨fun e he style window batch =>
    insertionLineFor_range (Outline.line_le_countLines he), ?_, ?_, ?_⟩
  · intro style window s hs
    simpa using List.find?_eq_none.1 (hnone style window) s hs
  · intro σ d options file s t hread e he line count
    exact Mutation.failure?_apply hread (hnone _ _) he line count
  · intro options file m hsuffix hfile
    have hread : Memory.disk.read file m = (.ok text.toUTF8, m) := by simp only [Memory.disk, hfile]
    obtain ⟨n, hdone, -⟩ := Mutation.apply_memory (Mutation.backupPath_ne hsuffix file)
      (Mutation.readText_of_read hread) (settings.batchFor payload path language text)
    rw [hdone, Mutation.verdict, Mutation.planFor, hnone]
    exact ⟨_, rfl⟩

section Marked

/-- The byte order mark, the carriage returns and the missing last line feed are no
lines of their own. -/
def markedText : String := "\uFEFFfunction f() \x7b\x7d\r\n\r\nfunction g() \x7b\x7d"

def lastFunction : Element := ⟨"g", .function, 3, 22, some "function g()", none, ""⟩

theorem documentable_markedText :
    (Outline.ofSource ⟨"a.js"⟩ .javascript markedText).documentable =
      [⟨"f", .function, 1, 3, some "function f()", none, ""⟩, lastFunction] := by
  have hfinds : Extraction.Finds .javascript markedText.toList
      [⟨"f", .function, 1, 3, some "function f()", none, ""⟩, lastFunction] := by
    rw [markedText, String.toList_ofList]
    decide
  rw [Outline.documentable_of_finds _ hfinds]
  rfl

theorem lastFunction_line_exists :
    lastFunction ∈ (Outline.ofSource ⟨"a.js"⟩ .javascript markedText).documentable ∧
    (1 ≤ insertionLineFor 3 ∧
      insertionLineFor 3 ≤ (Plan.ofBatch .block 10 markedText []).lineCount) ∧
    Mutation.Options.standard.backupSuffix ≠ "" ∧
    ∃ report, (Mutation.apply Memory.disk .standard ⟨"a.js"⟩
      (standard.batchFor .empty ⟨"a.js"⟩ .javascript markedText)
      ⟨[(⟨"a.js"⟩, markedText.toUTF8)]⟩).1 = .ok report := by
  have hmem : lastFunction ∈ (Outline.ofSource ⟨"a.js"⟩ .javascript markedText).documentable := by
    rw [documentable_markedText]
    exact List.mem_cons_of_mem _ List.mem_cons_self
  have hsuffix : Mutation.Options.standard.backupSuffix ≠ "" := by decide
  obtain ⟨hrange, -, -, hreport⟩ :=
    insertion_lines_exist standard .empty ⟨"a.js"⟩ .javascript markedText
  exact ⟨hmem, hrange lastFunction hmem .block 10 [], hsuffix,
    hreport .standard ⟨"a.js"⟩ _ hsuffix rfl⟩

end Marked

end Settings

end DocGap
