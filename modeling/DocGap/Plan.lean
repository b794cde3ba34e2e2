import DocGap.Synthesis
import Std.Data.HashSet

/-!
# Planning a batch of insertions

A plan says what a text looks like after a batch of blocks has been put in, which of them went in
and where, and why the others did not. The blocks are put in from the bottom up, so that the lines
above keep their numbers. A block is left out if its line does not exist, if its target already got
a block, or if a comment that touches the window above its line names the target.
-/
namespace DocGap

namespace Plan

/-- How many lines beyond the window a comment is followed. -/
def scanLimit : Nat := 200

inductive Reason where
  | alreadyDocumented
  | duplicateInBatch
  | outOfRange (lineCount : Nat)
deriving DecidableEq, Repr

def Reason.message : Reason → String
  | alreadyDocumented => "already documented"
  | duplicateInBatch => "duplicate in batch"
  | outOfRange lineCount => "outside the file (" ++ toString lineCount ++ " lines)"

def Reason.isOutOfRange : Reason → Bool
  | outOfRange _ => true
  | _ => false

/-- A block that went in. `insertionLine` counts in the old text, `startLine` in the new one. -/
structure Applied where
  target : Target
  insertionLine : Nat
  startLine : Nat
  lineCount : Nat
deriving DecidableEq, Repr

structure Skipped where
  target : Target
  insertionLine : Nat
  reason : Reason
deriving DecidableEq, Repr

def byteOrderMark : Char := '\uFEFF'

def splitMark : List Char → List Char × List Char
  | c :: cs => if c = byteOrderMark then ([c], cs) else ([], c :: cs)
  | [] => ([], [])

/-- An empty last piece is not a line. -/
def countLines (lines : List (List Char)) : Nat :=
  if lines.getLast? = some [] then lines.length - 1 else lines.length

def hasReturns (body : List Char) : Bool := Text.contains ['\r', '\n'] body

def blockLines (returns : Bool) (content : String) : List (List Char) :=
  (Text.splitLines content.toList).map fun line =>
    let line := Text.dropEndWhile (· = '\r') line
    if returns then line ++ ['\r'] else line

/-- The lines of a text, divided at the line that is being worked on. The `height` lines above it
are listed from the nearest up, the others from it down. -/
structure Page where
  above : List (List Char)
  height : Nat
  below : List (List Char)
  height_eq : height = above.length

namespace Page

def atBottom (lines : List (List Char)) : Page := ⟨lines.reverse, lines.length, [], by simp⟩

def lines (p : Page) : List (List Char) := p.above.reverse ++ p.below

def up : Nat → Page → Page
  | n + 1, ⟨line :: above, height, below, h⟩ =>
    up n ⟨above, height - 1, line :: below, congrArg (· - 1) h⟩
  | _, p => p

def upTo (line : Nat) (p : Page) : Page := p.up (p.height - (line - 1))

def insert (block : List (List Char)) (p : Page) : Page := { p with below := block ++ p.below }

@[simp] theorem lines_atBottom (ls : List (List Char)) : (atBottom ls).lines = ls := by
  simp [atBottom, lines]

@[simp] theorem lines_up (n : Nat) (p : Page) : (p.up n).lines = p.lines := by
  fun_induction up n p with
  | case1 n line above below ih =>
    rw [ih]
    simp [lines]
  | case2 => rfl

@[simp] theorem lines_upTo (line : Nat) (p : Page) : (p.upTo line).lines = p.lines := lines_up _ _

theorem lines_insert (block : List (List Char)) (p : Page) :
    (p.insert block).lines = p.above.reverse ++ block ++ p.below := by
  simp [insert, lines]

end Page

/-- A comment that touches the window above the division names the element. Comments are followed
beyond the window for `scanLimit` lines. -/
def namedAbove (style : Comment.Style) (window : Nat) (p : Page) (name : String) : Bool :=
  let above := p.above.take (window + scanLimit)
  let stop := above.length
  let start := stop - window
  if start = stop then false
  else
    let region := above.reverse ++ p.below.take scanLimit
    (Comment.runs style region).any fun run =>
      decide (run.start < stop ∧ start < run.stop) &&
        (run.of region).any (Text.contains name.toList)

structure Setting where
  style : Comment.Style
  window : Nat
  returns : Bool
  lineCount : Nat
deriving DecidableEq, Repr

structure Landed where
  target : Target
  insertionLine : Nat
  lineCount : Nat
deriving DecidableEq, Repr

/-- How far a batch has come. `landed` is in the order of the text, and `targets` are those
of its blocks. -/
structure Progress where
  page : Page
  landed : List Landed
  targets : Std.HashSet Target
  skipped : List (Nat × Skipped)

def refusal? (setting : Setting) (p : Progress) (page : Page) (i : Insertion) : Option Reason :=
  if i.insertionLine = 0 ∨ setting.lineCount + 1 < i.insertionLine then
    some (.outOfRange setting.lineCount)
  else if p.targets.contains i.target then some .duplicateInBatch
  else if namedAbove setting.style setting.window page i.target.name then some .alreadyDocumented
  else none

def step (setting : Setting) (place : Nat) (i : Insertion) (p : Progress) : Progress :=
  let page := p.page.upTo i.insertionLine
  match refusal? setting p page i with
  | some reason =>
    { p with
      page := page
      skipped := (place, ⟨i.target, i.insertionLine, reason⟩) :: p.skipped }
  | none =>
    let block := blockLines setting.returns i.content
    { p with
      page := page.insert block
      landed := ⟨i.target, i.insertionLine, block.length⟩ :: p.landed
      targets := p.targets.insert i.target }

def inOrder (batch : List Insertion) : List (Insertion × Nat) :=
  batch.zipIdx.mergeSort fun a b => a.1.insertionLine ≤ b.1.insertionLine

/-- Puts the batch in, starting at the bottom. -/
def run (setting : Setting) (lines : List (List Char)) (batch : List Insertion) : Progress :=
  (inOrder batch).foldr (fun (i, place) p => step setting place i p) ⟨.atBottom lines, [], ∅, []⟩

/-- Where the blocks start, when `shift` lines have been put in above them. -/
def place (shift : Nat) : List Landed → List Applied
  | [] => []
  | l :: rest =>
    ⟨l.target, l.insertionLine, l.insertionLine + shift, l.lineCount⟩ ::
      place (shift + l.lineCount) rest

def inBatchOrder (skipped : List (Nat × Skipped)) : List Skipped :=
  (skipped.mergeSort fun a b => a.1 ≤ b.1).map (·.2)

end Plan

structure Plan where
  content : String
  applied : List Plan.Applied
  skipped : List Plan.Skipped
  lineCount : Nat
deriving DecidableEq, Repr

namespace Plan

/-- The plan for a batch. A leading byte order mark stays in front of everything. -/
def ofBatch (style : Comment.Style) (window : Nat) (text : String)
    (batch : List Insertion) : Plan :=
  let (mark, body) := splitMark text.toList
  let lines := Text.splitLines body
  let setting : Setting := ⟨style, window, hasReturns body, countLines lines⟩
  let done := run setting lines batch
  { content := String.ofList (mark ++ Text.joinLines done.page.lines)
    applied := place 0 done.landed
    skipped := inBatchOrder done.skipped
    lineCount := setting.lineCount }

def outOfRange? (p : Plan) : Option Skipped := p.skipped.find? (·.reason.isOutOfRange)

end Plan

end DocGap
