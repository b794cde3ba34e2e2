import DocGap.Spot

/-!
# Patterns

A pattern describes a part of a text. `Pattern.ends` lists all places where it may end, best first:
a run prefers to be long, an alternative prefers its left side. `Pattern.search` tries these places
one after the other without listing them. A match takes the first of them, and the matches of a text
are the leftmost one and those behind it.
-/
namespace DocGap

/-- A place in a text: the character before it, its byte offset and what follows. -/
structure Cursor where
  before : Option Char
  offset : Nat
  rest : List Char
deriving DecidableEq, Repr

def Cursor.start (cs : List Char) : Cursor := ⟨none, 0, cs⟩

inductive Pattern where
  | empty
  | one (accept : Char → Bool)
  /-- From `least` to `most` accepted characters, as many as possible. -/
  | run (accept : Char → Bool) (least most : Nat)
  /-- All accepted characters that follow, at least `least` of them. -/
  | stretch (accept : Char → Bool) (least : Nat)
  | seq (p q : Pattern)
  | alt (p q : Pattern)
  /-- A word character on exactly one side. -/
  | wordEdge
  | lineStart
  | group (p : Pattern)

namespace Pattern

structure Reach where
  cursor : Cursor
  group : Option (Cursor × Cursor)

def isWordChar (c : Char) : Bool := c.isAlphanum || c = '_'

def atWordEdge (c : Cursor) : Bool := c.before.any isWordChar != c.rest.head?.any isWordChar

def atLineStart (c : Cursor) : Bool := c.before.all (· = '\n')

/-- The places where a run may end, the furthest first, put before `found`. -/
def runEnds (accept : Char → Bool) (least most : Nat) (before : Option Char) (offset : Nat) :
    List Char → List Cursor → List Cursor
  | [], found => if least = 0 then ⟨before, offset, []⟩ :: found else found
  | c :: cs, found =>
    let found := if least = 0 then ⟨before, offset, c :: cs⟩ :: found else found
    match most with
    | 0 => found
    | most + 1 =>
      if accept c then runEnds accept (least - 1) most (some c) (offset + c.utf8Size) cs found
      else found

def stretchEnd? (accept : Char → Bool) (least : Nat) (before : Option Char) (offset : Nat) :
    List Char → Option Cursor
  | [] => if least = 0 then some ⟨before, offset, []⟩ else none
  | c :: cs =>
    if accept c then stretchEnd? accept (least - 1) (some c) (offset + c.utf8Size) cs
    else if least = 0 then some ⟨before, offset, c :: cs⟩
    else none

def ends : Pattern → Reach → List Reach
  | empty, r => [r]
  | one accept, r =>
    match r.cursor.rest with
    | [] => []
    | c :: cs => if accept c then [⟨⟨some c, r.cursor.offset + c.utf8Size, cs⟩, r.group⟩] else []
  | run accept least most, r =>
    (runEnds accept least most r.cursor.before r.cursor.offset r.cursor.rest []).map (⟨·, r.group⟩)
  | stretch accept least, r =>
    ((stretchEnd? accept least r.cursor.before r.cursor.offset r.cursor.rest).map
    (⟨·, r.group⟩)).toList
  | seq p q, r => (p.ends r).flatMap q.ends
  | alt p q, r => p.ends r ++ q.ends r
  | wordEdge, r => if atWordEdge r.cursor then [r] else []
  | lineStart, r => if atLineStart r.cursor then [r] else []
  | group p, r => (p.ends r).map fun e => ⟨e.cursor, some (r.cursor, e.cursor)⟩

def search {α : Type} : Pattern → (Reach → Option α) → Reach → Option α
  | empty, next, r => next r
  | one accept, next, r =>
    match r.cursor.rest with
    | [] => none
    | c :: cs =>
      if accept c then next ⟨⟨some c, r.cursor.offset + c.utf8Size, cs⟩, r.group⟩ else none
  | run accept least most, next, r =>
    (runEnds accept least most r.cursor.before r.cursor.offset r.cursor.rest []).findSome?
      fun c => next ⟨c, r.group⟩
  | stretch accept least, next, r =>
    (stretchEnd? accept least r.cursor.before r.cursor.offset r.cursor.rest).bind
      fun c => next ⟨c, r.group⟩
  | seq p q, next, r => p.search (q.search next) r
  | alt p q, next, r => (p.search next r).or (q.search next r)
  | wordEdge, next, r => if atWordEdge r.cursor then next r else none
  | lineStart, next, r => if atLineStart r.cursor then next r else none
  | group p, next, r => p.search (fun e => next ⟨e.cursor, some (r.cursor, e.cursor)⟩) r

theorem findSome?_flatMap {α β γ : Type} (f : β → Option γ) (g : α → List β) (l : List α) :
    (l.flatMap g).findSome? f = l.findSome? fun a => (g a).findSome? f := by
  induction l with
  | nil => rfl
  | cons a l ih =>
    rw [List.flatMap_cons, List.findSome?_append, List.findSome?_cons, ih]
    cases (g a).findSome? f <;> rfl

theorem search_eq_findSome? {α : Type} (p : Pattern) (next : Reach → Option α) (r : Reach) :
    p.search next r = (p.ends r).findSome? next := by
  induction p generalizing next r with
  | empty => simp [search, ends]
  | one accept =>
    unfold search ends
    split
    · rfl
    · split <;> simp
  | run accept least most => simp [search, ends, List.findSome?_map, Function.comp_def]
  | stretch accept least =>
    simp only [search, ends]
    cases stretchEnd? accept least r.cursor.before r.cursor.offset r.cursor.rest <;> simp
  | seq p q ihp ihq =>
    have hq : q.search next = fun e => (q.ends e).findSome? next := funext (ihq next)
    rw [search, ihp, hq, ends, findSome?_flatMap]
  | alt p q ihp ihq => rw [search, ihp, ihq, ends, List.findSome?_append]
  | wordEdge =>
    unfold search ends
    split <;> simp
  | lineStart =>
    unfold search ends
    split <;> simp
  | group p ih => simp [search, ends, ih, List.findSome?_map, Function.comp_def]

structure Match where
  line : Line
  start : Cursor
  stop : Cursor
  group : Option (Cursor × Cursor)

def Match.spot (m : Match) : Spot := ⟨m.line, m.start.offset, m.start.rest⟩

def matchAt? (p : Pattern) (line : Line) (start : Cursor) : Option Match :=
  p.search (fun e => some ⟨line, start, e.cursor, e.group⟩) ⟨start, none⟩

theorem matchAt?_eq_head? (p : Pattern) (line : Line) (start : Cursor) :
    p.matchAt? line start =
      (p.ends ⟨start, none⟩).head?.map fun e => ⟨line, start, e.cursor, e.group⟩ := by
  rw [matchAt?, search_eq_findSome?]
  cases p.ends ⟨start, none⟩ <;> rfl

/-- The matches from left to right that start no earlier than `resume`; none starts
inside another. -/
def matchesFrom (p : Pattern) (resume : Nat) (line : Line) (before : Option Char) (offset : Nat) :
    List Char → List Match
  | [] => []
  | c :: cs =>
    let next := offset + c.utf8Size
    if offset < resume then matchesFrom p resume (line.after c next cs) (some c) next cs
    else match p.matchAt? line ⟨before, offset, c :: cs⟩ with
      | none => matchesFrom p resume (line.after c next cs) (some c) next cs
      | some m => m :: matchesFrom p m.stop.offset (line.after c next cs) (some c) next cs

def allMatches (p : Pattern) (cs : List Char) : List Match := p.matchesFrom 0 (.first cs) none 0 cs

def char (c : Char) : Pattern := one (· = c)

def cat (ps : List Pattern) : Pattern := ps.foldr seq empty

def choice : List Pattern → Pattern
  | [] => one fun _ => false
  | [p] => p
  | p :: ps => alt p (choice ps)

def word (text : String) : Pattern := cat (text.toList.map char)

def words (texts : List String) : Pattern := choice (texts.map word)

def opt (p : Pattern) : Pattern := alt p empty

def upTo : Nat → Pattern → Pattern
  | 0, _ => empty
  | n + 1, p => opt (seq p (upTo n p))

def anyOf (text : String) (c : Char) : Bool := text.toList.contains c

def noneOf (text : String) (c : Char) : Bool := !text.toList.contains c

end Pattern

end DocGap
