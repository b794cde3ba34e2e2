import DocGap.Proofs.Leads

/-!
# Declarations on one line

A pattern that reads no line feed finds on a line what it finds in the line alone: nothing around
the line counts. If it matches only at the start of a line, then its matches in a text are those in
the lines, each taken as a text of its own. The functions and classes of Python, Ruby, Go and Rust
are found by such patterns.
-/
namespace DocGap

namespace Pattern

def withinLine : Pattern → Bool
  | empty => true
  | one accept => !accept '\n'
  | run accept _ _ => !accept '\n'
  | stretch accept _ => !accept '\n'
  | seq p q => p.withinLine && q.withinLine
  | alt p q => p.withinLine && q.withinLine
  | wordEdge => true
  | lineStart => true
  | group p => p.withinLine

def startsLine : Pattern → Bool
  | lineStart => true
  | seq p _ => p.startsLine
  | _ => false

/-- What stands around a line: the line feed before it, how many bytes come first, and the text from
the line feed behind it on. -/
structure Frame where
  before : Option Char
  offset : Nat
  tail : List Char
  before_feed : ∀ c ∈ before, c = '\n'
  tail_feed : ∀ c ∈ tail.head?, c = '\n'

namespace Frame

def cursor (f : Frame) (c : Cursor) : Cursor :=
  ⟨c.before.or f.before, f.offset + c.offset, c.rest ++ f.tail⟩

def reach (f : Frame) (r : Reach) : Reach :=
  ⟨f.cursor r.cursor, r.group.map fun g => (f.cursor g.1, f.cursor g.2)⟩

variable (f : Frame)

theorem tail_cases : f.tail = [] ∨ ∃ rest, f.tail = '\n' :: rest := by
  have hfeed := f.tail_feed
  cases htail : f.tail with
  | nil => exact .inl rfl
  | cons c rest =>
    rw [htail] at hfeed
    exact .inr ⟨rest, by rw [hfeed c rfl]⟩

theorem atLineStart_cursor (c : Cursor) : atLineStart (f.cursor c) = atLineStart c := by
  cases hbefore : c.before with
  | some x => simp [atLineStart, cursor, hbefore]
  | none =>
    have hfeed := f.before_feed
    cases hf : f.before <;> simp_all [atLineStart, cursor]

theorem atWordEdge_cursor (c : Cursor) : atWordEdge (f.cursor c) = atWordEdge c := by
  have hword : isWordChar '\n' = false := by decide
  have hbefore : (c.before.or f.before).any isWordChar = c.before.any isWordChar := by
    have hfeed := f.before_feed
    cases hc : c.before <;> cases hf : f.before <;> simp_all
  have hrest : (c.rest ++ f.tail).head?.any isWordChar = c.rest.head?.any isWordChar := by
    rcases f.tail_cases with htail | ⟨rest, htail⟩ <;> cases hc : c.rest <;> simp [htail, hword]
  rw [atWordEdge, atWordEdge, cursor, hbefore, hrest]

variable {accept : Char → Bool} (haccept : accept '\n' = false)
include haccept

theorem runEnds_cursor (least most : Nat) (before : Option Char) (offset : Nat) (cs : List Char)
    (found : List Cursor) :
    runEnds accept least most (before.or f.before) (f.offset + offset) (cs ++ f.tail)
      (found.map f.cursor) =
      (runEnds accept least most before offset cs found).map f.cursor := by
  have hhere : ∀ (least : Nat) (c : Cursor) (found : List Cursor),
      (if least = 0 then f.cursor c :: found.map f.cursor else found.map f.cursor) =
        (if least = 0 then c :: found else found).map f.cursor := by
    intro least c found
    split <;> rfl
  induction cs generalizing least most before offset found with
  | nil =>
    have hend := hhere least ⟨before, offset, []⟩ found
    rw [List.nil_append]
    rcases f.tail_cases with htail | ⟨rest, htail⟩
    · rw [htail, runEnds, runEnds, ← hend, cursor, htail, List.nil_append]
    · have hstop : runEnds accept least most (before.or f.before) (f.offset + offset)
          ('\n' :: rest) (found.map f.cursor) =
            (if least = 0 then ⟨before.or f.before, f.offset + offset, '\n' :: rest⟩ ::
              found.map f.cursor else found.map f.cursor) := by
        cases most with
        | zero => rfl
        | succ most => simp only [runEnds, haccept, Bool.false_eq_true, if_false]
      rw [htail, hstop, runEnds, ← hend, cursor, htail, List.nil_append]
  | cons c cs ih =>
    have hend := hhere least ⟨before, offset, c :: cs⟩ found
    rw [cursor, List.cons_append] at hend
    rw [List.cons_append]
    cases most with
    | zero => simp only [runEnds, hend]
    | succ most =>
      simp only [runEnds]
      rw [hend]
      split
      · have hnext := ih (least - 1) most (some c) (offset + c.utf8Size)
          (if least = 0 then ⟨before, offset, c :: cs⟩ :: found else found)
        rwa [Option.some_or, ← Nat.add_assoc] at hnext
      · rfl

theorem stretchEnd?_cursor (least : Nat) (before : Option Char) (offset : Nat) (cs : List Char) :
    stretchEnd? accept least (before.or f.before) (f.offset + offset) (cs ++ f.tail) =
      (stretchEnd? accept least before offset cs).map f.cursor := by
  induction cs generalizing least before offset with
  | nil =>
    rw [List.nil_append]
    rcases f.tail_cases with htail | ⟨rest, htail⟩
    · cases least <;> simp [stretchEnd?, cursor, htail]
    · cases least <;> simp [stretchEnd?, cursor, htail, haccept]
  | cons c cs ih =>
    have hnext := ih (least - 1) (some c) (offset + c.utf8Size)
    rw [Option.some_or, ← Nat.add_assoc] at hnext
    rw [List.cons_append, stretchEnd?, stretchEnd?]
    split
    · exact hnext
    · split <;> rfl

omit haccept in
theorem ends_reach {p : Pattern} (h : p.withinLine = true) (r : Reach) :
    p.ends (f.reach r) = (p.ends r).map f.reach := by
  induction p generalizing r with
  | empty => rfl
  | one accept =>
    have haccept : accept '\n' = false := by simpa [withinLine] using h
    obtain ⟨⟨before, offset, rest⟩, g⟩ := r
    cases rest with
    | nil =>
      rcases f.tail_cases with htail | ⟨tail, htail⟩
      · simp [ends, reach, cursor, htail]
      · simp [ends, reach, cursor, htail, haccept]
    | cons c cs =>
      simp only [ends, reach, cursor, List.cons_append]
      split
      · simp [reach, cursor, Nat.add_assoc]
      · rfl
  | run accept least most =>
    have haccept : accept '\n' = false := by simpa [withinLine] using h
    have hruns := f.runEnds_cursor haccept least most r.cursor.before
      r.cursor.offset r.cursor.rest []
    rw [List.map_nil] at hruns
    simp only [ends, reach, cursor]
    rw [hruns, List.map_map, List.map_map]
    rfl
  | stretch accept least =>
    have haccept : accept '\n' = false := by simpa [withinLine] using h
    simp only [ends, reach, cursor]
    rw [f.stretchEnd?_cursor haccept]
    cases stretchEnd? accept least r.cursor.before r.cursor.offset r.cursor.rest <;> rfl
  | seq p q ihp ihq =>
    obtain ⟨hp, hq⟩ := Bool.and_eq_true_iff.1 h
    rw [ends, ends, ihp hp, List.flatMap_map, List.map_flatMap]
    simp only [ihq hq]
  | alt p q ihp ihq =>
    obtain ⟨hp, hq⟩ := Bool.and_eq_true_iff.1 h
    rw [ends, ends, ihp hp, ihq hq, List.map_append]
  | wordEdge =>
    have hedge : atWordEdge (f.reach r).cursor = atWordEdge r.cursor := f.atWordEdge_cursor r.cursor
    rw [ends, ends, hedge]
    split <;> rfl
  | lineStart =>
    have hstart : atLineStart (f.reach r).cursor = atLineStart r.cursor :=
      f.atLineStart_cursor r.cursor
    rw [ends, ends, hstart]
    split <;> rfl
  | group p ih =>
    rw [ends, ends, ih h, List.map_map, List.map_map]
    rfl

end Frame

/-- The pattern finds something at the start of a line only, and on that line. -/
def oneLine (p : Pattern) : Bool := p.withinLine && p.startsLine && !p.gapable []

theorem oneLine_iff {p : Pattern} :
    p.oneLine = true ↔ p.withinLine = true ∧ p.startsLine = true ∧ p.gapable [] = false := by
  simp [oneLine, and_assoc]

theorem ends_of_startsLine {p : Pattern} (h : p.startsLine = true) {r : Reach}
    (hr : atLineStart r.cursor = false) : p.ends r = [] := by
  induction p generalizing r with
  | lineStart => rw [ends, hr, if_neg (by decide)]
  | seq p q ihp ihq => rw [ends, ihp h hr, List.flatMap_nil]
  | _ => cases h

theorem matchAt?_of_startsLine {p : Pattern} (h : p.startsLine = true) (line : Line)
    {c : Char} (hc : c ≠ '\n')
    (offset : Nat) (cs : List Char) : p.matchAt? line ⟨some c, offset, cs⟩ = none := by
  rw [matchAt?_eq_head?, ends_of_startsLine h (by simpa [atLineStart] using hc)]
  rfl

theorem ends_nil_of_not_gapable {p : Pattern} (h : p.gapable [] = false)
    (before : Option Char) (offset : Nat)
    (g : Option (Cursor × Cursor)) : p.ends ⟨⟨before, offset, []⟩, g⟩ = [] := by
  refine List.eq_nil_iff_forall_not_mem.2 fun e he => ?_
  obtain ⟨part, hpart, hreads⟩ := accepts_of_mem_ends he
  have hnil : part = [] := (List.append_eq_nil_iff.1 hreads.rest_eq.symm).1
  have hled : p.LedBy [] part := ledBy_of_accepts hpart
  rw [hnil] at hled
  exact absurd hled (by simp [LedBy, h])

def Match.caught (m : Match) : Option (List Char) :=
  m.group.map fun g => Text.takeBytes (g.2.offset - g.1.offset) g.1.rest

/-- The line of a match, how far from the start of the line it is, and what it has caught. -/
def Match.shows (m : Match) : Nat × Nat × Option (List Char) :=
  (m.line.number, m.spot.column, m.caught)

namespace Frame

variable (f : Frame) {p : Pattern}

def found (line : Line) (m : Match) : Match :=
  ⟨line, f.cursor m.start, f.cursor m.stop, m.group.map fun g => (f.cursor g.1, f.cursor g.2)⟩

theorem matchAt?_cursor (h : p.withinLine = true) (line own : Line) (c : Cursor) :
    p.matchAt? line (f.cursor c) = (p.matchAt? own c).map (f.found line) := by
  have hends : p.ends ⟨f.cursor c, none⟩ = (p.ends ⟨c, none⟩).map f.reach :=
    f.ends_reach h ⟨c, none⟩
  rw [matchAt?_eq_head?, matchAt?_eq_head?, hends, List.head?_map, Option.map_map, Option.map_map]
  rfl

theorem caught_found {line : Line} {m : Match} (h : m.Fits p) :
    (f.found line m).caught = m.caught := by
  cases hgroup : m.group with
  | none => simp [Match.caught, found, hgroup]
  | some g =>
    obtain ⟨first, last⟩ := g
    obtain ⟨-, v, -, hv⟩ := h.remembers first last hgroup
    have hwhole : (f.cursor first).Reads v (f.cursor last) := by
      refine ⟨?_, ?_⟩
      · simp only [cursor, hv.rest_eq, List.append_assoc]
      · simp only [cursor, hv.offset_eq, Nat.add_assoc]
    simp only [Match.caught, found, hgroup, Option.map_some]
    rw [hv.takeBytes_eq, hwhole.takeBytes_eq]

def later (p : Pattern) (number : Nat) (line : List Char) : List Match :=
  match f.tail with
  | [] => []
  | c :: rest =>
    p.matchesFrom 0 ⟨number + 1, f.offset + Text.byteLength line + 1, rest⟩ (some c)
      (f.offset + Text.byteLength line + 1) rest

end Frame

theorem matchesFrom_of_le (p : Pattern) {resume offset : Nat} (h : resume ≤ offset) (line : Line)
    (before : Option Char) (cs : List Char) :
    p.matchesFrom resume line before offset cs = p.matchesFrom 0 line before offset cs := by
  induction cs generalizing line before offset with
  | nil => rfl
  | cons c cs ih =>
    have hnext : resume ≤ offset + c.utf8Size := Nat.le_add_right_of_le h
    rw [matchesFrom, matchesFrom, if_neg (by omega), if_neg (by omega), ih hnext]

theorem matchesFrom_of_startsLine {p : Pattern} (h : p.startsLine = true) (resume : Nat)
    (line : Line) {c : Char}
    (hc : c ≠ '\n') (offset : Nat) {cs : List Char} (hcs : '\n' ∉ cs) :
    p.matchesFrom resume line (some c) offset cs = [] ∧ ∀ rest,
      p.matchesFrom resume line (some c) offset (cs ++ '\n' :: rest) =
        p.matchesFrom resume ⟨line.number + 1, offset + Text.byteLength cs + 1, rest⟩ (some '\n')
          (offset + Text.byteLength cs + 1) rest := by
  have hstep : ∀ (x : Char) (offset : Nat) (more : List Char), ∀ {c : Char}, c ≠ '\n' →
      p.matchesFrom resume line (some c) offset (x :: more) =
        p.matchesFrom resume (line.after x (offset + x.utf8Size) more) (some x)
        (offset + x.utf8Size) more := by
    intro x offset more c hc
    rw [matchesFrom, matchAt?_of_startsLine h line hc]
    split <;> rfl
  induction cs generalizing c offset with
  | nil => exact ⟨rfl, fun rest => hstep '\n' offset rest hc⟩
  | cons x cs ih =>
    obtain ⟨hx, hcs⟩ : x ≠ '\n' ∧ '\n' ∉ cs := by simpa [eq_comm] using hcs
    have hafter : ∀ more, line.after x (offset + x.utf8Size) more = line := fun more => if_neg hx
    obtain ⟨hnil, hrest⟩ := ih hx (offset + x.utf8Size) hcs
    refine ⟨?_, fun rest => ?_⟩
    · rw [hstep x offset cs hc, hafter, hnil]
    · rw [List.cons_append, hstep x offset _ hc, hafter, hrest, Text.byteLength_cons]
      simp only [Nat.add_assoc]

theorem stop_le_of_matchAt? {p : Pattern} {own : Line} {line : List Char} {m : Match}
    (hm : p.matchAt? own ⟨none, 0, line⟩ = some m) : m.stop.offset ≤ Text.byteLength line := by
  obtain ⟨-, hstart, hfits⟩ := fits_of_matchAt? hm
  obtain ⟨part, -, hreads⟩ := hfits.reads
  rw [hstart] at hreads
  have hoffset := hreads.offset_eq
  have hrest := congrArg Text.byteLength hreads.rest_eq
  rw [Text.byteLength_append] at hrest
  dsimp only at hoffset hrest
  omega

variable {p : Pattern} (h : p.oneLine = true)
include h

theorem matchAt?_nil (line : Line) (before : Option Char) (offset : Nat) :
    p.matchAt? line ⟨before, offset, []⟩ = none := by
  rw [matchAt?_eq_head?, ends_nil_of_not_gapable (oneLine_iff.1 h).2.2]
  rfl

/-- Nothing more is found on a line once its first character has been passed. -/
theorem Frame.matchesFrom_behind (f : Frame) {c : Char} {cs : List Char} (hline : '\n' ∉ c :: cs)
    (number : Nat) {resume : Nat} (hresume : resume ≤ f.offset + Text.byteLength (c :: cs)) :
    p.matchesFrom resume ⟨number, f.offset, c :: (cs ++ f.tail)⟩ (some c)
      (f.offset + c.utf8Size) (cs ++ f.tail) = f.later p number (c :: cs) := by
  obtain ⟨hc, hcs⟩ : c ≠ '\n' ∧ '\n' ∉ cs := by simpa [eq_comm] using hline
  obtain ⟨hnil, hrest⟩ := matchesFrom_of_startsLine (oneLine_iff.1 h).2.1 resume
    ⟨number, f.offset, c :: (cs ++ f.tail)⟩ hc (f.offset + c.utf8Size) hcs
  rw [Text.byteLength_cons] at hresume
  unfold later
  rcases f.tail_cases with htail | ⟨rest, htail⟩
  · rw [htail, List.append_nil] at hnil ⊢
    exact hnil
  · rw [htail] at hrest ⊢
    rw [hrest, matchesFrom_of_le p (by omega), Text.byteLength_cons]
    simp only [Nat.add_assoc]

theorem Frame.matchesFrom_line (f : Frame) {line : List Char} (hline : '\n' ∉ line) (number : Nat) :
    p.matchesFrom 0 ⟨number, f.offset, line ++ f.tail⟩ f.before f.offset (line ++ f.tail) =
      (p.matchAt? ⟨number, f.offset, line ++ f.tail⟩ (f.cursor ⟨none, 0, line⟩)).toList ++
        f.later p number line := by
  have hhere : ∀ own : Line, p.matchAt? own ⟨f.before, f.offset, line ++ f.tail⟩ =
      (p.matchAt? (.first line) ⟨none, 0, line⟩).map (f.found own) := fun own =>
    f.matchAt?_cursor (oneLine_iff.1 h).1 own _ ⟨none, 0, line⟩
  rw [show f.cursor ⟨none, 0, line⟩ = ⟨f.before, f.offset, line ++ f.tail⟩ from rfl, hhere]
  cases line with
  | nil =>
    rw [matchAt?_nil h] at hhere ⊢
    rw [List.nil_append] at hhere ⊢
    unfold later
    rcases f.tail_cases with htail | ⟨rest, htail⟩
    · rw [htail]
      rfl
    · rw [htail] at hhere ⊢
      rw [matchesFrom, if_neg (Nat.not_lt_zero _), hhere]
      rfl
  | cons c cs =>
    have hc : c ≠ '\n' := fun heq => hline (heq ▸ List.mem_cons_self)
    rw [List.cons_append] at hhere ⊢
    have hafter : Line.after ⟨number, f.offset, c :: (cs ++ f.tail)⟩ c (f.offset + c.utf8Size)
        (cs ++ f.tail) = ⟨number, f.offset, c :: (cs ++ f.tail)⟩ := if_neg hc
    rw [matchesFrom, if_neg (Nat.not_lt_zero _), hhere]
    cases hown : p.matchAt? (.first (c :: cs)) ⟨none, 0, c :: cs⟩ with
    | none =>
      dsimp only [Option.map_none]
      rw [hafter, f.matchesFrom_behind h hline number (Nat.zero_le _)]
      rfl
    | some m =>
      -- the match ends on the line, so that the next one may be looked for from the next line on
      have hstop : (f.found ⟨number, f.offset, c :: (cs ++ f.tail)⟩ m).stop.offset ≤
          f.offset + Text.byteLength (c :: cs) := Nat.add_le_add_left (stop_le_of_matchAt? hown) _
      dsimp only [Option.map_some]
      rw [hafter, f.matchesFrom_behind h hline number hstop]
      rfl

theorem allMatches_line {line : List Char} (hline : '\n' ∉ line) :
    p.allMatches line = (p.matchAt? (.first line) ⟨none, 0, line⟩).toList := by
  have hall := Frame.matchesFrom_line h ⟨none, 0, [], by simp, by simp⟩ hline 1
  simpa [Frame.later, Frame.cursor, allMatches, Line.first] using hall

theorem Frame.map_shows_matchAt? (f : Frame) {line : List Char}
    (hline : '\n' ∉ line) (number : Nat) :
    (p.matchAt? ⟨number, f.offset, line ++ f.tail⟩ (f.cursor ⟨none, 0, line⟩)).toList.map
      Match.shows =
      (p.allMatches line).map fun m => (number, 0, m.caught) := by
  rw [allMatches_line h hline, f.matchAt?_cursor (oneLine_iff.1 h).1 _ (.first line)]
  cases hm : p.matchAt? (.first line) ⟨none, 0, line⟩ with
  | none => rfl
  | some m =>
    obtain ⟨-, hstart, hfits⟩ := fits_of_matchAt? hm
    have hcolumn : (f.found ⟨number, f.offset, line ++ f.tail⟩ m).spot.column = 0 := by
      simp [Spot.column, Match.spot, found, cursor, hstart]
    rw [Option.map_some, Option.toList_some, Option.toList_some, List.map_singleton,
      List.map_singleton, Match.shows, hcolumn, f.caught_found hfits]
    rfl

theorem map_shows_matchesFrom {lines : List (List Char)} (hlines : ∀ l ∈ lines, '\n' ∉ l)
    (number offset : Nat)
    (before : Option Char) (hbefore : ∀ c ∈ before, c = '\n') :
    (p.matchesFrom 0 ⟨number, offset, Text.joinLines lines⟩ before offset
      (Text.joinLines lines)).map Match.shows =
      (lines.zipIdx number).flatMap fun l =>
        (p.allMatches l.1).map fun m => (l.2, 0, m.caught) := by
  induction lines generalizing number offset before with
  | nil => rfl
  | cons line below ih =>
    have hline := hlines line List.mem_cons_self
    rw [List.zipIdx_cons, List.flatMap_cons]
    cases below with
    | nil =>
      have hstep := Frame.matchesFrom_line h ⟨before, offset, [], hbefore, by simp⟩ hline number
      have hshows := Frame.map_shows_matchAt? h ⟨before, offset, [], hbefore, by simp⟩ hline number
      dsimp only at hstep hshows
      rw [List.append_nil] at hstep hshows
      rw [show Text.joinLines [line] = line from rfl, hstep, List.map_append, hshows]
      rfl
    | cons next below =>
      have hstep := Frame.matchesFrom_line h
        ⟨before, offset, '\n' :: Text.joinLines (next :: below), hbefore, by simp⟩ hline number
      have hshows := Frame.map_shows_matchAt? h
        ⟨before, offset, '\n' :: Text.joinLines (next :: below), hbefore, by simp⟩ hline number
      have hlater := ih (fun l hl => hlines l (List.mem_cons_of_mem _ hl)) (number + 1)
        (offset + Text.byteLength line + 1) (some '\n') (by simp)
      dsimp only at hstep hshows
      rw [Text.joinLines_cons line (by simp), hstep, List.map_append, hshows, Frame.later]
      dsimp only
      rw [hlater]

/-- A text shows what its lines show, each of them taken as a text of its own. -/
theorem map_shows_allMatches (text : List Char) :
    (p.allMatches text).map Match.shows =
      ((Text.splitLines text).zipIdx 1).flatMap fun l => (p.allMatches l.1).map fun m =>
      (l.2, 0, m.caught) := by
  have hlines : ∀ l ∈ Text.splitLines text, '\n' ∉ l :=
    fun l hl => Text.newline_not_mem_of_mem_splitLines hl
  have hall := map_shows_matchesFrom h hlines 1 0 none (by simp)
  rw [Text.joinLines_splitLines] at hall
  exact hall

end Pattern

/-- Functions and classes are declared at the start of a line, and what is on other lines
does not count. -/
def Language.declaresByLine : Language → Bool
  | .python | .ruby | .go | .rust => true
  | _ => false

theorem Rule.oneLine_of_mem_table {language : Language}
    (h : language.declaresByLine = true) {rule : Rule}
    (hrule : rule ∈ table language) (hkind : rule.kind = .function ∨ rule.kind = .classType) :
    rule.capture = .single ∧ rule.pattern.oneLine = true := by
  have hall : ∀ rule ∈ table language, rule.kind = .function ∨ rule.kind = .classType →
      rule.capture = .single ∧ rule.pattern.oneLine = true := by
    cases language <;> first | cases h; done | decide
  exact hall rule hrule hkind

theorem Rule.candidates_of_single {rule : Rule} (h : rule.capture = .single) (m : Pattern.Match) :
    rule.candidates m = m.caught.toList.map (⟨·, m.spot⟩) := by
  unfold Rule.candidates
  cases hgroup : m.group with
  | none => simp [Pattern.Match.caught, hgroup]
  | some g => simp [Pattern.Match.caught, hgroup, h]

theorem Pattern.column_of_mem_allMatches {p : Pattern} (h : p.oneLine = true)
    {text : List Char} {m : Match}
    (hm : m ∈ p.allMatches text) : m.spot.column = 0 := by
  have hshows := List.mem_map_of_mem (f := Match.shows) hm
  rw [map_shows_allMatches h] at hshows
  obtain ⟨l, -, hl⟩ := List.mem_flatMap.1 hshows
  obtain ⟨own, -, hown⟩ := List.mem_map.1 hl
  exact (congrArg (·.2.1) hown).symm

theorem Pattern.mem_map_shows_iff {p : Pattern} (h : p.oneLine = true)
    (text : List Char) (number : Nat)
    (name : List Char) :
    (number, 0, some name) ∈ (p.allMatches text).map Match.shows ↔
      ∃ line, (line, number) ∈ (Text.splitLines text).zipIdx 1 ∧ ∃ m ∈ p.allMatches line,
        m.caught = some name := by
  rw [map_shows_allMatches h]
  simp only [List.mem_flatMap, List.mem_map, Prod.mk.injEq, true_and, Prod.exists]
  constructor
  · rintro ⟨line, k, hmem, m, hm, rfl, hcaught⟩
    exact ⟨line, hmem, m, hm, hcaught⟩
  · rintro ⟨line, hmem, m, hm, hcaught⟩
    exact ⟨line, number, hmem, m, hm, rfl, hcaught⟩

namespace Extraction

variable {language : Language} {text : List Char}

theorem exists_mem_keepFirst {seen : Std.HashSet Key} {fs : List Finding} {f : Finding} (h : f ∈ fs)
    (hnew : seen.contains f.key = false) : ∃ g ∈ keepFirst seen fs, g.key = f.key := by
  fun_induction keepFirst seen fs with
  | case1 => cases h
  | case2 seen g gs hseen ih =>
    rcases List.mem_cons.1 h with rfl | h
    · rw [hseen] at hnew
      cases hnew
    · exact ih h hnew
  | case3 seen g gs hunseen ih =>
    by_cases hkey : g.key = f.key
    · exact ⟨g, List.mem_cons_self, hkey⟩
    · have h : f ∈ gs := (List.mem_cons.1 h).resolve_left fun heq => hkey (heq ▸ rfl)
      obtain ⟨k, hk, heq⟩ := ih h (by simp [Std.HashSet.contains_insert, hkey, hnew])
      exact ⟨k, List.mem_cons_of_mem _ hk, heq⟩

theorem exists_finding_iff (key : Key) :
    (∃ f ∈ findings language text, f.key = key) ↔
      ∃ rule ∈ Rule.table language, ∃ f ∈ ofRule language text rule, f.key = key := by
  constructor
  · rintro ⟨f, hf, rfl⟩
    obtain ⟨rule, hrule, hf⟩ := List.mem_flatMap.1 (mem_of_mem_keepFirst hf)
    exact ⟨rule, hrule, f, hf, rfl⟩
  · rintro ⟨rule, hrule, f, hf, rfl⟩
    exact exists_mem_keepFirst (List.mem_flatMap.2 ⟨rule, hrule, hf⟩) Std.HashSet.contains_empty

theorem standsInComment_of_column {s : Spot} (h : s.column = 0) :
    standsInComment language s = false := by
  refine Bool.eq_false_iff.2 fun hin => ?_
  obtain ⟨leader, hleader, hin⟩ := List.any_eq_true.1 hin
  obtain ⟨c, cs, hcs⟩ := List.exists_cons_of_ne_nil (Language.solid_of_mem_leader hleader).1
  have hpos := c.utf8Size_pos
  simp only [Bool.and_eq_true, decide_eq_true_eq, hcs, Text.byteLength_cons, h] at hin
  omega

theorem exists_mem_ofRule_iff {rule : Rule} (hsingle : rule.capture = .single)
    (hone : rule.pattern.oneLine = true)
    (key : Key) :
    (∃ f ∈ ofRule language text rule, f.key = key) ↔
      rule.kind = key.kind ∧ rule.refused.contains (String.ofList key.name) = false ∧
        Grammar.accepts key.kind key.name = true ∧
          (key.line, 0, some key.name) ∈
            (rule.pattern.allMatches text).map Pattern.Match.shows := by
  constructor
  · rintro ⟨f, hf, rfl⟩
    obtain ⟨c, hc, rfl⟩ := List.mem_map.1 hf
    obtain ⟨hc, hadmissible⟩ := List.mem_filter.1 hc
    obtain ⟨m, hm, hc⟩ := List.mem_flatMap.1 hc
    rw [Rule.candidates_of_single hsingle] at hc
    obtain ⟨name, hcaught, rfl⟩ := List.mem_map.1 hc
    simp only [admissible, Bool.and_eq_true, Bool.not_eq_true'] at hadmissible
    refine ⟨rfl, hadmissible.1.1, hadmissible.1.2, List.mem_map.2 ⟨m, hm, ?_⟩⟩
    rw [Pattern.Match.shows, Pattern.column_of_mem_allMatches hone hm, Option.mem_toList.1 hcaught]
    rfl
  · rintro ⟨hkind, hrefused, haccepts, hshows⟩
    obtain ⟨m, hm, hshows⟩ := List.mem_map.1 hshows
    simp only [Pattern.Match.shows, Prod.mk.injEq] at hshows
    obtain ⟨hline, hcolumn, hcaught⟩ := hshows
    refine ⟨⟨rule.kind, key.name, m.spot⟩,
      List.mem_map.2 ⟨⟨key.name, m.spot⟩, List.mem_filter.2 ⟨?_, ?_⟩, rfl⟩, ?_⟩
    · refine List.mem_flatMap.2 ⟨m, hm, ?_⟩
      rw [Rule.candidates_of_single hsingle, hcaught]
      exact List.mem_singleton_self _
    · simp only [admissible, hrefused, hkind, haccepts, standsInComment_of_column hcolumn]
      rfl
    · rw [Finding.key, hkind, show m.spot.line.number = key.line from hline]

def Declares (language : Language) (line : List Char) (kind : Kind) (name : List Char) : Prop :=
  ∃ f ∈ findings language line, f.key = ⟨1, kind, name⟩

theorem exists_finding_iff_caught (hlanguage : language.declaresByLine = true) {kind : Kind}
    (hkind : kind = .function ∨ kind = .classType) (number : Nat) (name : List Char) :
    (∃ f ∈ findings language text, f.key = ⟨number, kind, name⟩) ↔
      ∃ line, (line, number) ∈ (Text.splitLines text).zipIdx 1 ∧ ∃ rule ∈ Rule.table language,
        rule.kind = kind ∧ rule.refused.contains (String.ofList name) = false ∧
          Grammar.accepts kind name = true ∧ ∃ m ∈ rule.pattern.allMatches line,
            m.caught = some name := by
  rw [exists_finding_iff]
  constructor
  · rintro ⟨rule, hrule, f, hf, hkey⟩
    obtain ⟨c, -, hf'⟩ := List.mem_map.1 hf
    have hsame : rule.kind = kind := by
      rw [← hf', Finding.key, Key.mk.injEq] at hkey
      exact hkey.2.1
    obtain ⟨hsingle, hone⟩ := Rule.oneLine_of_mem_table hlanguage hrule (hsame ▸ hkind)
    obtain ⟨-, hrefused, haccepts, hshows⟩ := (exists_mem_ofRule_iff hsingle hone _).1 ⟨f, hf, hkey⟩
    obtain ⟨line, hline, hcaught⟩ := (Pattern.mem_map_shows_iff hone _ _ _).1 hshows
    exact ⟨line, hline, rule, hrule, hsame, hrefused, haccepts, hcaught⟩
  · rintro ⟨line, hline, rule, hrule, hsame, hrefused, haccepts, hcaught⟩
    obtain ⟨hsingle, hone⟩ := Rule.oneLine_of_mem_table hlanguage hrule (hsame ▸ hkind)
    have hshows := (Pattern.mem_map_shows_iff hone _ _ _).2 ⟨line, hline, hcaught⟩
    exact ⟨rule, hrule, (exists_mem_ofRule_iff hsingle hone ⟨number, kind, name⟩).2
      ⟨hsame, hrefused, haccepts, hshows⟩⟩

/-- The functions and classes of a text are those of its lines, each of them taken as a
text of its own. -/
theorem exists_finding_iff_declares (hlanguage : language.declaresByLine = true) {kind : Kind}
    (hkind : kind = .function ∨ kind = .classType) (number : Nat) (name : List Char) :
    (∃ f ∈ findings language text, f.key = ⟨number, kind, name⟩) ↔
      ∃ line, (line, number) ∈ (Text.splitLines text).zipIdx 1 ∧
        Declares language line kind name := by
  rw [exists_finding_iff_caught hlanguage hkind]
  refine exists_congr fun line => and_congr_right fun hline => ?_
  have halone : Text.splitLines line = [line] := by
    have hmem : line ∈ Text.splitLines text := List.fst_mem_of_mem_zipIdx hline
    have hsplit : Text.splitLines (Text.joinLines [line]) = [line] :=
      Text.splitLines_joinLines (by simp)
        (by simpa using Text.newline_not_mem_of_mem_splitLines hmem)
    exact hsplit
  rw [Declares, exists_finding_iff_caught hlanguage hkind, halone]
  simp

end Extraction

namespace Outline

open Extraction

variable {path : Path} {language : Language} {source : String}

theorem mem_documentable_iff (hbinary : looksBinary source.toList = false) {e : Element} :
    e ∈ (ofSource path language source).documentable ↔
      ∃ f ∈ findings language source.toList, toElement language f = e ∧
        (f.kind = .function ∨ f.kind = .classType) := by
  have helements : ∀ kind, e ∈ (ofSource path language source).elements kind ↔
      ∃ f ∈ findings language source.toList, toElement language f = e ∧ f.kind = kind := by
    intro kind
    rw [elements_ofSource, hbinary, if_neg (by simp), sortByOffset,
      List.mem_mergeSort, List.mem_filter,
      List.mem_map, decide_eq_true_eq]
    constructor
    · rintro ⟨⟨f, hf, rfl⟩, hkind⟩
      exact ⟨f, hf, rfl, hkind⟩
    · rintro ⟨f, hf, rfl, hkind⟩
      exact ⟨⟨f, hf, rfl⟩, hkind⟩
  have hsplit : (ofSource path language source).documentable =
      (ofSource path language source).elements .function ++
      (ofSource path language source).elements .classType := rfl
  rw [hsplit, List.mem_append, helements, helements]
  constructor
  · rintro (⟨f, hf, he, hkind⟩ | ⟨f, hf, he, hkind⟩)
    · exact ⟨f, hf, he, .inl hkind⟩
    · exact ⟨f, hf, he, .inr hkind⟩
  · rintro ⟨f, hf, he, hkind | hkind⟩
    · exact .inl ⟨f, hf, he, hkind⟩
    · exact .inr ⟨f, hf, he, hkind⟩

theorem exists_documentable_iff (hbinary : looksBinary source.toList = false) (target : Target) :
    (∃ e ∈ (ofSource path language source).documentable, e.target = target) ↔
      (target.kind = .function ∨ target.kind = .classType) ∧
        ∃ f ∈ findings language source.toList,
          f.key = ⟨target.line, target.kind, target.name.toList⟩ := by
  constructor
  · rintro ⟨e, he, rfl⟩
    obtain ⟨f, hf, rfl, hkind⟩ := (mem_documentable_iff hbinary).1 he
    refine ⟨hkind, f, hf, ?_⟩
    rw [Element.target, toElement, String.toList_ofList]
    rfl
  · rintro ⟨hkind, f, hf, hkey⟩
    rw [Finding.key, Key.mk.injEq] at hkey
    obtain ⟨hline, hsame, hname⟩ := hkey
    refine ⟨toElement language f, (mem_documentable_iff hbinary).2 ⟨f, hf, rfl, hsame ▸ hkind⟩, ?_⟩
    rw [Element.target, toElement]
    simp [hline, hsame, hname]

theorem exists_documentable_iff_declares (hlanguage : language.declaresByLine = true)
    (hbinary : looksBinary source.toList = false) (target : Target) :
    (∃ e ∈ (ofSource path language source).documentable, e.target = target) ↔
      (target.kind = .function ∨ target.kind = .classType) ∧
        ∃ line, (line, target.line) ∈ (Text.splitLines source.toList).zipIdx 1 ∧
          Declares language line target.kind target.name.toList := by
  rw [exists_documentable_iff hbinary]
  exact and_congr_right fun hkind =>
    exists_finding_iff_declares hlanguage hkind target.line target.name.toList

end Outline

end DocGap
