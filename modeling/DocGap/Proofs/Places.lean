import DocGap.Extraction
import DocGap.Proofs.ListedNames

/-!
# Places in a text

A spot that is walked to from the start of a text knows how many lines are above it and what stands
before it on its line. A pattern reads a part of the text, and the part that a group remembers lies
within it. The names that a match gives stand in the text where their spots are.
-/
namespace DocGap

/-- The spot is in `text`, below the lines `above` and behind `lead` on its own line. -/
structure Spot.Stands (text above lead : List Char) (s : Spot) : Prop where
  text_eq : text = above ++ (lead ++ s.rest)
  offset_eq : s.offset = Text.byteLength above + Text.byteLength lead
  number_eq : s.line.number = above.count '\n' + 1
  line_offset : s.line.offset = Text.byteLength above
  line_text : s.line.text = lead ++ s.rest
  above_end : above = [] ∨ above.getLast? = some '\n'
  lead_line : '\n' ∉ lead

def Spot.In (text : List Char) (s : Spot) : Prop := ∃ above lead, s.Stands text above lead

namespace Spot

theorem in_start (text : List Char) : (start text).In text :=
  ⟨[], [], ⟨rfl, rfl, rfl, rfl, rfl, .inl rfl, List.not_mem_nil⟩⟩

theorem In.next {text : List Char} {line : Line} {offset : Nat} {c : Char} {cs : List Char}
    (h : In text ⟨line, offset, c :: cs⟩) :
    In text ⟨line.after c (offset + c.utf8Size) cs, offset + c.utf8Size, cs⟩ := by
  obtain ⟨above, lead, htext, hoffset, hnumber, hstart, hline, habove, hlead⟩ := h
  unfold Line.after
  split
  · next hc =>
    subst hc
    refine ⟨above ++ lead ++ ['\n'], [], by simp [htext], ?_, ?_, ?_, rfl, .inr (by simp), by simp⟩
    · simp only [Text.byteLength_append, Text.byteLength_cons, Text.byteLength_nil]
      simp only at hoffset
      omega
    · simp only at hnumber
      simp [hnumber, List.count_eq_zero.2 hlead]
    · simp only [Text.byteLength_append, Text.byteLength_cons, Text.byteLength_nil]
      simp only at hoffset
      omega
  · next hc =>
    refine ⟨above, lead ++ [c], by simp [htext], ?_, hnumber, hstart,
      by simpa using hline, habove, ?_⟩
    · simp only [Text.byteLength_append, Text.byteLength_cons, Text.byteLength_nil]
      simp only at hoffset
      omega
    · simpa [hlead] using Ne.symm hc

theorem in_walk {text : List Char} {line : Line} {offset : Nat} {cs : List Char}
    (h : In text ⟨line, offset, cs⟩) (target : Nat) : (walk target line offset cs).In text := by
  fun_induction walk target line offset cs with
  | case1 => exact h
  | case2 => exact h
  | case3 line offset c cs hlt ih => exact ih h.next

theorem walk_append (line : Line) (offset : Nat) (part rest : List Char) :
    (walk (offset + Text.byteLength part) line offset (part ++ rest)).offset =
        offset + Text.byteLength part ∧
      (walk (offset + Text.byteLength part) line offset (part ++ rest)).rest = rest := by
  induction part generalizing line offset with
  | nil => cases rest <;> simp [walk]
  | cons c part ih =>
    have hpos := c.utf8Size_pos
    rw [List.cons_append, Text.byteLength_cons, walk, if_neg (by omega), ← Nat.add_assoc]
    exact ih _ _

theorem forward_append {s : Spot} {part rest : List Char} (h : s.rest = part ++ rest) :
    (s.forward (s.offset + Text.byteLength part)).offset = s.offset + Text.byteLength part ∧
      (s.forward (s.offset + Text.byteLength part)).rest = rest := by
  rw [forward, h]
  exact walk_append s.line s.offset part rest

end Spot

structure Cursor.Reads (c : Cursor) (part : List Char) (d : Cursor) : Prop where
  rest_eq : c.rest = part ++ d.rest
  offset_eq : d.offset = c.offset + Text.byteLength part

namespace Cursor.Reads

variable {c d e : Cursor} {u v : List Char}

theorem refl (c : Cursor) : c.Reads [] c := ⟨rfl, rfl⟩

theorem trans (h : c.Reads u d) (k : d.Reads v e) : c.Reads (u ++ v) e := by
  refine ⟨?_, ?_⟩
  · rw [h.rest_eq, k.rest_eq, List.append_assoc]
  · rw [k.offset_eq, h.offset_eq, Text.byteLength_append, Nat.add_assoc]

theorem one (before : Option Char) (offset : Nat) (x : Char) (cs : List Char) :
    Reads ⟨before, offset, x :: cs⟩ [x] ⟨some x, offset + x.utf8Size, cs⟩ := ⟨rfl, rfl⟩

theorem takeBytes_eq (h : c.Reads u d) : Text.takeBytes (d.offset - c.offset) c.rest = u := by
  rw [h.offset_eq, Nat.add_sub_cancel_left, h.rest_eq, Text.takeBytes_byteLength]

end Cursor.Reads

namespace Pattern

/-- The texts that a pattern may read, wherever they stand. -/
def Accepts : Pattern → List Char → Prop
  | empty, part => part = []
  | one accept, part => ∃ c, accept c = true ∧ part = [c]
  | run accept least _, part => (∀ c ∈ part, accept c = true) ∧ least ≤ part.length
  | stretch accept least, part => (∀ c ∈ part, accept c = true) ∧ least ≤ part.length
  | seq p q, part => ∃ u v, part = u ++ v ∧ p.Accepts u ∧ q.Accepts v
  | alt p q, part => p.Accepts part ∨ q.Accepts part
  | wordEdge, part => part = []
  | lineStart, part => part = []
  | group p, part => p.Accepts part

def Skips (accept : Char → Bool) (least : Nat) (c d : Cursor) : Prop :=
  ∃ part, ((∀ x ∈ part, accept x = true) ∧ least ≤ part.length) ∧ c.Reads part d

theorem Skips.refl (accept : Char → Bool) (c : Cursor) : Skips accept 0 c c :=
  ⟨[], ⟨by simp, Nat.le_refl _⟩, .refl c⟩

theorem Skips.cons {accept : Char → Bool} {least : Nat} {before : Option Char}
    {offset : Nat} {x : Char}
    {cs : List Char} {d : Cursor} (hx : accept x = true)
    (h : Skips accept (least - 1) ⟨some x, offset + x.utf8Size, cs⟩ d) :
    Skips accept least ⟨before, offset, x :: cs⟩ d := by
  obtain ⟨part, ⟨hpart, hleast⟩, hreads⟩ := h
  refine ⟨x :: part, ⟨?_, ?_⟩, (Cursor.Reads.one before offset x cs).trans hreads⟩
  · intro y hy
    rcases List.mem_cons.1 hy with rfl | hy
    · exact hx
    · exact hpart y hy
  · rw [List.length_cons]
    omega

theorem skips_of_mem_runEnds {accept : Char → Bool} {least most : Nat}
    {before : Option Char} {offset : Nat}
    {cs : List Char} {found : List Cursor} {d : Cursor}
    (h : d ∈ runEnds accept least most before offset cs found) :
    d ∈ found ∨ Skips accept least ⟨before, offset, cs⟩ d := by
  have hhere : ∀ {least : Nat} {c : Cursor} {found : List Cursor},
      d ∈ (if least = 0 then c :: found else found) → d ∈ found ∨ Skips accept least c d := by
    intro least c found hd
    split at hd
    · next hleast =>
      rcases List.mem_cons.1 hd with rfl | hd
      · exact .inr (hleast ▸ .refl accept d)
      · exact .inl hd
    · exact .inl hd
  induction cs generalizing least most before offset found with
  | nil =>
    rw [runEnds] at h
    exact hhere h
  | cons x cs ih =>
    unfold runEnds at h
    dsimp only at h
    split at h
    · exact hhere h
    · split at h
      · next hx =>
        rcases ih h with hd | hd
        · exact hhere hd
        · exact .inr (.cons hx hd)
      · exact hhere h

theorem skips_of_stretchEnd? {accept : Char → Bool} {least : Nat}
    {before : Option Char} {offset : Nat}
    {cs : List Char} {d : Cursor} (h : stretchEnd? accept least before offset cs = some d) :
    Skips accept least ⟨before, offset, cs⟩ d := by
  fun_induction stretchEnd? accept least before offset cs with
  | case1 before offset =>
    cases h
    exact .refl accept _
  | case2 => cases h
  | case3 least before offset x cs hx ih => exact .cons hx (ih h)
  | case4 before offset x cs hx =>
    cases h
    exact .refl accept _
  | case5 => cases h

theorem accepts_of_mem_ends {p : Pattern} {r e : Reach} (h : e ∈ p.ends r) :
    ∃ part, p.Accepts part ∧ r.cursor.Reads part e.cursor := by
  induction p generalizing r e with
  | empty =>
    cases List.mem_singleton.1 h
    exact ⟨[], rfl, .refl _⟩
  | one accept =>
    obtain ⟨⟨before, offset, rest⟩, group⟩ := r
    cases rest with
    | nil => cases h
    | cons c cs =>
      simp only [ends] at h
      split at h
      · next hc =>
        cases List.mem_singleton.1 h
        exact ⟨[c], ⟨c, hc, rfl⟩, .one before offset c cs⟩
      · cases h
  | run accept least most =>
    obtain ⟨d, hd, rfl⟩ := List.mem_map.1 h
    rcases skips_of_mem_runEnds hd with hd | hd
    · cases hd
    · exact hd
  | stretch accept least =>
    obtain ⟨d, hd, rfl⟩ := Option.map_eq_some_iff.1 (Option.mem_toList.1 h)
    exact skips_of_stretchEnd? hd
  | seq p q ihp ihq =>
    obtain ⟨d, hd, he⟩ := List.mem_flatMap.1 h
    obtain ⟨u, hu, hru⟩ := ihp hd
    obtain ⟨v, hv, hrv⟩ := ihq he
    exact ⟨u ++ v, ⟨u, v, rfl, hu, hv⟩, hru.trans hrv⟩
  | alt p q ihp ihq =>
    rcases List.mem_append.1 h with h | h
    · obtain ⟨part, hpart, hreads⟩ := ihp h
      exact ⟨part, .inl hpart, hreads⟩
    · obtain ⟨part, hpart, hreads⟩ := ihq h
      exact ⟨part, .inr hpart, hreads⟩
  | wordEdge =>
    simp only [ends] at h
    split at h
    · cases List.mem_singleton.1 h
      exact ⟨[], rfl, .refl _⟩
    · cases h
  | lineStart =>
    simp only [ends] at h
    split at h
    · cases List.mem_singleton.1 h
      exact ⟨[], rfl, .refl _⟩
    · cases h
  | group p ih =>
    obtain ⟨d, hd, rfl⟩ := List.mem_map.1 h
    obtain ⟨part, hpart, hreads⟩ := ih hd
    exact ⟨part, hpart, hreads⟩

def Remembers (c : Cursor) (group : Option (Cursor × Cursor)) : Prop :=
  ∀ first last, group = some (first, last) → ∃ u v, c.Reads u first ∧ first.Reads v last

theorem remembers_of_mem_ends {p : Pattern} {r e : Reach} (h : e ∈ p.ends r) {c : Cursor}
    {front : List Char}
    (hc : c.Reads front r.cursor) (hr : Remembers c r.group) : Remembers c e.group := by
  induction p generalizing r e front with
  | empty =>
    cases List.mem_singleton.1 h
    exact hr
  | one accept =>
    simp only [ends] at h
    split at h
    · cases h
    · split at h
      · cases List.mem_singleton.1 h
        exact hr
      · cases h
  | run accept least most =>
    obtain ⟨d, -, rfl⟩ := List.mem_map.1 h
    exact hr
  | stretch accept least =>
    obtain ⟨d, -, rfl⟩ := Option.map_eq_some_iff.1 (Option.mem_toList.1 h)
    exact hr
  | seq p q ihp ihq =>
    obtain ⟨d, hd, he⟩ := List.mem_flatMap.1 h
    obtain ⟨u, -, hru⟩ := accepts_of_mem_ends hd
    exact ihq he (hc.trans hru) (ihp hd hc hr)
  | alt p q ihp ihq =>
    rcases List.mem_append.1 h with h | h
    · exact ihp h hc hr
    · exact ihq h hc hr
  | wordEdge =>
    simp only [ends] at h
    split at h
    · cases List.mem_singleton.1 h
      exact hr
    · cases h
  | lineStart =>
    simp only [ends] at h
    split at h
    · cases List.mem_singleton.1 h
      exact hr
    · cases h
  | group p ih =>
    obtain ⟨d, hd, rfl⟩ := List.mem_map.1 h
    obtain ⟨v, -, hrv⟩ := accepts_of_mem_ends hd
    rintro first last heq
    cases heq
    exact ⟨front, v, hc, hrv⟩

structure Match.Fits (p : Pattern) (m : Match) : Prop where
  reads : ∃ part, p.Accepts part ∧ m.start.Reads part m.stop
  remembers : Remembers m.start m.group

theorem fits_of_matchAt? {p : Pattern} {line : Line} {start : Cursor} {m : Match}
    (h : p.matchAt? line start = some m) : m.line = line ∧ m.start = start ∧ m.Fits p := by
  rw [matchAt?_eq_head?] at h
  obtain ⟨e, he, rfl⟩ := Option.map_eq_some_iff.1 h
  have hmem := List.mem_of_mem_head? he
  exact ⟨rfl, rfl, accepts_of_mem_ends hmem,
    remembers_of_mem_ends hmem (.refl start) (by simp [Remembers])⟩

theorem of_mem_matchesFrom {p : Pattern} {text : List Char} {resume : Nat} {line : Line}
    {before : Option Char} {offset : Nat} {cs : List Char} {m : Match}
    (hin : Spot.In text ⟨line, offset, cs⟩)
    (h : m ∈ p.matchesFrom resume line before offset cs) : m.spot.In text ∧ m.Fits p := by
  fun_induction matchesFrom p resume line before offset cs with
  | case1 => cases h
  | case2 resume line before offset c cs next hlt ih => exact ih hin.next h
  | case3 resume line before offset c cs next hge hnone ih => exact ih hin.next h
  | case4 resume line before offset c cs next hge found hfound ih =>
    rcases List.mem_cons.1 h with rfl | h
    · obtain ⟨hline, hstart, hfits⟩ := fits_of_matchAt? hfound
      rw [Match.spot, hline, hstart]
      exact ⟨hin, hfits⟩
    · exact ih hin.next h

theorem of_mem_allMatches {p : Pattern} {text : List Char} {m : Match} (h : m ∈ p.allMatches text) :
    m.spot.In text ∧ m.Fits p := of_mem_matchesFrom (Spot.in_start text) h

end Pattern

namespace Rule

/-- How the spot of a candidate and its name stand to the match, by the way in which the
match gives names. -/
def Candidate.Follows (m : Pattern.Match) (c : Candidate) : Capture → Prop
  | .single => c.spot = m.spot ∧ c.name <:+: c.spot.rest
  | .nameList => c.name <+: c.spot.rest
  | .quotedPaths => c.name <+: c.spot.rest ∧ ∃ part, m.start.rest = part ++ '"' :: c.spot.rest

theorem of_mem_candidates {rule : Rule} {text : List Char} {m : Pattern.Match} {c : Candidate}
    (hin : m.spot.In text) (hfits : m.Fits rule.pattern) (h : c ∈ rule.candidates m) :
    c.spot.In text ∧ c.Follows m rule.capture := by
  unfold Rule.candidates at h
  split at h
  · cases h
  · next first last hgroup =>
    obtain ⟨front, list, hfirst, hlast⟩ := hfits.remembers first last hgroup
    have hstart : m.spot.rest = front ++ (list ++ last.rest) := by
      rw [← hlast.rest_eq]
      exact hfirst.rest_eq
    -- an item that stands in the list behind `u` is reached by walking over `front` and `u`
    have hitem : ∀ {item : NameList.Item} {u rest : List Char}, list = u ++ rest →
        item.offset = first.offset + Text.byteLength u →
        (Candidate.ofItem m item).spot.rest = rest ++ last.rest ∧
          m.start.rest = front ++ (u ++ (rest ++ last.rest)) := by
      intro item u rest hlist hoffset
      have hrest : m.spot.rest = (front ++ u) ++ (rest ++ last.rest) := by simp [hstart, hlist]
      have htarget : item.offset = m.spot.offset + Text.byteLength (front ++ u) := by
        rw [hoffset, hfirst.offset_eq, Text.byteLength_append, Nat.add_assoc]
        rfl
      refine ⟨?_, ?_⟩
      · rw [Candidate.ofItem, htarget]
        exact (Spot.forward_append hrest).2
      · rw [List.append_assoc] at hrest
        exact hrest
    dsimp only at h
    rw [hlast.takeBytes_eq] at h
    split at h
    · next hsingle =>
      cases List.mem_singleton.1 h
      refine ⟨hin, ?_⟩
      rw [hsingle]
      refine ⟨rfl, ?_⟩
      rw [hstart]
      exact ⟨front, last.rest, by simp⟩
    · next hnames =>
      obtain ⟨item, hmem, rfl⟩ := List.mem_map.1 h
      obtain ⟨u, v, hlist, hoffset, -⟩ := NameList.exists_stands_of_mem_names hmem
      refine ⟨Spot.in_walk hin _, ?_⟩
      rw [hnames, Candidate.Follows, (hitem hlist hoffset).1]
      exact ⟨v ++ last.rest, by simp [Candidate.ofItem]⟩
    · next hpaths =>
      obtain ⟨item, hmem, rfl⟩ := List.mem_map.1 h
      obtain ⟨u, v, hlist, hoffset⟩ := NameList.of_mem_quotedPathsFrom hmem
      rw [Text.joinLines_splitLines, ← List.singleton_append, ← List.append_assoc] at hlist
      have hquote : item.offset = first.offset + Text.byteLength (u ++ ['"']) := by
        rw [hoffset, Text.byteLength_append]
        rfl
      obtain ⟨hrest, hstart⟩ := hitem hlist hquote
      refine ⟨Spot.in_walk hin _, ?_⟩
      rw [hpaths, Candidate.Follows, hrest, hstart]
      exact ⟨⟨v ++ last.rest, by simp [Candidate.ofItem]⟩, front ++ u, by simp⟩

end Rule

end DocGap
