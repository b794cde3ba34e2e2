import DocGap.NameList
import DocGap.Proofs.Lines

/-!
# Names in a list

Masking a list keeps the place of every character that it leaves, and it leaves no character of a
comment but line feeds. So a name that is read off the masked list stands in the list itself, and
ends outside comments: behind it there is a blank, a comma, the start of a comment or the end of the
list.
-/
namespace DocGap

theorem Text.exists_joinWith_cons (mark : Char) (piece : List Char) (rest : List (List Char)) :
    ∃ tail, joinWith mark (piece :: rest) = piece ++ tail ∧ ∀ c ∈ tail.head?, c = mark := by
  cases rest with
  | nil => exact ⟨[], (List.append_nil piece).symm, by simp⟩
  | cons next rest =>
    refine ⟨mark :: joinWith mark (next :: rest),
      joinWith_cons piece (List.cons_ne_nil next rest), ?_⟩
    intro c hc
    exact (Option.some.inj hc).symm

namespace NameList

theorem byteLength_cover (c : Char) : Text.byteLength (cover c) = c.utf8Size := by
  have hspaces : ∀ n, Text.byteLength (List.replicate n ' ') = n := by
    intro n
    induction n with
    | zero => rfl
    | succ n ih =>
      rw [List.replicate_succ, Text.byteLength_cons, ih, Nat.add_comm]
      rfl
  unfold cover
  split
  · next hc => rw [hc]; rfl
  · exact hspaces _

theorem isBlank_of_mem_cover {c d : Char} (h : d ∈ cover c) : Text.isBlank d = true := by
  unfold cover at h
  split at h
  · rw [List.mem_singleton.1 h]
    decide
  · rw [List.eq_of_mem_replicate h]
    decide

theorem exists_append_of_blanks {blanks rest front back : List Char} {c : Char}
    (hblanks : ∀ b ∈ blanks, Text.isBlank b = true) (hc : Text.isBlank c = false)
    (h : blanks ++ rest = front ++ c :: back) :
    ∃ more, front = blanks ++ more ∧ rest = more ++ c :: back := by
  rcases List.append_eq_append_iff.1 h with ⟨more, hfront, hrest⟩ | ⟨more, hblank, hback⟩
  · exact ⟨more, hfront, hrest⟩
  · cases more with
    | nil => exact ⟨[], by simpa using hblank.symm, by simpa using hback.symm⟩
    | cons d more =>
      have hd : d = c := (List.cons.inj hback).1.symm
      have hmem := hblanks d (by rw [hblank]; simp)
      rw [hd, hc] at hmem
      cases hmem

/-- A character of the masked list that is not blank stands at the same place of the list,
outside comments. -/
theorem exists_append_of_maskFrom {place : Place} {list front back : List Char} {c : Char}
    (hc : Text.isBlank c = false) (h : maskFrom place list = front ++ c :: back) :
    ∃ u w, list = u ++ c :: w ∧ Text.byteLength u = Text.byteLength front ∧
      back = maskFrom .code w := by
  -- what is covered is passed over, and the rest is as before
  have hpass : ∀ {place : Place} (used blanks : List Char) {cs front : List Char},
      (∀ b ∈ blanks, Text.isBlank b = true) → Text.byteLength used = Text.byteLength blanks →
      (∀ {front : List Char}, maskFrom place cs = front ++ c :: back →
        ∃ u w, cs = u ++ c :: w ∧ Text.byteLength u = Text.byteLength front ∧
          back = maskFrom .code w) →
      blanks ++ maskFrom place cs = front ++ c :: back →
        ∃ u w, used ++ cs = u ++ c :: w ∧ Text.byteLength u = Text.byteLength front ∧
          back = maskFrom .code w := by
    intro place used blanks cs front hblanks hlength ih h
    obtain ⟨more, rfl, hrest⟩ := exists_append_of_blanks hblanks hc h
    obtain ⟨u, w, rfl, hu, hback⟩ := ih hrest
    refine ⟨used ++ u, w, by simp, ?_, hback⟩
    rw [Text.byteLength_append, Text.byteLength_append, hlength, hu]
  have hspace : Text.isBlank ' ' = true := by decide
  have hfeed : Text.isBlank '\n' = true := by decide
  fun_induction maskFrom place list generalizing front with
  | case1 place => simp at h
  | case2 cs ih => exact hpass ['/', '/'] [' ', ' '] (by simp [hspace]) rfl ih h
  | case3 cs ih => exact hpass ['/', '*'] [' ', ' '] (by simp [hspace]) rfl ih h
  | case4 d cs hline hblock ih =>
    cases front with
    | nil =>
      obtain ⟨rfl, hback⟩ := List.cons.inj h
      exact ⟨[], cs, rfl, rfl, hback.symm⟩
    | cons e front =>
      obtain ⟨rfl, hrest⟩ := List.cons.inj h
      obtain ⟨u, w, rfl, hu, hback⟩ := ih hrest
      exact ⟨d :: u, w, rfl, by rw [Text.byteLength_cons, Text.byteLength_cons, hu], hback⟩
  | case5 cs ih => exact hpass ['\n'] ['\n'] (by simp [hfeed]) rfl ih h
  | case6 d cs hd ih =>
    exact hpass [d] (cover d) (fun b => isBlank_of_mem_cover) (by simp [byteLength_cover]) ih h
  | case7 starred d cs ihcode ihblock =>
    split at h
    · exact hpass [d] (cover d) (fun b => isBlank_of_mem_cover)
        (by simp [byteLength_cover]) ihcode h
    · exact hpass [d] (cover d) (fun b => isBlank_of_mem_cover)
        (by simp [byteLength_cover]) ihblock h

theorem head?_maskFrom_code {list : List Char} {c : Char} (h : list.head? = some c) :
    c = '/' ∨ (maskFrom .code list).head? = some c := by
  cases list with
  | nil => cases h
  | cons d cs =>
    obtain rfl : d = c := by simpa using h
    by_cases hslash : d = '/'
    · exact .inl hslash
    · refine .inr ?_
      rw [maskFrom]
      · rfl
      all_goals simp [hslash]

theorem append_of_cutAtLast {mark cs before after : List Char}
    (h : cutAtLast mark cs = some (before, after)) :
    cs = before ++ (mark ++ after) := by
  obtain ⟨⟨back, front⟩, hcut, heq⟩ := Option.map_eq_some_iff.1 h
  obtain ⟨rfl, rfl⟩ := Prod.mk.inj heq
  have hreverse := congrArg List.reverse (Text.append_of_cutAt hcut)
  simpa using hreverse

theorem skipBlanks_append (cs : List Char) :
    ∃ front, cs = front ++ (skipBlanks cs).2 ∧ Text.byteLength front = (skipBlanks cs).1 ∧
      ∀ c ∈ (skipBlanks cs).2.head?, Text.isBlank c = false :=
  ⟨cs.takeWhile Text.isBlank,
    by rw [skipBlanks, Text.trimStart, List.takeWhile_append_dropWhile], rfl,
    fun _ => Text.head?_trimStart⟩

theorem skipTypeWord_append {cs : List Char} (h : ∀ c ∈ cs.head?, Text.isBlank c = false) :
    ∃ front, cs = front ++ (skipTypeWord cs).2 ∧ Text.byteLength front = (skipTypeWord cs).1 ∧
      ∀ c ∈ (skipTypeWord cs).2.head?, Text.isBlank c = false := by
  unfold skipTypeWord
  split
  · next hword =>
    obtain ⟨rest, rfl⟩ := List.isPrefixOf_iff_prefix.1 hword
    obtain ⟨front, hrest, hfront, hhead⟩ := skipBlanks_append rest
    have hdrop : ("type ".toList ++ rest).drop 5 = rest := List.drop_left' rfl
    dsimp only
    rw [hdrop]
    refine ⟨"type ".toList ++ front, by rw [List.append_assoc, ← hrest], ?_, hhead⟩
    rw [Text.byteLength_append, hfront]
    rfl
  · exact ⟨[], rfl, rfl, h⟩

theorem nameOfSegment_append (segment : List Char) :
    ∃ front trail, segment = front ++ ((nameOfSegment segment).2 ++ trail) ∧
      Text.byteLength front = (nameOfSegment segment).1 ∧ (∀ c ∈ trail, Text.isBlank c = true) ∧
        Text.Tight (nameOfSegment segment).2 := by
  obtain ⟨lead, hsegment, hlead, hstart⟩ := skipBlanks_append segment
  obtain ⟨typed, hrest, htyped, hhead⟩ := skipTypeWord_append hstart
  obtain ⟨trail, hitem, htrail⟩ := Text.trimEnd_append (skipTypeWord (skipBlanks segment).2).2
  have htight := Text.tight_trimEnd hhead
  unfold nameOfSegment
  dsimp only
  generalize Text.trimEnd (skipTypeWord (skipBlanks segment).2).2 = item at *
  have hall : segment = (lead ++ typed) ++ (item ++ trail) := by
    rw [List.append_assoc, ← hitem, ← hrest, ← hsegment]
  cases hcut : cutAtLast " as ".toList item with
  | none =>
    refine ⟨lead ++ typed, trail, hall, ?_, htrail, htight⟩
    rw [Text.byteLength_append, hlead, htyped]
  | some parts =>
    obtain ⟨before, after⟩ := parts
    obtain ⟨blanks, hafter, hblanks, hfirst⟩ := skipBlanks_append after
    have hparts : item = before ++ (" as ".toList ++ (blanks ++ (skipBlanks after).2)) := by
      rw [← hafter, append_of_cutAtLast hcut]
    refine ⟨(lead ++ typed) ++ (before ++ (" as ".toList ++ blanks)), trail, hall.trans ?_, ?_,
      htrail, hfirst, ?_⟩
    · rw [hparts]
      simp only [List.append_assoc]
    · have hword : Text.byteLength " as ".toList = 4 := rfl
      simp only [Text.byteLength_append, hlead, htyped, hblanks]
      omega
    · intro c hc
      apply htight.last
      rw [hparts, ← List.append_assoc, ← List.append_assoc, List.getLast?_append]
      exact Option.or_eq_some_iff.2 (.inl hc)

theorem exists_append_of_mask {list front name after : List Char}
    (h : mask list = front ++ (name ++ after))
    (hne : name ≠ []) (htight : Text.Tight name) :
    ∃ u part v, list = u ++ (part ++ v) ∧ Text.byteLength u = Text.byteLength front ∧
      Text.byteLength part = Text.byteLength name ∧ after = maskFrom .code v ∧ part ≠ [] ∧
        Text.Tight part := by
  obtain ⟨c, rest, rfl⟩ := List.exists_cons_of_ne_nil hne
  have hc : Text.isBlank c = false := htight.head c rfl
  obtain ⟨u, w, rfl, hu, hback⟩ := exists_append_of_maskFrom hc h
  rcases List.eq_nil_or_concat rest with rfl | ⟨init, d, rfl⟩
  · exact ⟨u, [c], w, rfl, hu, rfl, hback, List.cons_ne_nil c [], by simp [hc], by simp [hc]⟩
  · have hd : Text.isBlank d = false := htight.last d (by rw [List.getLast?_cons]; simp)
    have hrest : maskFrom .code w = init ++ d :: after := by simpa using hback.symm
    obtain ⟨inner, v, rfl, hinner, hafter⟩ := exists_append_of_maskFrom hd hrest
    refine ⟨u, c :: (inner ++ [d]), v, by simp, hu, ?_, hafter, by simp, by simp [hc], ?_⟩
    · simp [Text.byteLength_append, hinner]
    · rw [← List.cons_append, List.getLast?_concat]
      simp [hd]

/-- The item stands in a list that starts at byte `base`, and its name does not go on behind it. -/
structure Item.Stands (item : Item) (list : List Char) (base : Nat)
    (front back : List Char) : Prop where
  list_eq : list = front ++ (item.name ++ back)
  offset_eq : item.offset = base + Text.byteLength front
  ends : ∀ c ∈ back.head?, Text.isBlank c = true ∨ c = ',' ∨ c = '/'

theorem exists_stands_of_mask {list front name after : List Char} {base : Nat}
    (h : mask list = front ++ (name ++ after)) (hne : name ≠ []) (htight : Text.Tight name)
    (hafter : ∀ c ∈ after.head?, Text.isBlank c = true ∨ c = ',') :
    ∃ u v, Item.Stands
      ⟨slice list (Text.byteLength front) (Text.byteLength name), base + Text.byteLength front⟩ list
      base u v := by
  obtain ⟨u, part, v, rfl, hu, hpart, hv, -⟩ := exists_append_of_mask h hne htight
  have hslice : slice (u ++ (part ++ v)) (Text.byteLength u) (Text.byteLength part) = part := by
    rw [slice, Text.dropBytes_byteLength]
    exact Text.takeBytes_byteLength part v
  rw [← hu, ← hpart, hslice]
  refine ⟨u, v, rfl, rfl, fun c hc => ?_⟩
  rcases head?_maskFrom_code hc with hslash | hmask
  · exact .inr (.inr hslash)
  · rw [← hv] at hmask
    exact (hafter c hmask).imp_right .inl

structure Span where
  offset : Nat
  length : Nat
deriving DecidableEq, Repr

def spansFrom (offset : Nat) : List (List Char) → List Span
  | [] => []
  | segment :: rest =>
    let (lead, name) := nameOfSegment segment
    let more := spansFrom (offset + Text.byteLength segment + 1) rest
    if name.isEmpty then more else ⟨offset + lead, Text.byteLength name⟩ :: more

def spans (list : List Char) : List Span := spansFrom 0 (Text.pieces ',' (mask list))

def Span.item (list : List Char) (base : Nat) (s : Span) : Item :=
  ⟨slice list s.offset s.length, base + s.offset⟩

theorem namesFrom_eq_map (list : List Char) (base offset : Nat) (segments : List (List Char)) :
    namesFrom list base offset segments = (spansFrom offset segments).map
      (Span.item list base) := by
  induction segments generalizing offset with
  | nil => rfl
  | cons segment rest ih =>
    rw [namesFrom, spansFrom, ih]
    dsimp only
    split
    · rfl
    · rfl

theorem names_eq_map (list : List Char) (base : Nat) : names list base = (spans list).map
    (Span.item list base) :=
  namesFrom_eq_map list base 0 _

/-- A name stands in the masked list, without blanks at its ends and in front of a blank, a
comma or the end. -/
structure Span.Shows (s : Span) (list front name after : List Char) : Prop where
  mask_eq : mask list = front ++ (name ++ after)
  offset_eq : Text.byteLength front = s.offset
  length_eq : Text.byteLength name = s.length
  ne_nil : name ≠ []
  tight : Text.Tight name
  ends : ∀ c ∈ after.head?, Text.isBlank c = true ∨ c = ','

theorem exists_shows_of_mem_spansFrom {list front : List Char}
    {segments : List (List Char)} {s : Span}
    (h : s ∈ spansFrom (Text.byteLength front) segments)
    (hlist : mask list = front ++ Text.joinWith ',' segments) :
    ∃ lead name after, s.Shows list lead name after := by
  induction segments generalizing front with
  | nil => cases h
  | cons segment rest ih =>
    obtain ⟨lead, trail, hsegment, hlead, htrail, htight⟩ := nameOfSegment_append segment
    -- The other segments start behind the comma that ends this one.
    have hmore : s ∈ spansFrom (Text.byteLength front + Text.byteLength segment + 1) rest →
        ∃ lead name after, s.Shows list lead name after := by
      intro hs
      have hne : rest ≠ [] := by
        intro hnil
        rw [hnil] at hs
        cases hs
      have hoffset : Text.byteLength (front ++ (segment ++ [','])) =
          Text.byteLength front + Text.byteLength segment + 1 := by
        simp only [Text.byteLength_append]
        rfl
      refine @ih (front ++ (segment ++ [','])) (hoffset ▸ hs) ?_
      rw [hlist, Text.joinWith_cons segment hne]
      simp
    rw [spansFrom] at h
    dsimp only at h
    generalize (nameOfSegment segment).2 = name at *
    split at h
    · exact hmore h
    · next hname =>
      rcases List.mem_cons.1 h with rfl | hrest
      · obtain ⟨tail, htail, hcomma⟩ := Text.exists_joinWith_cons ',' segment rest
        refine ⟨front ++ lead, name, trail ++ tail, ?_, ?_, rfl, by simpa using hname,
          htight, fun c hc => ?_⟩
        · rw [hlist, htail, hsegment]
          simp only [List.append_assoc]
        · rw [Text.byteLength_append, hlead]
        · rw [List.head?_append, Option.mem_def, Option.or_eq_some_iff] at hc
          rcases hc with hblank | ⟨-, hmark⟩
          · exact .inl (htrail c (List.mem_of_mem_head? hblank))
          · exact .inr (hcomma c hmark)
      · exact hmore hrest

theorem exists_shows_of_mem_spans {list : List Char} {s : Span} (h : s ∈ spans list) :
    ∃ lead name after, s.Shows list lead name after :=
  @exists_shows_of_mem_spansFrom list [] _ s h (Text.joinWith_pieces ',' (mask list)).symm

theorem exists_shows_of_mem_names {list : List Char} {base : Nat} {item : Item}
    (h : item ∈ names list base) :
    ∃ (s : Span) (lead name after : List Char), item = s.item list base ∧
      s.Shows list lead name after := by
  rw [names_eq_map] at h
  obtain ⟨s, hs, rfl⟩ := List.mem_map.1 h
  obtain ⟨lead, name, after, hshows⟩ := exists_shows_of_mem_spans hs
  exact ⟨s, lead, name, after, rfl, hshows⟩

theorem exists_stands_of_mem_names {list : List Char} {base : Nat} {item : Item}
    (h : item ∈ names list base) :
    ∃ u v, item.Stands list base u v := by
  obtain ⟨s, lead, name, after, rfl, hshows⟩ := exists_shows_of_mem_names h
  rw [Span.item, ← hshows.offset_eq, ← hshows.length_eq]
  exact exists_stands_of_mask hshows.mask_eq hshows.ne_nil hshows.tight hshows.ends

theorem append_of_quotedPath? {line path : List Char} {lead : Nat}
    (h : quotedPath? line = some (lead, path)) :
    ∃ u v, line = u ++ '"' :: (path ++ v) ∧ lead = Text.byteLength u + 1 := by
  unfold quotedPath? at h
  split at h
  · cases h
  · next before after hopen =>
    split at h
    · cases h
    · next inner rest hclose =>
      cases h
      refine ⟨before, '"' :: rest, ?_, rfl⟩
      rw [Text.append_of_cutAt hopen, Text.append_of_cutAt hclose]
      rfl

theorem of_mem_quotedPathsFrom {base : Nat} {lines : List (List Char)} {item : Item}
    (h : item ∈ quotedPathsFrom base lines) :
    ∃ u v, Text.joinLines lines = u ++ '"' :: (item.name ++ v) ∧
      item.offset = base + (Text.byteLength u + 1) := by
  induction lines generalizing base with
  | nil => cases h
  | cons line rest ih =>
    obtain ⟨more, hmore, -⟩ := Text.exists_joinWith_cons '\n' line rest
    have hrest : item ∈ quotedPathsFrom (base + Text.byteLength line + 1) rest →
        ∃ u v, Text.joinLines (line :: rest) = u ++ '"' :: (item.name ++ v) ∧
          item.offset = base + (Text.byteLength u + 1) := by
      intro hitem
      obtain ⟨u, v, hjoin, hoffset⟩ := ih hitem
      have hne : rest ≠ [] := by
        rintro rfl
        cases hitem
      refine ⟨line ++ '\n' :: u, v, by rw [Text.joinLines_cons line hne, hjoin]; simp, ?_⟩
      rw [hoffset, Text.byteLength_append, Text.byteLength_cons]
      have hfeed : '\n'.utf8Size = 1 := rfl
      omega
    rw [quotedPathsFrom] at h
    split at h
    · exact hrest h
    · next lead path hpath =>
      rcases List.mem_cons.1 h with rfl | h
      · obtain ⟨u, v, rfl, hlead⟩ := append_of_quotedPath? hpath
        exact ⟨u, v ++ more, by rw [Text.joinLines, hmore]; simp, by rw [hlead]⟩
      · exact hrest h

end NameList

end DocGap
