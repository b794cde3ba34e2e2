import DocGap.Proofs.ByteLines
import DocGap.Proofs.ListedNames

/-!
# Masked lists and their slices

A list is taken apart into its comments and the characters between them. Masking changes the bytes
of comments only, and of these it leaves the line feeds, so that a place in the masked list is the
same place in the list. The names and paths of a list are slices of it that start and end between
characters.
-/
namespace DocGap.NameList

/-- The comment with which a text starts, and what follows it. A comment that is not closed goes
on to the end. -/
def leadingComment? : List Char → Option (List Char × List Char)
  | '/' :: '/' :: cs => some ('/' :: '/' :: cs.takeWhile (· ≠ '\n'), cs.dropWhile (· ≠ '\n'))
  | '/' :: '*' :: cs =>
    match Text.cutAt ['*', '/'] cs with
    | some (inner, rest) => some ('/' :: '*' :: (inner ++ ['*', '/']), rest)
    | none => some ('/' :: '*' :: cs, [])
  | _ => none

theorem append_of_leadingComment? {list comment rest : List Char}
    (h : leadingComment? list = some (comment, rest)) :
    list = comment ++ rest ∧ rest.length < list.length := by
  have hrest : ∀ {a b : Char} {front : List Char}, list = a :: b :: front ++ rest →
      rest.length < list.length := by
    intro a b front hlist
    rw [hlist]
    simp only [List.cons_append, List.length_cons, List.length_append]
    omega
  unfold leadingComment? at h
  split at h
  · next cs =>
    obtain ⟨rfl, rfl⟩ := Prod.mk.inj (Option.some.inj h)
    have hlist : '/' :: '/' :: cs = '/' :: '/' :: cs.takeWhile (· ≠ '\n') ++
      cs.dropWhile (· ≠ '\n') := by simp
    exact ⟨hlist, hrest hlist⟩
  · next cs =>
    split at h
    · next inner behind hcut =>
      obtain ⟨rfl, rfl⟩ := Prod.mk.inj (Option.some.inj h)
      have hlist : '/' :: '*' :: cs = '/' :: '*' :: (inner ++ ['*', '/']) ++ behind := by
        rw [Text.append_of_cutAt hcut]
        simp
      exact ⟨hlist, hrest hlist⟩
    · obtain ⟨rfl, rfl⟩ := Prod.mk.inj (Option.some.inj h)
      exact ⟨by simp, by simp⟩
  · cases h

inductive Part where
  | code (c : Char)
  | comment (text : List Char)
deriving DecidableEq, Repr

def parts : List Char → List Part
  | [] => []
  | c :: cs =>
    match _h : leadingComment? (c :: cs) with
    | some (comment, rest) => .comment comment :: parts rest
    | none => .code c :: parts cs
termination_by list => list.length
decreasing_by
  · exact (append_of_leadingComment? _h).2
  · simp

namespace Part

def text : Part → List Char
  | code c => [c]
  | comment text => text

def masked : Part → List Char
  | code c => [c]
  | comment text => text.flatMap cover

def flags : Part → List Bool
  | code c => List.replicate c.utf8Size false
  | comment text => List.replicate (Text.byteLength text) true

end Part

def commentFlags (list : List Char) : List Bool := (parts list).flatMap Part.flags

/-- The byte at that place belongs to a comment of the list. -/
def InComment (list : List Char) (place : Nat) : Prop := (commentFlags list)[place]? = some true

instance (list : List Char) (place : Nat) : Decidable (InComment list place) :=
  inferInstanceAs (Decidable (_ = _))

def coverByte (b : UInt8) : UInt8 := if b = 10 then 10 else 32

section Parts

theorem parts_of_leadingComment? {list comment rest : List Char}
    (h : leadingComment? list = some (comment, rest)) :
    parts list = .comment comment :: parts rest := by
  cases list with
  | nil => cases h
  | cons c cs =>
    rw [parts]
    split
    · next found heq =>
      obtain ⟨rfl, rfl⟩ := Prod.mk.inj (Option.some.inj (heq.symm.trans h))
      rfl
    · next heq => cases heq.symm.trans h

theorem flatMap_text_parts (list : List Char) : (parts list).flatMap Part.text = list := by
  fun_induction parts list with
  | case1 => rfl
  | case2 c cs comment rest h ih =>
    rw [List.flatMap_cons, ih, (append_of_leadingComment? h).1]
    rfl
  | case3 c cs h ih =>
    rw [List.flatMap_cons, ih]
    rfl

theorem maskFrom_lineComment (cs : List Char) :
    maskFrom .lineComment cs =
      (cs.takeWhile (· ≠ '\n')).flatMap cover ++ maskFrom .code (cs.dropWhile (· ≠ '\n')) := by
  induction cs with
  | nil => rfl
  | cons c cs ih =>
    by_cases hc : c = '\n'
    · subst hc
      rfl
    · rw [maskFrom, if_neg hc, ih, List.takeWhile_cons_of_pos (by simpa using hc),
        List.flatMap_cons,
        List.dropWhile_cons_of_pos (by simpa using hc), List.append_assoc]

/-- A star in front counts only if a slash follows at once. -/
theorem maskFrom_blockComment {starred : Bool} {cs : List Char}
    (h : starred = true → cs.head? ≠ some '/') :
    maskFrom (.blockComment starred) cs = maskFrom (.blockComment false) cs := by
  cases cs with
  | nil => rfl
  | cons c cs =>
    have hc : ¬ (starred = true ∧ c = '/') := by
      rintro ⟨hstarred, rfl⟩
      exact h hstarred rfl
    rw [maskFrom, maskFrom, if_neg hc, if_neg (by simp)]

theorem maskFrom_block_cons {c : Char} {cs : List Char}
    (h : ¬ ['*', '/'].isPrefixOf (c :: cs) = true) :
    maskFrom (.blockComment false) (c :: cs) = cover c ++ maskFrom (.blockComment false) cs := by
  have hstar : decide (c = '*') = true → cs.head? ≠ some '/' := by
    intro hc hhead
    obtain ⟨cs, rfl⟩ : ∃ rest, cs = '/' :: rest := by
      cases cs with
      | nil => cases hhead
      | cons d rest => exact ⟨rest, by rw [Option.some.inj hhead]⟩
    rw [of_decide_eq_true hc] at h
    exact h rfl
  rw [maskFrom, if_neg (by simp), maskFrom_blockComment hstar]

theorem maskFrom_block_of_cutAt {cs inner rest : List Char}
    (h : Text.cutAt ['*', '/'] cs = some (inner, rest)) :
    maskFrom (.blockComment false) cs = (inner ++ ['*', '/']).flatMap cover ++
      maskFrom .code rest := by
  induction cs generalizing inner with
  | nil => cases h
  | cons c cs ih =>
    rw [Text.cutAt] at h
    split at h
    · next hstarts =>
      obtain ⟨rfl, rfl⟩ := Prod.mk.inj (Option.some.inj h)
      obtain ⟨rest, hrest⟩ := List.isPrefixOf_iff_prefix.1 hstarts
      rw [← hrest, List.drop_left]
      simp [maskFrom]
    · next hstarts =>
      obtain ⟨⟨before, behind⟩, hcut, heq⟩ := Option.map_eq_some_iff.1 h
      obtain ⟨rfl, rfl⟩ := Prod.mk.inj heq
      rw [maskFrom_block_cons hstarts, ih hcut, List.cons_append, List.flatMap_cons,
        List.append_assoc]

theorem maskFrom_block_of_cutAt_eq_none {cs : List Char} (h : Text.cutAt ['*', '/'] cs = none) :
    maskFrom (.blockComment false) cs = cs.flatMap cover := by
  induction cs with
  | nil => rfl
  | cons c cs ih =>
    rw [Text.cutAt] at h
    split at h
    · cases h
    · next hstarts =>
        rw [maskFrom_block_cons hstarts, ih (Option.map_eq_none_iff.1 h), List.flatMap_cons]

theorem mask_of_leadingComment? {list comment rest : List Char}
    (h : leadingComment? list = some (comment, rest)) :
    mask list = comment.flatMap cover ++ mask rest := by
  unfold leadingComment? at h
  split at h
  · next cs =>
    obtain ⟨rfl, rfl⟩ := Prod.mk.inj (Option.some.inj h)
    rw [mask, maskFrom, maskFrom_lineComment]
    rfl
  · next cs =>
    rw [mask, maskFrom]
    split at h
    · next inner behind hcut =>
      obtain ⟨rfl, rfl⟩ := Prod.mk.inj (Option.some.inj h)
      rw [maskFrom_block_of_cutAt hcut]
      rfl
    · next hcut =>
      obtain ⟨rfl, rfl⟩ := Prod.mk.inj (Option.some.inj h)
      rw [maskFrom_block_of_cutAt_eq_none hcut, mask, maskFrom, List.append_nil]
      rfl
  · cases h

theorem mask_of_leadingComment?_eq_none {c : Char} {cs : List Char}
    (h : leadingComment? (c :: cs) = none) :
    mask (c :: cs) = c :: mask cs := by
  unfold leadingComment? at h
  split at h
  · cases h
  · split at h
    · cases h
    · cases h
  · next hline hblock =>
    rw [mask, maskFrom]
    · rfl
    · rintro rest rfl rfl
      exact hline rest rfl
    · rintro rest rfl rfl
      exact hblock rest rfl

theorem mask_eq_flatMap (list : List Char) : mask list = (parts list).flatMap Part.masked := by
  fun_induction parts list with
  | case1 => rfl
  | case2 c cs comment rest h ih =>
    rw [mask_of_leadingComment? h, ih, List.flatMap_cons]
    rfl
  | case3 c cs h ih =>
    rw [mask_of_leadingComment?_eq_none h, ih, List.flatMap_cons]
    rfl

end Parts

section Bytes

theorem utf8_cover (c : Char) : Text.utf8 (cover c) = (String.utf8EncodeChar c).map coverByte := by
  unfold cover
  split
  · next hc =>
    subst hc
    rfl
  · next hc =>
    have hspaces : ∀ n, Text.utf8 (List.replicate n ' ') = List.replicate n 32 := by
      intro n
      induction n with
      | zero => rfl
      | succ n ih =>
        rw [List.replicate_succ, List.replicate_succ, Text.utf8_cons, ih]
        rfl
    have hmap : ∀ b ∈ String.utf8EncodeChar c, coverByte b = 32 := by
      intro b hb
      refine if_neg fun hfeed => ?_
      exact Text.feed_not_mem_utf8EncodeChar hc (hfeed ▸ hb)
    rw [hspaces, ← String.length_utf8EncodeChar]
    exact (List.eq_replicate_iff.2 ⟨by simp, by simpa using hmap⟩).symm

def maskByte (inside : Bool) (b : UInt8) : UInt8 := if inside then coverByte b else b

theorem length_flags (part : Part) : part.flags.length = (Text.utf8 part.text).length := by
  rw [Text.length_utf8]
  cases part <;> simp [Part.flags, Part.text]

theorem utf8_masked (part : Part) :
    Text.utf8 part.masked = List.zipWith maskByte part.flags (Text.utf8 part.text) := by
  have hzip : ∀ inside (bytes : List UInt8),
      List.zipWith maskByte (List.replicate bytes.length inside) bytes =
        bytes.map (maskByte inside) := by
    intro inside bytes
    induction bytes with
    | nil => rfl
    | cons b bytes ih =>
      rw [List.length_cons, List.replicate_succ, List.zipWith_cons_cons, ih, List.map_cons]
  cases part with
  | code c =>
    have hlength : (Text.utf8 [c]).length = c.utf8Size := by rw [Text.length_utf8]; rfl
    have hself : (Text.utf8 [c]).map (maskByte false) = Text.utf8 [c] := List.map_id _
    rw [Part.flags, Part.masked, Part.text, ← hlength, hzip, hself]
  | comment text =>
    rw [Part.flags, Part.masked, Part.text, ← Text.length_utf8, hzip]
    induction text with
    | nil => rfl
    | cons c text ih =>
      rw [List.flatMap_cons, Text.utf8_append, ih, utf8_cover, Text.utf8_cons, List.map_append]
      rfl

theorem utf8_mask (list : List Char) :
    (commentFlags list).length = (Text.utf8 list).length ∧
      Text.utf8 (mask list) = List.zipWith maskByte (commentFlags list) (Text.utf8 list) := by
  have hparts : ∀ ps : List Part, (ps.flatMap Part.flags).length =
      (Text.utf8 (ps.flatMap Part.text)).length ∧
      Text.utf8 (ps.flatMap Part.masked) =
        List.zipWith maskByte (ps.flatMap Part.flags) (Text.utf8 (ps.flatMap Part.text)) := by
    intro ps
    induction ps with
    | nil => exact ⟨rfl, rfl⟩
    | cons part ps ih =>
      simp only [List.flatMap_cons, Text.utf8_append, List.length_append]
      rw [ih.1, ih.2, length_flags, utf8_masked, List.zipWith_append (length_flags part)]
      exact ⟨rfl, rfl⟩
  have hlist := hparts (parts list)
  rwa [flatMap_text_parts, ← mask_eq_flatMap] at hlist

theorem byteLength_mask (list : List Char) : Text.byteLength
    (mask list) = Text.byteLength list := by
  obtain ⟨hlength, hmask⟩ := utf8_mask list
  rw [← Text.length_utf8, ← Text.length_utf8, hmask, List.length_zipWith, hlength, Nat.min_self]

theorem getElem?_utf8_mask (list : List Char) (p : Nat) :
    (Text.utf8 (mask list))[p]? =
      if InComment list p then (Text.utf8 list)[p]?.map coverByte else (Text.utf8 list)[p]? := by
  obtain ⟨hlength, hmask⟩ := utf8_mask list
  rw [hmask, List.getElem?_zipWith]
  by_cases hp : p < (Text.utf8 list).length
  · have hflag : (commentFlags list)[p]? = some (commentFlags list)[p] :=
      List.getElem?_eq_getElem (hlength ▸ hp)
    have hiff : InComment list p ↔ (commentFlags list)[p] = true := by
      rw [InComment, hflag, Option.some.injEq]
    rw [if_congr hiff rfl rfl, hflag, List.getElem?_eq_getElem hp]
    cases (commentFlags list)[p] <;> rfl
  · rw [List.getElem?_eq_none (Nat.not_lt.1 hp)]
    cases (commentFlags list)[p]? <;> simp

theorem feed_mask_iff (list : List Char) (p : Nat) :
    (Text.utf8 (mask list))[p]? = some 10 ↔ (Text.utf8 list)[p]? = some 10 := by
  rw [getElem?_utf8_mask]
  split
  · cases (Text.utf8 list)[p]? with
    | none => simp
    | some b => by_cases hb : b = 10 <;> simp [coverByte, hb]
  · exact Iff.rfl

theorem blank_of_inComment {list : List Char} {p : Nat} {b : UInt8} (hinside : InComment list p)
    (h : (Text.utf8 (mask list))[p]? = some b) : b = 10 ∨ b = 32 := by
  rw [getElem?_utf8_mask, if_pos hinside, Option.map_eq_some_iff] at h
  obtain ⟨a, -, rfl⟩ := h
  by_cases ha : a = 10
  · exact .inl (if_pos ha)
  · exact .inr (if_neg ha)

/-- A character of the masked list that is not blank is in no comment, with all of its bytes. -/
theorem not_inComment_of_solid {list front back : List Char} {c : Char}
    (h : mask list = front ++ c :: back)
    (hc : Text.isBlank c = false) {j : Nat} (hj : j < c.utf8Size) : ¬ InComment list
    (Text.byteLength front + j) := by
  intro hinside
  have hj' : j < (String.utf8EncodeChar c).length := by rwa [String.length_utf8EncodeChar]
  have hbyte : (Text.utf8 (mask list))[Text.byteLength front + j]? =
      some (String.utf8EncodeChar c)[j] := by
    rw [h, Text.utf8_append, Text.utf8_cons,
      List.getElem?_append_right (by rw [Text.length_utf8]; omega),
      Text.length_utf8, Nat.add_sub_cancel_left, List.getElem?_append_left hj',
        List.getElem?_eq_getElem hj']
  have hblank : (String.utf8EncodeChar c)[j].toNat = 10 ∨ (String.utf8EncodeChar c)[j].toNat = 32 :=
    (blank_of_inComment hinside hbyte).imp (congrArg UInt8.toNat) (congrArg UInt8.toNat)
  have hsolid : c.toNat ≠ 10 ∧ c.toNat ≠ 32 := by
    refine ⟨?_, ?_⟩ <;> intro heq <;> rw [Text.isBlank, heq] at hc <;> revert hc <;> decide
  -- a byte below 128 is the whole character, which would then be blank
  have hown := Text.toNat_of_mem_utf8EncodeChar (List.getElem_mem hj')
  omega

end Bytes

section Slices

def Item.IsSlice (item : Item) (list : List Char) (base : Nat) : Prop :=
  ∃ front back, list = front ++ (item.name ++ back) ∧ item.offset = base + Text.byteLength front

def IsBoundary (list : List Char) (place : Nat) : Prop :=
  ∃ front back, list = front ++ back ∧ Text.byteLength front = place

theorem Span.Shows.slice {s : Span} {list lead name after : List Char}
    (h : s.Shows list lead name after) :
    ∃ front part back, list = front ++ (part ++ back) ∧ Text.byteLength front = s.offset ∧
      Text.byteLength part = s.length ∧ slice list s.offset s.length = part ∧ part ≠ [] ∧
        Text.Tight part := by
  obtain ⟨front, part, back, rfl, hfront, hpart, -, hne, htight⟩ :=
    exists_append_of_mask h.mask_eq h.ne_nil h.tight
  rw [h.offset_eq] at hfront
  rw [h.length_eq] at hpart
  refine ⟨front, part, back, rfl, hfront, hpart, ?_, hne, htight⟩
  rw [NameList.slice, ← hfront, ← hpart, Text.dropBytes_byteLength]
  exact Text.takeBytes_byteLength part back

theorem Span.Shows.outside {s : Span} {list lead name after : List Char}
    (h : s.Shows list lead name after) :
    ¬ InComment list s.offset ∧ ¬ InComment list (s.offset + s.length - 1) := by
  have hmask := h.mask_eq
  rw [← h.offset_eq, ← h.length_eq]
  refine ⟨?_, ?_⟩
  · obtain ⟨c, rest, hname⟩ := List.exists_cons_of_ne_nil h.ne_nil
    rw [hname, List.cons_append] at hmask
    exact not_inComment_of_solid hmask (h.tight.head c (by rw [hname]; rfl)) c.utf8Size_pos
  · rcases List.eq_nil_or_concat name with hnil | ⟨init, d, hname⟩
    · exact absurd hnil h.ne_nil
    · have hd : Text.isBlank d = false := h.tight.last d (by rw [hname]; simp)
      have hpos := d.utf8Size_pos
      have hplace : Text.byteLength lead + Text.byteLength name - 1 =
          Text.byteLength (lead ++ init) + (d.utf8Size - 1) := by
        rw [hname]
        simp only [List.concat_eq_append, Text.byteLength_append, Text.byteLength_cons,
          Text.byteLength_nil]
        omega
      have hsplit : mask list = lead ++ init ++ d :: after := by
        rw [hmask, hname]
        simp
      rw [hplace]
      exact not_inComment_of_solid hsplit hd (by omega)

theorem pairwise_spansFrom (offset : Nat) (segments : List (List Char)) :
    (∀ s ∈ spansFrom offset segments, offset ≤ s.offset) ∧
      (spansFrom offset segments).Pairwise fun s next => s.offset < next.offset := by
  induction segments generalizing offset with
  | nil => exact ⟨by simp [spansFrom], List.Pairwise.nil⟩
  | cons segment rest ih =>
    obtain ⟨lead, trail, hsegment, hlead, -, -⟩ := nameOfSegment_append segment
    obtain ⟨hlater, hordered⟩ := ih (offset + Text.byteLength segment + 1)
    have hlength : (nameOfSegment segment).1 ≤ Text.byteLength segment := by
      have hsum := congrArg Text.byteLength hsegment
      rw [Text.byteLength_append, hlead] at hsum
      omega
    have hrest : ∀ s ∈ spansFrom (offset + Text.byteLength segment + 1) rest,
        offset + (nameOfSegment segment).1 < s.offset := by
      intro s hs
      have hs := hlater s hs
      omega
    rw [spansFrom]
    dsimp only
    split
    · refine ⟨fun s hs => ?_, hordered⟩
      have hs := hrest s hs
      omega
    · refine ⟨fun s hs => ?_, List.pairwise_cons.2 ⟨hrest, hordered⟩⟩
      rcases List.mem_cons.1 hs with rfl | hs
      · exact Nat.le_add_right _ _
      · have hs := hrest s hs
        omega

theorem pairwise_quotedPathsFrom (base : Nat) (lines : List (List Char)) :
    (∀ item ∈ quotedPathsFrom base lines, base ≤ item.offset) ∧
      (quotedPathsFrom base lines).Pairwise fun item next => item.offset < next.offset := by
  induction lines generalizing base with
  | nil => exact ⟨by simp [quotedPathsFrom], List.Pairwise.nil⟩
  | cons line rest ih =>
    obtain ⟨hlater, hordered⟩ := ih (base + Text.byteLength line + 1)
    rw [quotedPathsFrom]
    split
    · refine ⟨fun item hitem => ?_, hordered⟩
      have hitem := hlater item hitem
      omega
    · next lead path hpath =>
      obtain ⟨front, back, hline, hlead⟩ := append_of_quotedPath? hpath
      have hlength : lead ≤ Text.byteLength line := by
        rw [hlead, hline, Text.byteLength_append, Text.byteLength_cons]
        have hquote : '"'.utf8Size = 1 := rfl
        omega
      refine ⟨fun item hitem => ?_, List.pairwise_cons.2 ⟨fun item hitem => ?_, hordered⟩⟩
      · rcases List.mem_cons.1 hitem with rfl | hitem
        · exact Nat.le_add_right _ _
        · have hitem := hlater item hitem
          omega
      · have hitem := hlater item hitem
        dsimp only
        omega

theorem isSlice_of_mem_names {list : List Char} {base : Nat} {item : Item}
    (h : item ∈ names list base) :
    item.IsSlice list base := by
  obtain ⟨s, lead, name, after, rfl, hshows⟩ := exists_shows_of_mem_names h
  obtain ⟨front, part, back, hlist, hfront, -, hslice, -⟩ := hshows.slice
  refine ⟨front, back, ?_, ?_⟩
  · rw [Span.item, hslice]
    exact hlist
  · rw [hfront]
    rfl

theorem isSlice_of_mem_quotedPaths {list : List Char} {base : Nat} {item : Item}
    (h : item ∈ quotedPaths list base) :
    item.IsSlice list base := by
  obtain ⟨front, back, hlist, hoffset⟩ := of_mem_quotedPathsFrom h
  rw [Text.joinLines_splitLines] at hlist
  refine ⟨front ++ ['"'], back, by rw [hlist]; simp, ?_⟩
  rw [hoffset, Text.byteLength_append]
  rfl

end Slices

/-- Masking keeps the place of every byte and changes nothing outside comments. What is taken from a
list is a slice of it, cut where characters start and end, and a name starts and ends outside
comments and without blanks. -/
theorem mask_keeps_places_and_items_are_slices (list : List Char) (base : Nat) :
    (Text.byteLength (mask list) = Text.byteLength list ∧
      ∀ p : Nat, ((Text.utf8 (mask list))[p]? = some 10 ↔ (Text.utf8 list)[p]? = some 10) ∧
        (Text.utf8 (mask list))[p]? =
          if InComment list p then (Text.utf8 list)[p]?.map coverByte else (Text.utf8 list)[p]?) ∧
    (names list base = (spans list).map (Span.item list base) ∧
      ∀ s ∈ spans list, IsBoundary list s.offset ∧ IsBoundary list (s.offset + s.length)) ∧
    (∀ items ∈ [names list base, quotedPaths list base],
      (items.Pairwise fun item next => item.offset < next.offset) ∧ ∀ item ∈ items,
        item.IsSlice list base) ∧
    ∀ item ∈ names list base, item.name ≠ [] ∧ Text.Tight item.name ∧
      ¬ InComment list (item.offset - base) ∧
      ¬ InComment list (item.offset - base + Text.byteLength item.name - 1) := by
  refine ⟨⟨byteLength_mask list, fun p => ⟨feed_mask_iff list p, getElem?_utf8_mask list p⟩⟩,
    ⟨names_eq_map list base, fun s hs => ?_⟩, fun items hitems => ?_, fun item hitem => ?_⟩
  · obtain ⟨lead, name, after, hshows⟩ := exists_shows_of_mem_spans hs
    obtain ⟨front, part, back, hlist, hfront, hpart, -⟩ := hshows.slice
    refine ⟨⟨front, part ++ back, hlist, hfront⟩, front ++ part, back,
      by rw [hlist, List.append_assoc], ?_⟩
    rw [Text.byteLength_append, hfront, hpart]
  · simp only [List.mem_cons, List.not_mem_nil, or_false] at hitems
    rcases hitems with rfl | rfl
    · refine ⟨?_, fun item => isSlice_of_mem_names⟩
      rw [names_eq_map, List.pairwise_map]
      exact (pairwise_spansFrom 0 _).2.imp fun hlt => Nat.add_lt_add_left hlt base
    · exact ⟨(pairwise_quotedPathsFrom base _).2, fun item => isSlice_of_mem_quotedPaths⟩
  · obtain ⟨s, lead, name, after, rfl, hshows⟩ := exists_shows_of_mem_names hitem
    obtain ⟨front, part, back, -, -, hpart, hslice, hne, htight⟩ := hshows.slice
    have hoffset : (s.item list base).offset - base = s.offset :=
      Nat.add_sub_cancel_left base s.offset
    have hname : (s.item list base).name = part := hslice
    rw [hoffset, hname, hpart]
    exact ⟨hne, htight, hshows.outside⟩

/-- A comma and a character of two bytes in one comment, and a comma in another one. -/
def commentedList : List Char := "/*é,*/ a, // b,\n c as d".toList

theorem commentedList_slices :
    names commentedList 100 = [⟨['a'], 108⟩, ⟨['d'], 123⟩] ∧ InComment commentedList 3 ∧
      ¬ InComment commentedList 23 ∧ Item.IsSlice ⟨['d'], 123⟩ commentedList 100 ∧
        spans commentedList = [⟨8, 1⟩, ⟨23, 1⟩] ∧ IsBoundary commentedList 23 := by
  have hnames : names commentedList 100 = [⟨['a'], 108⟩, ⟨['d'], 123⟩] := by decide
  have hspans : spans commentedList = [⟨8, 1⟩, ⟨23, 1⟩] := by decide
  have hinside : InComment commentedList 3 := by
    have hfirst : leadingComment? commentedList =
      some ("/*é,*/".toList, " a, // b,\n c as d".toList) := by decide
    rw [InComment, commentFlags, parts_of_leadingComment? hfirst, List.flatMap_cons,
      List.getElem?_append_left (by decide)]
    decide
  have hlast : ⟨['d'], 123⟩ ∈ names commentedList 100 := by
    rw [hnames]
    exact List.mem_cons_of_mem _ List.mem_cons_self
  have hspan : ⟨23, 1⟩ ∈ spans commentedList := by
    rw [hspans]
    exact List.mem_cons_of_mem _ List.mem_cons_self
  obtain ⟨-, ⟨-, hbounds⟩, hslices, hends⟩ :=
    mask_keeps_places_and_items_are_slices commentedList 100
  exact ⟨hnames, hinside, (hends _ hlast).2.2.1, (hslices _ List.mem_cons_self).2 _ hlast, hspans,
    (hbounds _ hspan).1⟩

end DocGap.NameList
