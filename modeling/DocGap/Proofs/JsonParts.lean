import DocGap.Json.Reader
import DocGap.Text.Blank

/-!
# What readers take

A reader takes a part off the front of a text. It takes the same part off the front of every other
text that goes on in the same way, and fuel for each character of the part is enough for that. In
the part a backquote stands only inside quotes, and a control character only outside of them.
-/
namespace DocGap.Json

/-- Where a reader is with respect to quotes; behind a backslash one character is taken as it is. -/
inductive Region where
  | outside
  | inside
  | escaped
deriving DecidableEq, Repr

namespace Region

def step : Region → Char → Option Region
  | .outside, c => if c = '"' then some .inside else if c = '\x60' then none else some .outside
  | .inside, c =>
    if c = '"' then some .outside
    else if c = '\\' then some .escaped
    else if c.toNat < 0x20 then none
    else some .inside
  | .escaped, c => if c.toNat < 0x20 ∨ c = '\x60' then none else some .inside

def Leads (r : Region) (part : List Char) (s : Region) : Prop := part.foldlM step r = some s

theorem Leads.refl (r : Region) : r.Leads [] r := rfl

theorem leads_append_iff {r t : Region} {u v : List Char} :
    r.Leads (u ++ v) t ↔ ∃ s, r.Leads u s ∧ s.Leads v t := by
  rw [Leads, List.foldlM_append, Option.bind_eq_bind, Option.bind_eq_some_iff]
  rfl

theorem Leads.trans {r s t : Region} {u v : List Char} (hu : r.Leads u s) (hv : s.Leads v t) :
    r.Leads (u ++ v) t :=
  leads_append_iff.2 ⟨s, hu, hv⟩

theorem Leads.cons {r s t : Region} {c : Char} {v : List Char} (hc : r.step c = some s)
    (hv : s.Leads v t) :
    r.Leads (c :: v) t := by
  rw [Leads, List.foldlM_cons, hc]
  exact hv

theorem leads_outside {part : List Char} (h : ∀ c ∈ part, c ≠ '"' ∧ c ≠ '\x60') :
    outside.Leads part .outside := by
  induction part with
  | nil => exact .refl outside
  | cons c part ih =>
    obtain ⟨hc, hpart⟩ := List.forall_mem_cons.1 h
    exact .cons (by simp [step, hc]) (ih hpart)

theorem leads_of_blanks {blanks : List Char} (h : ∀ c ∈ blanks, Text.isBlank c = true) :
    outside.Leads blanks .outside := by
  refine leads_outside fun c hc => ?_
  have hblank := h c hc
  constructor <;> rintro rfl <;> exact absurd hblank (by decide)

end Region

section Strings

theorem prepend_eq_ok {c : Char} {r : Read (List Char)} {text rest : List Char}
    (h : prepend c r = .ok (text, rest)) :
    ∃ tail, text = c :: tail ∧ r = .ok (tail, rest) := by
  cases r with
  | error fault => cases h
  | ok found =>
    obtain ⟨rfl, rfl⟩ := Prod.mk.inj (Except.ok.inj h)
    exact ⟨found.1, rfl, rfl⟩

theorem step_of_hexValue? {c : Char} {n : Nat} (h : hexValue? c = some n) :
    Region.inside.step c = some .inside := by
  have hc : '0' ≤ c ∧ c ≤ '9' ∨ 'a' ≤ c ∧ c ≤ 'f' ∨ 'A' ≤ c ∧ c ≤ 'F' := by
    unfold hexValue? at h
    split at h
    · next hdigit =>
      simp only [Char.isDigit, Bool.and_eq_true, decide_eq_true_eq] at hdigit
      exact .inl hdigit
    · split at h
      · next hlower => exact .inr (.inl hlower)
      · split at h
        · next hupper => exact .inr (.inr hupper)
        · cases h
  simp only [Char.le_def, UInt32.le_iff_toNat_le] at hc
  have hval : c.toNat = c.val.toNat := rfl
  unfold Region.step
  dsimp only
  rw [if_neg, if_neg, if_neg]
  · simp at hc
    omega
  · rintro rfl
    revert hc
    decide
  · rintro rfl
    revert hc
    decide

theorem leads_of_unit? {a b c d : Char} {n : Nat} (h : unit? a b c d = some n) :
    Region.inside.Leads ['\\', 'u', a, b, c, d] .inside := by
  unfold unit? at h
  simp only [Option.bind_eq_bind, Option.bind_eq_some_iff] at h
  obtain ⟨w, ha, x, hb, y, hc, z, hd, -⟩ := h
  exact .cons rfl (.cons rfl (.cons (step_of_hexValue? ha) (.cons (step_of_hexValue? hb)
    (.cons (step_of_hexValue? hc) (.cons (step_of_hexValue? hd) (.refl _))))))

theorem step_escaped_of_simpleEscape? {c e : Char} (h : simpleEscape? c = some e) :
    Region.escaped.step c = some .inside := by
  unfold simpleEscape? at h
  split at h
  iterate 8 rfl
  cases h

theorem string_plain {mode : Mode} {c : Char} (hquote : c ≠ '"') (hback : c ≠ '\\')
    (hc : 0x20 ≤ c.toNat)
    (rest : List Char) : string mode (c :: rest) = prepend c (string mode rest) := by
  rw [string]
  · rw [if_neg (by omega)]
  all_goals simp [hquote, hback]

/-- From `cs` on, behind an opening quote, `text` is read from `used`, and it is read from there
whatever follows. -/
structure Quoted (mode : Mode) (text cs used rest : List Char) : Prop where
  append_eq : cs = used ++ rest
  leads : Region.inside.Leads used .outside
  last : used.getLast? = some '"'
  again : ∀ more, string mode (used ++ more) = .ok (text, more)

theorem exists_quoted_of_string {mode : Mode} {cs text rest : List Char}
    (h : string mode cs = .ok (text, rest)) :
    ∃ used, Quoted mode text cs used rest := by
  -- A part of the text that stands for one character leaves the reader inside the quotes.
  have hone : ∀ {c : Char} {part cs text : List Char}, Region.inside.Leads part .inside →
      (∀ more, string mode (part ++ more) = prepend c (string mode more)) →
      (∀ {text : List Char}, string mode cs = .ok (text, rest) →
        ∃ used, Quoted mode text cs used rest) →
      prepend c (string mode cs) = .ok (text, rest) →
        ∃ used, Quoted mode text (part ++ cs) used rest := by
    intro c part cs text hpart hread ih h
    obtain ⟨tail, rfl, htail⟩ := prepend_eq_ok h
    obtain ⟨used, rfl, hused, hlast, hagain⟩ := ih htail
    refine ⟨part ++ used, (List.append_assoc part used rest).symm, hpart.trans hused,
      ?_, fun more => ?_⟩
    · rw [List.getLast?_append, hlast]
      rfl
    · rw [List.append_assoc, hread, hagain]
      rfl
  fun_induction string mode cs generalizing text with
  | case2 cs =>
    obtain ⟨rfl, rfl⟩ := Prod.mk.inj (Except.ok.inj h)
    exact ⟨['"'], rfl, rfl, rfl, fun more => rfl⟩
  | case4 a b c d cs n hunit hpass ih =>
    refine hone (leads_of_unit? hunit) (fun more => ?_) ih h
    simp only [List.cons_append, List.nil_append, string, hunit, hpass, if_true]
  | case7 a b c d n hunit htake htrailing hleading e f g h' cs m hpair hsecond ih =>
    refine hone ((leads_of_unit? hunit).trans (leads_of_unit? hpair)) (fun more => ?_) ih h
    simp only [List.cons_append, List.nil_append, string, hunit, htake, htrailing, hleading,
      hpair, hsecond, if_true,
      if_false]
    rfl
  | case13 a b c d cs n hunit htake htrailing hleading ih =>
    refine hone (leads_of_unit? hunit) (fun more => ?_) ih h
    simp only [List.cons_append, List.nil_append, string, hunit, htake, htrailing,
      hleading, if_false]
    rfl
  | case17 c cs _ hunit e hescape ih =>
    have hc : c ≠ 'u' := hunit
    refine hone (.cons rfl (.cons (step_escaped_of_simpleEscape? hescape) (.refl _)))
      (fun more => ?_) ih h
    rw [List.cons_append, List.cons_append, List.nil_append, string, hescape]
    all_goals simp [hc]
  | case19 c cs hquote _ _ hend hfurther hc ih =>
    have hback : c ≠ '\\' := by
      intro hback
      cases cs with
      | nil => exact hend hback rfl
      | cons d cs => exact hfurther d cs hback rfl
    refine hone (.cons ?_ (.refl _)) (string_plain hquote hback (Nat.not_lt.1 hc)) ih h
    rw [Region.step, if_neg hquote, if_neg hback, if_neg hc]
  | _ => cases h

end Strings

/-- From `cs` on, `used` is read up to `rest`. It is read from other texts too, with fuel for each
character of it. What follows it there may be anything if `used` is closed by its last character,
and otherwise has to start like `rest`. -/
structure Took (closed : Bool) (reads : Nat → List Char → List Char → Prop)
    (cs used rest : List Char) : Prop where
  append_eq : cs = used ++ rest
  leads : Region.outside.Leads used .outside
  closes : closed = true → ∃ c, used.getLast? = some c ∧ Text.isBlank c = false
  again : ∀ fuel more, used.length ≤ fuel → (closed = true ∨ more.head? = rest.head?) →
    reads fuel (used ++ more) more

namespace Took

variable {closed shut : Bool} {reads goes : Nat → List Char → List Char → Prop}
  {cs mid rest used next : List Char}

theorem ne_nil (h : Took true reads cs used rest) : used ≠ [] := by
  obtain ⟨c, hc, -⟩ := h.closes rfl
  intro hnil
  rw [hnil] at hc
  cases hc

theorem weaken (h : Took true reads cs used rest) : Took false reads cs used rest :=
  ⟨h.append_eq, h.leads, nofun, fun fuel more hfuel _ => h.again fuel more hfuel (.inl rfl)⟩

theorem imp (h : Took closed reads cs used rest)
    (hgoes : ∀ {fuel : Nat} {text more : List Char}, reads fuel text more → goes fuel text more) :
    Took closed goes cs used rest :=
  ⟨h.append_eq, h.leads, h.closes, fun fuel more hfuel hmore =>
    hgoes (h.again fuel more hfuel hmore)⟩

theorem pos (h : Took closed reads cs used rest) (hne : used ≠ []) :
    Took closed (fun fuel text more => ∃ n, fuel = n + 1 ∧ reads fuel text more) cs used rest := by
  refine ⟨h.append_eq, h.leads, h.closes, fun fuel more hfuel hmore => ?_⟩
  have hpos := List.length_pos_iff.2 hne
  exact ⟨fuel - 1, by omega, h.again fuel more hfuel hmore⟩

theorem head?_eq (h : Took closed reads cs used rest) {more : List Char}
    (hmore : closed = true ∨ more.head? = rest.head?) : (used ++ more).head? = cs.head? := by
  rw [h.append_eq]
  cases used with
  | nil =>
    refine hmore.resolve_left fun hclosed => ?_
    obtain ⟨c, hc, -⟩ := h.closes hclosed
    cases hc
  | cons c used => rfl

theorem seq (h : Took closed reads cs used mid) (k : Took shut goes mid next rest) :
    Took shut (fun fuel text more => ∃ mid, reads fuel text mid ∧ goes fuel mid more) cs
      (used ++ next) rest := by
  refine ⟨?_, h.leads.trans k.leads, fun hshut => ?_, fun fuel more hfuel hmore => ?_⟩
  · rw [List.append_assoc, ← k.append_eq, ← h.append_eq]
  · obtain ⟨c, hc, hblank⟩ := k.closes hshut
    exact ⟨c, by rw [List.getLast?_append, hc]; rfl, hblank⟩
  · rw [List.length_append] at hfuel
    rw [List.append_assoc]
    exact ⟨next ++ more, h.again fuel _ (by omega) (.inr (k.head?_eq hmore)),
      k.again fuel more (by omega) hmore⟩

/-- If neither of two parts is empty, then one step less is enough for both. -/
theorem seq_succ (h : Took closed reads cs used mid) (hused : used ≠ [])
    (k : Took shut goes mid next rest)
    (hnext : next ≠ []) :
    Took shut (fun fuel text more => ∃ n mid, fuel = n + 1 ∧ reads n text mid ∧ goes n mid more) cs
      (used ++ next)
      rest := by
  obtain ⟨happend, hleads, hcloses, -⟩ := h.seq k
  refine ⟨happend, hleads, hcloses, fun fuel more hfuel hmore => ?_⟩
  have hpos := List.length_pos_iff.2 hused
  have hposNext := List.length_pos_iff.2 hnext
  rw [List.length_append] at hfuel
  rw [List.append_assoc]
  exact ⟨fuel - 1, next ++ more, by omega, h.again _ _ (by omega) (.inr (k.head?_eq hmore)),
    k.again _ more (by omega) hmore⟩

theorem char {c : Char} (hleads : Region.outside.step c = some .outside)
    (hblank : Text.isBlank c = false)
    (rest : List Char) : Took true (fun _ text more => text = c :: more) (c :: rest) [c] rest :=
  ⟨rfl, .cons hleads (.refl _), fun _ => ⟨c, rfl, hblank⟩, fun _ _ _ _ => rfl⟩

theorem quoted {mode : Mode} {text : List Char} (h : string mode cs = .ok (text, rest)) :
    ∃ used, Took true
      (fun _ front more => ∃ tail, front = '"' :: tail ∧ string mode tail = .ok (text, more))
      ('"' :: cs) used rest := by
  obtain ⟨used, rfl, hleads, hlast, hagain⟩ := exists_quoted_of_string h
  refine ⟨'"' :: used, rfl, .cons rfl hleads, fun _ =>
    ⟨'"', ?_, by decide⟩, fun fuel more _ _ => ?_⟩
  · rw [List.getLast?_cons, hlast]
    rfl
  · exact ⟨used ++ more, rfl, hagain more⟩

end Took

theorem skipBlanks_eq_cons {cs rest : List Char} {c : Char} (h : skipBlanks cs = c :: rest) :
    ∃ blanks, cs = blanks ++ c :: rest ∧ Region.outside.Leads blanks .outside ∧
      ∀ more, skipBlanks (blanks ++ c :: more) = c :: more := by
  have hc : isBlank c = false := by
    have hhead := List.head?_dropWhile_not isBlank cs
    rw [skipBlanks] at h
    rw [h] at hhead
    exact hhead
  have hall : ∀ b ∈ cs.takeWhile isBlank, isBlank b = true := List.all_eq_true.1 List.all_takeWhile
  refine ⟨cs.takeWhile isBlank, ?_, Region.leads_outside fun b hb => ?_, fun more => ?_⟩
  · rw [← h, skipBlanks, List.takeWhile_append_dropWhile]
  · have hblank := hall b hb
    constructor <;> rintro rfl <;> exact absurd hblank (by decide)
  · rw [skipBlanks, List.dropWhile_append_of_pos hall, List.dropWhile_cons_of_neg (by simp [hc])]

theorem exists_cons_of_head?_eq {cs ds tail : List Char} {c : Char} (h : cs.head? = ds.head?)
    (hcs : cs = c :: tail) :
    ∃ rest, ds = c :: rest := by
  rw [hcs, List.head?_cons] at h
  exact List.head?_eq_some_iff.1 h.symm

theorem took_blanks {cs rest : List Char} {c : Char} (h : skipBlanks cs = c :: rest) :
    ∃ used, Took false (fun _ text more => skipBlanks text = more ∧ more.head? = some c) cs
      used (c :: rest) := by
  obtain ⟨blanks, hcs, hleads, hagain⟩ := skipBlanks_eq_cons h
  refine ⟨blanks, hcs, hleads, nofun, fun fuel more _ hmore => ?_⟩
  obtain ⟨more, rfl⟩ := exists_cons_of_head?_eq (hmore.resolve_left nofun).symm rfl
  exact ⟨hagain more, rfl⟩

theorem took_mark {cs rest : List Char} {c : Char} (h : skipBlanks cs = c :: rest)
    (hleads : Region.outside.step c = some .outside) (hblank : Text.isBlank c = false) :
    ∃ used, Took true (fun _ text more => skipBlanks text = c :: more) cs used rest := by
  obtain ⟨blanks, htook⟩ := took_blanks h
  refine ⟨blanks ++ [c], (htook.seq (.char hleads hblank rest)).imp ?_⟩
  intro fuel text more hread
  obtain ⟨mid, ⟨hskip, -⟩, rfl⟩ := hread
  exact hskip

theorem Took.skip {closed : Bool} {reads : Nat → List Char → List Char → Prop}
    {cs used rest : List Char}
    (h : Took closed reads (skipBlanks cs) used rest) (hne : used ≠ []) :
    ∃ front, front ≠ [] ∧
      Took closed (fun fuel text more => reads fuel (skipBlanks text) more) cs front rest := by
  obtain ⟨c, tail, htail⟩ : ∃ c tail, skipBlanks cs = c :: tail :=
    List.exists_cons_of_ne_nil (by rw [h.append_eq]; simp [hne])
  obtain ⟨blanks, hblanks⟩ := took_blanks htail
  rw [← htail] at hblanks
  refine ⟨blanks ++ used, by simp [hne], (hblanks.seq h).imp ?_⟩
  intro fuel text more hread
  obtain ⟨mid, ⟨rfl, -⟩, hmid⟩ := hread
  exact hmid

section Scalars

theorem map_eq_ok {f : α → β} {r : Except Fault α} {b : β} (h : r.map f = .ok b) :
    ∃ a, r = .ok a ∧ f a = b := by
  cases r with
  | error fault => cases h
  | ok a => exact ⟨a, rfl, Except.ok.inj h⟩

theorem map_fst_eq_ok {r : Read α} {f : α → β} {b : β} {rest : List Char}
    (h : r.map (fun p => (f p.1, p.2)) = .ok (b, rest)) : ∃ a, r = .ok (a, rest) ∧ f a = b := by
  obtain ⟨⟨a, tail⟩, hr, heq⟩ := map_eq_ok h
  obtain ⟨rfl, rfl⟩ := Prod.mk.inj heq
  exact ⟨a, hr, rfl⟩

theorem bind_eq_ok {f : α → Except Fault β} {r : Except Fault α} {b : β} (h : (r >>= f) = .ok b) :
    ∃ a, r = .ok a ∧ f a = .ok b := by
  cases r with
  | error fault => cases h
  | ok a => exact ⟨a, rfl, h⟩

theorem took_digits {mode : Mode} {cs found rest : List Char}
    (h : digits mode cs = .ok (found, rest)) :
    found ≠ [] ∧ Took false
      (fun _ text more => digits mode text = .ok (found, more)) cs found rest := by
  unfold digits at h
  split at h
  · cases h
  · next hne =>
    obtain ⟨rfl, rfl⟩ := Prod.mk.inj (Except.ok.inj h)
    have hall : ∀ d ∈ cs.takeWhile Char.isDigit, d.isDigit = true :=
      List.all_eq_true.1 List.all_takeWhile
    have hrest := List.head?_dropWhile_not Char.isDigit cs
    refine ⟨hne, List.takeWhile_append_dropWhile.symm,
      Region.leads_outside fun d hd => ?_, nofun, ?_⟩
    · have hdigit := hall d hd
      constructor <;> rintro rfl <;> exact absurd hdigit (by decide)
    · intro fuel more _ hmore
      have hstop : more.takeWhile Char.isDigit = [] ∧ more.dropWhile Char.isDigit = more := by
        cases more with
        | nil => exact ⟨rfl, rfl⟩
        | cons m more =>
          have hhead := hmore.resolve_left nofun
          rw [← hhead] at hrest
          have hm : m.isDigit = false := hrest
          exact ⟨List.takeWhile_cons_of_neg (by simp [hm]),
            List.dropWhile_cons_of_neg (by simp [hm])⟩
      generalize cs.takeWhile Char.isDigit = found at *
      unfold digits
      rw [List.takeWhile_append_of_pos hall, List.dropWhile_append_of_pos hall, hstop.1,
        hstop.2, List.append_nil]
      cases found with
      | nil => exact absurd rfl hne
      | cons d found => rfl

theorem digits_ne_ok {mode : Mode} {c : Char} (hc : c.isDigit = false) {cs found rest : List Char} :
    digits mode (c :: cs) ≠ .ok (found, rest) := by
  unfold digits
  rw [List.takeWhile_cons_of_neg (by simp [hc])]
  nofun

theorem whole_eq_ok_iff {mode : Mode} {cs found rest : List Char} :
    whole mode cs = .ok (found, rest) ↔
      digits mode cs = .ok (found, rest) ∧ ∀ d ds, found ≠ '0' :: d :: ds := by
  unfold whole
  split
  · next d ds tail hdigits =>
    rw [hdigits]
    simp only [reduceCtorEq, Except.ok.injEq, Prod.mk.injEq, false_iff, not_and]
    intro heq hzero
    exact hzero d ds heq.1.symm
  · next hzero => exact ⟨fun h => ⟨h, fun d ds heq => hzero d ds rest (heq ▸ h)⟩, fun h => h.1⟩

theorem took_whole {mode : Mode} {cs found rest : List Char}
    (h : whole mode cs = .ok (found, rest)) :
    found ≠ [] ∧ Took false
      (fun _ text more => whole mode text = .ok (found, more)) cs found rest := by
  obtain ⟨hdigits, hzero⟩ := whole_eq_ok_iff.1 h
  obtain ⟨hne, htook⟩ := took_digits hdigits
  exact ⟨hne, htook.imp fun hread => whole_eq_ok_iff.2 ⟨hread, hzero⟩⟩

theorem took_fraction {mode : Mode} {cs rest : List Char} {found : Option (List Char)}
    (h : fraction mode cs = .ok (found, rest)) :
    ∃ used, Took false
      (fun _ text more => fraction mode text = .ok (found, more)) cs used rest := by
  unfold fraction at h
  split at h
  · next tail =>
    obtain ⟨ds, hdigits, rfl⟩ := map_fst_eq_ok h
    obtain ⟨-, htook⟩ := took_digits hdigits
    refine ⟨_, ((Took.char rfl (by decide) tail).seq htook).imp ?_⟩
    intro fuel text more hread
    obtain ⟨mid, rfl, hmid⟩ := hread
    rw [fraction, hmid]
    rfl
  · next hpoint =>
    obtain ⟨rfl, rfl⟩ := Prod.mk.inj (Except.ok.inj h)
    refine ⟨[], rfl, .refl _, nofun, fun fuel more _ hmore => ?_⟩
    rw [List.nil_append, fraction]
    intro tail htail
    obtain ⟨tail', htail'⟩ := exists_cons_of_head?_eq (hmore.resolve_left nofun) htail
    exact hpoint tail' htail'

theorem took_exponent {mode : Mode} {cs rest : List Char} {found : Option (Bool × List Char)}
    (h : exponent mode cs = .ok (found, rest)) :
    ∃ used, Took false
      (fun _ text more => exponent mode text = .ok (found, more)) cs used rest := by
  cases cs with
  | nil =>
    obtain ⟨rfl, rfl⟩ := Prod.mk.inj (Except.ok.inj h)
    refine ⟨[], rfl, .refl _, nofun, fun fuel more _ hmore => ?_⟩
    obtain rfl : more = [] := by simpa using hmore
    rfl
  | cons c cs =>
    have hdigits : ∀ {tail : List Char} {sign : Bool},
        (digits mode tail).map (fun p => (some (sign, p.1), p.2)) = .ok (found, rest) →
        ∃ used, Took false
          (fun _ text more => (digits mode text).map (fun p => (some (sign, p.1), p.2)) =
          .ok (found, more)) tail used rest := by
      intro tail sign hmap
      obtain ⟨ds, hdigits, rfl⟩ := map_fst_eq_ok (f := fun ds => some (sign, ds)) hmap
      refine ⟨ds, (took_digits hdigits).2.imp ?_⟩
      intro fuel text more hread
      rw [hread]
      rfl
    unfold exponent at h
    dsimp only at h
    split at h
    · next hletter =>
      have hc : Region.outside.step c = some .outside ∧ Text.isBlank c = false := by
        rcases hletter with rfl | rfl <;> decide
      have hfirst := Took.char hc.1 hc.2 cs
      split at h
      · next tail =>
        obtain ⟨ds, htook⟩ := hdigits h
        refine ⟨_, (hfirst.seq ((Took.char rfl (by decide) tail).seq htook)).imp ?_⟩
        intro fuel text more hread
        obtain ⟨_, rfl, mid, rfl, hmid⟩ := hread
        exact (if_pos hletter).trans hmid
      · next tail =>
        obtain ⟨ds, htook⟩ := hdigits h
        refine ⟨_, (hfirst.seq ((Took.char rfl (by decide) tail).seq htook)).imp ?_⟩
        intro fuel text more hread
        obtain ⟨_, rfl, mid, rfl, hmid⟩ := hread
        exact (if_pos hletter).trans hmid
      · obtain ⟨ds, htook⟩ := hdigits h
        refine ⟨_, (hfirst.seq htook).imp ?_⟩
        intro fuel text more hread
        obtain ⟨mid, rfl, hmid⟩ := hread
        obtain ⟨p, hp, -⟩ := map_eq_ok hmid
        refine (if_pos hletter).trans ?_
        split
        · exact absurd hp (digits_ne_ok (by decide))
        · exact absurd hp (digits_ne_ok (by decide))
        · exact hmid
    · next hletter =>
      obtain ⟨rfl, rfl⟩ := Prod.mk.inj (Except.ok.inj h)
      refine ⟨[], rfl, .refl _, nofun, fun fuel more _ hmore => ?_⟩
      obtain ⟨tail, rfl⟩ := exists_cons_of_head?_eq (hmore.resolve_left nofun).symm rfl
      exact if_neg hletter

theorem took_number {mode : Mode} {negative : Bool} {cs rest : List Char} {parts : Parts}
    (h : number mode negative cs = .ok (parts, rest)) :
    ∃ used, used ≠ [] ∧ Took false
      (fun _ text more => number mode negative text = .ok (parts, more)) cs used rest := by
  obtain ⟨⟨w, ws⟩, hw, h⟩ := bind_eq_ok h
  obtain ⟨⟨f, fs⟩, hf, h⟩ := bind_eq_ok h
  obtain ⟨⟨e, es⟩, he, h⟩ := bind_eq_ok h
  dsimp only at h
  split at h
  · cases h
  · next hrange =>
    obtain ⟨rfl, rfl⟩ := Prod.mk.inj (Except.ok.inj h)
    obtain ⟨hne, hwhole⟩ := took_whole hw
    obtain ⟨fused, hfraction⟩ := took_fraction hf
    obtain ⟨eused, hexponent⟩ := took_exponent he
    refine ⟨_, ?_, (hwhole.seq (hfraction.seq hexponent)).imp ?_⟩
    · simp [hne]
    · intro fuel text more hread
      obtain ⟨ws, hw, fs, hf, he⟩ := hread
      simp only [number, hw, hf, he, bind, Except.bind]
      exact if_neg hrange

theorem literal_append {word cs rest : List Char} (h : literal word cs = .ok rest) :
    cs = word ++ rest ∧ ∀ more, literal word (word ++ more) = .ok more := by
  induction word generalizing cs with
  | nil => exact ⟨Except.ok.inj h, fun more => rfl⟩
  | cons w word ih =>
    cases cs with
    | nil => cases h
    | cons c cs =>
      rw [literal] at h
      split at h
      · next heq =>
        obtain ⟨rfl, hagain⟩ := ih h
        exact ⟨by rw [heq]; rfl, fun more => (if_pos rfl).trans (hagain more)⟩
      · cases h

theorem took_scalar {mode : Mode} {cs rest : List Char} {v : Value}
    (h : scalar mode cs = .ok (v, rest)) :
    ∃ used, used ≠ [] ∧
      Took false (fun _ text more => scalar mode text = .ok (v, more)) cs used rest := by
  -- A word is read letter by letter.
  have hword : ∀ {c : Char} {word cs : List Char} {w : Value},
      (literal word cs).map (w, ·) = .ok (v, rest) →
      (∀ more, scalar mode (c :: more) = (literal word more).map (w, ·)) →
        Region.outside.Leads (c :: word) .outside →
      ∃ used, used ≠ [] ∧ Took false (fun _ text more => scalar mode text = .ok (v, more))
        (c :: cs) used rest := by
    intro c word cs w h hread hleads
    obtain ⟨tail, htail, heq⟩ := map_eq_ok h
    obtain ⟨rfl, rfl⟩ := Prod.mk.inj heq
    obtain ⟨rfl, hagain⟩ := literal_append htail
    refine ⟨c :: word, List.cons_ne_nil c word, rfl, hleads, nofun, fun fuel more _ _ => ?_⟩
    rw [List.cons_append, hread, hagain]
    rfl
  unfold scalar at h
  split at h
  · exact hword h (fun more => rfl) rfl
  · exact hword h (fun more => rfl) rfl
  · exact hword h (fun more => rfl) rfl
  · next tail =>
    obtain ⟨parts, hnumber, rfl⟩ := map_fst_eq_ok h
    obtain ⟨used, hne, htook⟩ := took_number hnumber
    refine ⟨_, ?_, ((Took.char rfl (by decide) tail).seq htook).imp ?_⟩
    · simp
    · intro fuel text more hread
      obtain ⟨mid, rfl, hmid⟩ := hread
      rw [scalar, hmid]
      rfl
  · next tail =>
    obtain ⟨chars, hstring, rfl⟩ := map_fst_eq_ok h
    obtain ⟨used, htook⟩ := Took.quoted hstring
    refine ⟨used, htook.ne_nil, htook.weaken.imp ?_⟩
    intro fuel text more hread
    obtain ⟨mid, rfl, hmid⟩ := hread
    rw [scalar, hmid]
    rfl
  · next c tail hnull htrue hfalse hminus hquote =>
    split at h
    · next hdigit =>
      obtain ⟨parts, hnumber, rfl⟩ := map_fst_eq_ok h
      obtain ⟨used, hne, htook⟩ := took_number hnumber
      refine ⟨used, hne, htook.append_eq, htook.leads, nofun, fun fuel more hfuel hmore => ?_⟩
      have hagain := htook.again fuel more hfuel hmore
      obtain ⟨more', hmore'⟩ := exists_cons_of_head?_eq (htook.head?_eq hmore).symm rfl
      rw [hmore'] at hagain ⊢
      rw [scalar, if_pos hdigit, hagain]
      · rfl
      all_goals assumption
    · cases h
  · cases h

end Scalars

section Lists

theorem took_colon {cs rest : List Char} (h : colon cs = .ok rest) :
    ∃ used, Took true (fun _ text more => colon text = .ok more) cs used rest := by
  unfold colon at h
  split at h
  · cases h
  · next tail hskip =>
    obtain rfl := Except.ok.inj h
    obtain ⟨used, htook⟩ := took_mark hskip rfl (by decide)
    refine ⟨used, htook.imp ?_⟩
    intro fuel text more hread
    rw [colon, hread]
    rfl
  · cases h

/-- What follows an opening bracket or an item: the closing bracket, or an item that starts with a
character that may stand there. Items are divided by commas. -/
inductive Next (closer : Char) (starts : Char → Bool) (first : Bool) (cs : List Char) :
    Bool → List Char → Prop where
  | close {rest : List Char} (hskip : skipBlanks cs = closer :: rest) :
      Next closer starts first cs false rest
  | start {c : Char} {tail : List Char} (hfirst : first = true) (hskip : skipBlanks cs = c :: tail)
      (hc : c ≠ closer) :
      Next closer starts first cs true (c :: tail)
  | comma {c : Char} {tail behind : List Char} (hfirst : first = false)
      (hskip : skipBlanks cs = ',' :: behind)
      (hbehind : skipBlanks behind = c :: tail) (hc : starts c = true) :
      Next closer starts first cs true (c :: tail)

theorem nextItem_eq_ok_iff {first next : Bool} {cs rest : List Char} :
    nextItem first cs = .ok (next, rest) ↔ Next ']' (· != ']') first cs next rest := by
  constructor
  · intro h
    unfold nextItem at h
    split at h
    · cases h
    · next tail hskip =>
      obtain ⟨rfl, rfl⟩ := Prod.mk.inj (Except.ok.inj h)
      exact .close hskip
    · next c tail hc hskip =>
      split at h
      · next hfirst =>
        obtain ⟨rfl, rfl⟩ := Prod.mk.inj (Except.ok.inj h)
        exact .start hfirst hskip hc
      · next hfirst =>
        split at h
        · next hcomma =>
          subst hcomma
          cases hbehind : skipBlanks tail with
          | nil => rw [hbehind] at h; cases h
          | cons d ds =>
            rw [hbehind] at h
            split at h
            · next heq => cases heq
            · cases h
            · next hd =>
              obtain ⟨rfl, rfl⟩ := Prod.mk.inj (Except.ok.inj h)
              exact .comma (by simpa using hfirst) hskip hbehind
                (bne_iff_ne.2 fun heq => hd ds (by rw [heq]))
        · cases h
  · intro h
    unfold nextItem
    cases h with
    | close hskip => rw [hskip]; rfl
    | start hfirst hskip hc => simp [hskip, hfirst]
    | comma hfirst hskip hbehind hc => simp_all

theorem nextName_eq_ok_iff {first next : Bool} {cs rest : List Char} :
    nextName first cs = .ok (next, rest) ↔ Next '}' (fun _ => true) first cs next rest := by
  constructor
  · intro h
    unfold nextName at h
    split at h
    · cases h
    · next tail hskip =>
      obtain ⟨rfl, rfl⟩ := Prod.mk.inj (Except.ok.inj h)
      exact .close hskip
    · next c tail hc hskip =>
      split at h
      · next hfirst =>
        obtain ⟨rfl, rfl⟩ := Prod.mk.inj (Except.ok.inj h)
        exact .start hfirst hskip hc
      · next hfirst =>
        split at h
        · next hcomma =>
          subst hcomma
          cases hbehind : skipBlanks tail with
          | nil => rw [hbehind] at h; cases h
          | cons d ds =>
            rw [hbehind] at h
            obtain ⟨rfl, rfl⟩ := Prod.mk.inj (Except.ok.inj h)
            exact .comma (by simpa using hfirst) hskip hbehind rfl
        · cases h
  · intro h
    unfold nextName
    cases h with
    | close hskip => rw [hskip]; rfl
    | start hfirst hskip hc => simp [hskip, hfirst]
    | comma hfirst hskip hbehind hc => simp [hskip, hfirst, hbehind]

theorem took_next {closer : Char} {starts : Char → Bool} {first next : Bool} {cs rest : List Char}
    (hleads : Region.outside.step closer = some .outside) (hblank : Text.isBlank closer = false)
    (h : Next closer starts first cs next rest) :
    ∃ used, Took (!next)
      (fun _ text more => Next closer starts first text next more) cs used rest := by
  cases h with
  | close hskip =>
    obtain ⟨used, htook⟩ := took_mark hskip hleads hblank
    exact ⟨used, htook.imp .close⟩
  | start hfirst hskip hc =>
    obtain ⟨used, htook⟩ := took_blanks hskip
    refine ⟨used, htook.imp ?_⟩
    intro fuel text more hread
    obtain ⟨tail, rfl⟩ := List.head?_eq_some_iff.1 hread.2
    exact .start hfirst hread.1 hc
  | comma hfirst hskip hbehind hc =>
    obtain ⟨mark, hmark⟩ := took_mark hskip rfl (by decide)
    obtain ⟨used, htook⟩ := took_blanks hbehind
    refine ⟨mark ++ used, (hmark.seq htook).imp ?_⟩
    intro fuel text more hread
    obtain ⟨mid, htext, hmid, hhead⟩ := hread
    obtain ⟨tail, rfl⟩ := List.head?_eq_some_iff.1 hhead
    exact .comma hfirst htext hmid hc

theorem took_nextItem {first next : Bool} {cs rest : List Char}
    (h : nextItem first cs = .ok (next, rest)) :
    ∃ used, Took (!next)
      (fun _ text more => nextItem first text = .ok (next, more)) cs used rest := by
  obtain ⟨used, htook⟩ := took_next rfl (by decide) (nextItem_eq_ok_iff.1 h)
  exact ⟨used, htook.imp nextItem_eq_ok_iff.2⟩

theorem took_nextName {first next : Bool} {cs rest : List Char}
    (h : nextName first cs = .ok (next, rest)) :
    ∃ used, Took (!next)
      (fun _ text more => nextName first text = .ok (next, more)) cs used rest := by
  obtain ⟨used, htook⟩ := took_next rfl (by decide) (nextName_eq_ok_iff.1 h)
  exact ⟨used, htook.imp nextName_eq_ok_iff.2⟩

theorem took_nextMember {mode : Mode} {first : Bool} {cs rest : List Char}
    {name : Option (List Char)}
    (h : nextMember mode first cs = .ok (name, rest)) :
    ∃ used, Took true
      (fun _ text more => nextMember mode first text = .ok (name, more)) cs used rest := by
  unfold nextMember at h
  split at h
  · cases h
  · next hnext =>
    obtain ⟨rfl, rfl⟩ := Prod.mk.inj (Except.ok.inj h)
    obtain ⟨used, htook⟩ := took_nextName hnext
    refine ⟨used, htook.imp ?_⟩
    intro fuel text more hread
    rw [nextMember, hread]
  · next hnext =>
    obtain ⟨chars, hstring, rfl⟩ := map_fst_eq_ok h
    obtain ⟨lead, hlead⟩ := took_nextName hnext
    obtain ⟨used, htook⟩ := Took.quoted hstring
    refine ⟨lead ++ used, (hlead.seq htook).imp ?_⟩
    intro fuel text more hread
    obtain ⟨_, hname, tail, rfl, htail⟩ := hread
    rw [nextMember, hname]
    exact congrArg (Except.map fun p => (some p.1, p.2)) htail
  · cases h

end Lists

section Values

variable {mode : Mode} {fuel depth : Nat} {first : Bool} {cs rest : List Char} {v : Value}

/-- What the readers of values and of the rests of lists and objects take with this fuel, they take
from any text. -/
structure Steady (mode : Mode) (fuel : Nat) : Prop where
  value {depth : Nat} {cs rest : List Char} {v : Value}
    (h : value mode fuel depth cs = .ok (v, rest)) :
    ∃ used, used ≠ [] ∧ Took false
      (fun fuel text more => Json.value mode fuel depth text = .ok (v, more)) cs used rest
  items {depth : Nat} {first : Bool} {cs rest : List Char}
    (h : items mode fuel depth first cs = .ok rest) :
    ∃ used, Took true
      (fun fuel text more => Json.items mode fuel depth first text = .ok more) cs used rest
  members {depth : Nat} {first : Bool} {cs rest : List Char}
    (h : members mode fuel depth first cs = .ok rest) :
    ∃ used, Took true
      (fun fuel text more => Json.members mode fuel depth first text = .ok more) cs used rest

theorem Steady.value_succ (ih : Steady mode fuel)
    (h : Json.value mode (fuel + 1) depth cs = .ok (v, rest)) :
    ∃ used, used ≠ [] ∧
      Took false (fun fuel text more => Json.value mode fuel depth text = .ok (v, more))
        cs used rest := by
  rw [Json.value] at h
  split at h
  · next tail hskip =>
    split at h
    · cases h
    · next hdepth =>
      obtain ⟨behind, hitems, heq⟩ := map_eq_ok h
      obtain ⟨rfl, rfl⟩ := Prod.mk.inj heq
      obtain ⟨mark, hmark⟩ := took_mark hskip rfl (by decide)
      obtain ⟨used, htook⟩ := ih.items hitems
      refine ⟨_, ?_, ((hmark.seq_succ hmark.ne_nil htook htook.ne_nil).imp ?_).weaken⟩
      · simp [hmark.ne_nil]
      · intro fuel text more hread
        obtain ⟨n, mid, rfl, htext, hmid⟩ := hread
        rw [Json.value, htext]
        exact (if_neg hdepth).trans (congrArg (Except.map (Value.other, ·)) hmid)
  · next tail hskip =>
    split at h
    · cases h
    · next hdepth =>
      obtain ⟨behind, hmembers, heq⟩ := map_eq_ok h
      obtain ⟨rfl, rfl⟩ := Prod.mk.inj heq
      obtain ⟨mark, hmark⟩ := took_mark hskip rfl (by decide)
      obtain ⟨used, htook⟩ := ih.members hmembers
      refine ⟨_, ?_, ((hmark.seq_succ hmark.ne_nil htook htook.ne_nil).imp ?_).weaken⟩
      · simp [hmark.ne_nil]
      · intro fuel text more hread
        obtain ⟨n, mid, rfl, htext, hmid⟩ := hread
        rw [Json.value, htext]
        exact (if_neg hdepth).trans (congrArg (Except.map (Value.other, ·)) hmid)
  · obtain ⟨scalar, hscalar, htook⟩ := took_scalar h
    obtain ⟨used, hne, htook⟩ := htook.skip hscalar
    refine ⟨used, hne, (htook.pos hne).imp ?_⟩
    intro fuel text more hread
    obtain ⟨n, rfl, htext⟩ := hread
    rw [Json.value]
    split
    · next hskip => rw [hskip] at htext; cases htext
    · next hskip => rw [hskip] at htext; cases htext
    · exact htext

theorem Steady.items_succ (ih : Steady mode fuel)
    (h : Json.items mode (fuel + 1) depth first cs = .ok rest) :
    ∃ used, Took true (fun fuel text more => Json.items mode fuel depth first text = .ok more)
      cs used rest := by
  rw [Json.items] at h
  split at h
  · cases h
  · next tail hnext =>
    obtain rfl := Except.ok.inj h
    obtain ⟨used, htook⟩ := took_nextItem hnext
    refine ⟨used, (htook.pos htook.ne_nil).imp ?_⟩
    intro fuel text more hread
    obtain ⟨n, rfl, htext⟩ := hread
    rw [Json.items, htext]
  · next tail hnext =>
    split at h
    · cases h
    · next v behind hvalue =>
      obtain ⟨lead, hlead⟩ := took_nextItem hnext
      obtain ⟨item, hne, hitem⟩ := ih.value hvalue
      obtain ⟨used, htook⟩ := ih.items h
      refine ⟨_, ((hlead.seq hitem).seq_succ (by simp [hne]) htook htook.ne_nil).imp ?_⟩
      intro fuel text more hread
      obtain ⟨n, mid, rfl, ⟨start, hstart, hmid⟩, hmore⟩ := hread
      rw [Json.items, hstart]
      dsimp only
      rw [hmid]
      exact hmore

theorem Steady.members_succ (ih : Steady mode fuel)
    (h : Json.members mode (fuel + 1) depth first cs = .ok rest) :
    ∃ used, Took true (fun fuel text more => Json.members mode fuel depth first text = .ok more)
      cs used rest := by
  rw [Json.members] at h
  split at h
  · cases h
  · next tail hnext =>
    obtain rfl := Except.ok.inj h
    obtain ⟨used, htook⟩ := took_nextMember hnext
    refine ⟨used, (htook.pos htook.ne_nil).imp ?_⟩
    intro fuel text more hread
    obtain ⟨n, rfl, htext⟩ := hread
    rw [Json.members, htext]
  · next name tail hnext =>
    split at h
    · cases h
    · next start hcolon =>
      split at h
      · cases h
      · next v behind hvalue =>
        obtain ⟨lead, hlead⟩ := took_nextMember hnext
        obtain ⟨sign, hsign⟩ := took_colon hcolon
        obtain ⟨item, hne, hitem⟩ := ih.value hvalue
        obtain ⟨used, htook⟩ := ih.members h
        refine ⟨_, ((hlead.seq (hsign.seq hitem)).seq_succ (by simp [hne]) htook htook.ne_nil).imp
          ?_⟩
        intro fuel text more hread
        obtain ⟨n, mid, rfl, ⟨name', hname, start, hstart, hmid⟩, hmore⟩ := hread
        rw [Json.members, hname]
        dsimp only
        rw [hstart]
        dsimp only
        rw [hmid]
        exact hmore

theorem steady (mode : Mode) (fuel : Nat) : Steady mode fuel := by
  induction fuel with
  | zero => exact ⟨nofun, nofun, nofun⟩
  | succ fuel ih => exact ⟨ih.value_succ, ih.items_succ, ih.members_succ⟩

end Values

end DocGap.Json
