import DocGap.Payload.Reader
import DocGap.Proofs.JsonParts
import DocGap.Proofs.Lines

/-!
# What readers of payloads take

The readers of answers take what they take from the front of any text that goes on in the same way.
So a document is a payload between blanks, and the payload without the blanks is a document too.
-/
namespace DocGap.Payload

open Json (Took Fault Read Region)

theorem took_textValue {cs text rest : List Char} (h : textValue cs = .ok (text, rest)) :
    ∃ used, Took true (fun _ front more => textValue front = .ok (text, more)) cs used rest := by
  unfold textValue at h
  split at h
  · cases h
  · next tail hskip =>
    obtain ⟨quoted, hquoted⟩ := Took.quoted h
    rw [← hskip] at hquoted
    obtain ⟨used, -, htook⟩ := hquoted.skip hquoted.ne_nil
    refine ⟨used, htook.imp ?_⟩
    intro fuel front more hread
    obtain ⟨tail, hfront, htail⟩ := hread
    rw [textValue, hfront]
    exact htail
  · cases h

def line? : Json.Value → Option (Option Nat)
  | .null => some none
  | .number parts => parts.natural?.map some
  | .text _ => none
  | .other => none

theorem lineValue_eq_ok_iff {cs rest : List Char} {line : Option Nat} :
    lineValue cs = .ok (line, rest) ↔
      ∃ v, Json.scalar .take (Json.skipBlanks cs) = .ok (v, rest) ∧ line? v = some line := by
  unfold lineValue
  split
  · next hskip => simp [hskip, Json.scalar]
  · next hskip => simp [hskip, Json.scalar]
  · next hskip => simp [hskip, Json.scalar]
  · cases Json.scalar .take (Json.skipBlanks cs) with
    | error fault => simp
    | ok found =>
      obtain ⟨v, tail⟩ := found
      cases v with
      | null => grind [line?]
      | number parts => cases hparts : parts.natural? <;> grind [line?]
      | text chars => simp [line?]
      | other => simp [line?]

theorem took_lineValue {cs rest : List Char} {line : Option Nat}
    (h : lineValue cs = .ok (line, rest)) :
    ∃ used, used ≠ [] ∧
      Took false (fun _ text more => lineValue text = .ok (line, more)) cs used rest := by
  obtain ⟨v, hscalar, hline⟩ := lineValue_eq_ok_iff.1 h
  obtain ⟨scalar, hne, htook⟩ := Json.took_scalar hscalar
  obtain ⟨used, hne, htook⟩ := htook.skip hne
  exact ⟨used, hne, htook.imp fun hread => lineValue_eq_ok_iff.2 ⟨v, hread, hline⟩⟩

theorem took_readMember {fuel : Nat} {d e : Draft} {name : String} {cs rest : List Char}
    (h : readMember fuel d name cs = .ok (e, rest)) :
    ∃ used, used ≠ [] ∧
      Took false (fun fuel text more => readMember fuel d name text = .ok (e, more))
        cs used rest := by
  -- Behind the colon there is one value, and the draft is changed by it.
  have hmember : ∀ {α : Type} (inner : Nat → List Char → Read α) (finish : α → Draft),
      (∀ fuel cs, readMember fuel d name cs =
        (Json.colon cs).bind fun tail => (inner fuel tail).map fun p => (finish p.1, p.2)) →
      (∀ {cs rest : List Char} {a : α}, inner fuel cs = .ok (a, rest) →
        ∃ used, used ≠ [] ∧
          Took false (fun fuel text more => inner fuel text = .ok (a, more)) cs used rest) →
      ∃ used, used ≠ [] ∧
        Took false (fun fuel text more => readMember fuel d name text = .ok (e, more))
          cs used rest := by
    intro α inner finish hmember hinner
    rw [hmember] at h
    obtain ⟨tail, hcolon, h⟩ := Json.bind_eq_ok h
    obtain ⟨a, ha, rfl⟩ := Json.map_fst_eq_ok h
    obtain ⟨sign, hsign⟩ := Json.took_colon hcolon
    obtain ⟨used, hne, htook⟩ := hinner ha
    refine ⟨sign ++ used, by simp [hne], (hsign.seq htook).imp ?_⟩
    intro fuel text more hread
    obtain ⟨mid, htext, hmid⟩ := hread
    rw [hmember, htext]
    exact congrArg (Except.map fun p => (finish p.1, p.2)) hmid
  have htext : ∀ {cs rest text : List Char}, textValue cs = .ok (text, rest) →
      ∃ used, used ≠ [] ∧
        Took false (fun _ front more => textValue front = .ok (text, more)) cs used rest := by
    intro cs rest text htext
    obtain ⟨used, htook⟩ := took_textValue htext
    exact ⟨used, htook.ne_nil, htook.weaken⟩
  have hcases := h
  unfold readMember at hcases
  split at hcases
  · split at hcases
    · cases hcases
    · next hfile =>
      refine hmember (fun _ => textValue) (fun text => { d with file := some text })
        (fun fuel cs => ?_) htext
      refine (if_neg hfile).trans ?_
      cases Json.colon cs <;> rfl
  · split at hcases
    · cases hcases
    · next hname =>
      refine hmember (fun _ => textValue) (fun text => { d with name := some text })
        (fun fuel cs => ?_) htext
      refine (if_neg hname).trans ?_
      cases Json.colon cs <;> rfl
  · split at hcases
    · cases hcases
    · next hline =>
      refine hmember (fun _ => lineValue) (fun line => { d with line := some line })
        (fun fuel cs => ?_) took_lineValue
      refine (if_neg hline).trans ?_
      cases Json.colon cs <;> rfl
  · next hfile hname hline =>
    refine hmember (fun fuel => Json.value .take fuel answerDepth)
      (fun v => if name = "technical" then { d with technical := v :: d.technical }
        else if name = "simple" then { d with simple := v :: d.simple } else d) (fun fuel cs => ?_)
      (Json.steady .take fuel).value
    unfold readMember
    split
    · exact absurd rfl hfile
    · exact absurd rfl hname
    · exact absurd rfl hline
    · cases Json.colon cs with
      | error fault => rfl
      | ok tail =>
        refine congrArg (fun f => Except.map f (Json.value .take fuel answerDepth tail))
          (funext fun p => ?_)
        dsimp only
        split
        · rfl
        · split <;> rfl

theorem took_readAnswer {fuel : Nat} {first : Bool} {d : Draft}
    {cs rest : List Char} {answer : Answer}
    (h : readAnswer fuel first d cs = .ok (answer, rest)) :
    ∃ used, Took true (fun fuel text more => readAnswer fuel first d text = .ok (answer, more))
      cs used rest := by
  induction fuel generalizing first d cs with
  | zero => cases h
  | succ fuel ih =>
    rw [readAnswer] at h
    split at h
    · cases h
    · next tail hnext =>
      obtain ⟨found, hfinish, heq⟩ := Json.map_eq_ok h
      obtain ⟨rfl, rfl⟩ := Prod.mk.inj heq
      obtain ⟨used, htook⟩ := Json.took_nextMember hnext
      refine ⟨used, (htook.pos htook.ne_nil).imp ?_⟩
      intro fuel text more hread
      obtain ⟨n, rfl, htext⟩ := hread
      rw [readAnswer, htext]
      dsimp only
      rw [hfinish]
      rfl
    · next name tail hnext =>
      split at h
      · cases h
      · next e behind hmember =>
        obtain ⟨lead, hlead⟩ := Json.took_nextMember hnext
        obtain ⟨member, hne, hmember⟩ := took_readMember hmember
        obtain ⟨used, htook⟩ := ih h
        refine ⟨_, ((hlead.seq hmember).seq_succ (by simp [hne]) htook htook.ne_nil).imp ?_⟩
        intro fuel text more hread
        obtain ⟨n, mid, rfl, ⟨start, hstart, hmid⟩, hmore⟩ := hread
        rw [readAnswer, hstart]
        dsimp only
        rw [hmid]
        exact hmore

theorem took_readAnswers {fuel : Nat} {first : Bool} {cs rest : List Char} {answers : List Answer}
    (h : readAnswers fuel first cs = .ok (answers, rest)) :
    ∃ used, Took true (fun fuel text more => readAnswers fuel first text = .ok (answers, more))
      cs used rest := by
  induction fuel generalizing first cs answers with
  | zero => cases h
  | succ fuel ih =>
    rw [readAnswers] at h
    split at h
    · cases h
    · next tail hnext =>
      obtain ⟨rfl, rfl⟩ := Prod.mk.inj (Except.ok.inj h)
      obtain ⟨used, htook⟩ := Json.took_nextItem hnext
      refine ⟨used, (htook.pos htook.ne_nil).imp ?_⟩
      intro fuel text more hread
      obtain ⟨n, rfl, htext⟩ := hread
      rw [readAnswers, htext]
    · next tail hnext =>
      split at h
      · cases h
      · next answer behind hanswer =>
        obtain ⟨others, hothers, rfl⟩ := Json.map_fst_eq_ok h
        obtain ⟨lead, hlead⟩ := Json.took_nextItem hnext
        obtain ⟨item, hitem⟩ := took_readAnswer hanswer
        obtain ⟨used, htook⟩ := ih hothers
        have hbrace := Took.char (c := '{') rfl (by decide) tail
        refine ⟨_, ((hlead.seq (hbrace.seq hitem)).seq_succ (by simp) htook htook.ne_nil).imp ?_⟩
        intro fuel text more hread
        obtain ⟨n, mid, rfl, ⟨_, hstart, start, rfl, hmid⟩, hmore⟩ := hread
        simp [readAnswers, hstart, hmid, hmore, Except.map]
    · cases h

theorem took_answerList {fuel : Nat} {cs rest : List Char} {answers : List Answer}
    (h : answerList fuel cs = .ok (answers, rest)) :
    ∃ used, Took true
      (fun fuel text more => answerList fuel text = .ok (answers, more)) cs used rest := by
  unfold answerList at h
  split at h
  · cases h
  · next tail hskip =>
    obtain ⟨mark, hmark⟩ := Json.took_mark hskip rfl (by decide)
    obtain ⟨used, htook⟩ := took_readAnswers h
    refine ⟨_, (hmark.seq htook).imp ?_⟩
    intro fuel text more hread
    obtain ⟨mid, htext, hmid⟩ := hread
    rw [answerList, htext]
    exact hmid
  · cases h

theorem took_readObject {fuel : Nat} {first : Bool} {found : Option (List Answer)}
    {cs rest : List Char}
    {answers : List Answer} (h : readObject fuel first found cs = .ok (answers, rest)) :
    ∃ used, Took true (fun fuel text more => readObject fuel first found text = .ok (answers, more))
      cs used rest := by
  induction fuel generalizing first found cs with
  | zero => cases h
  | succ fuel ih =>
    rw [readObject] at h
    split at h
    · cases h
    · next tail hnext =>
      obtain ⟨rfl, rfl⟩ := Prod.mk.inj (Except.ok.inj h)
      obtain ⟨used, htook⟩ := Json.took_nextMember hnext
      refine ⟨used, (htook.pos htook.ne_nil).imp ?_⟩
      intro fuel text more hread
      obtain ⟨n, rfl, htext⟩ := hread
      rw [readObject, htext]
    · next name tail hnext =>
      obtain ⟨lead, hlead⟩ := Json.took_nextMember hnext
      split at h
      · next hentries =>
        split at h
        · cases h
        · next hfound =>
          split at h
          · cases h
          · next start hcolon =>
            split at h
            · cases h
            · next list behind hlist =>
              obtain ⟨sign, hsign⟩ := Json.took_colon hcolon
              obtain ⟨item, hitem⟩ := took_answerList hlist
              obtain ⟨used, htook⟩ := ih h
              refine ⟨_, ((hlead.seq (hsign.seq hitem)).seq_succ
                (by simp [hlead.ne_nil]) htook htook.ne_nil).imp ?_⟩
              intro fuel text more hread
              obtain ⟨n, mid, rfl, ⟨name', hname, start, hstart, hmid⟩, hmore⟩ := hread
              rw [readObject, hname]
              dsimp only
              rw [if_pos hentries, if_neg hfound, hstart]
              dsimp only
              rw [hmid]
              exact hmore
      · next hentries =>
        split at h
        · cases h
        · next start hcolon =>
          split at h
          · cases h
          · next v behind hvalue =>
            obtain ⟨sign, hsign⟩ := Json.took_colon hcolon
            obtain ⟨item, hne, hitem⟩ := (Json.steady .pass fuel).value hvalue
            obtain ⟨used, htook⟩ := ih h
            refine ⟨_,
              ((hlead.seq (hsign.seq hitem)).seq_succ (by simp [hne]) htook htook.ne_nil).imp ?_⟩
            intro fuel text more hread
            obtain ⟨n, mid, rfl, ⟨name', hname, start, hstart, hmid⟩, hmore⟩ := hread
            rw [readObject, hname]
            dsimp only
            rw [if_neg hentries, hstart]
            dsimp only
            rw [hmid]
            exact hmore

theorem took_readList {fuel : Nat} {cs rest : List Char} {answers : List Answer}
    (h : readList fuel cs = .ok (answers, rest)) :
    ∃ used, Took true
      (fun fuel text more => readList fuel text = .ok (answers, more)) cs used rest := by
  unfold readList at h
  split at h
  · cases h
  · next tail hnext =>
    obtain ⟨rfl, rfl⟩ := Prod.mk.inj (Except.ok.inj h)
    obtain ⟨used, htook⟩ := Json.took_nextItem hnext
    refine ⟨used, htook.imp ?_⟩
    intro fuel text more hread
    rw [readList, hread]
  · next tail hnext =>
    split at h
    · cases h
    · next list behind hlist =>
      split at h
      · cases h
      · next last hskip =>
        obtain ⟨rfl, rfl⟩ := Prod.mk.inj (Except.ok.inj h)
        obtain ⟨lead, hlead⟩ := Json.took_nextItem hnext
        obtain ⟨item, hitem⟩ := took_answerList hlist
        obtain ⟨mark, hmark⟩ := Json.took_mark hskip rfl (by decide)
        refine ⟨_, (hlead.seq (hitem.seq hmark)).imp ?_⟩
        intro fuel text more hread
        obtain ⟨start, hstart, mid, hmid, hmore⟩ := hread
        rw [readList, hstart]
        dsimp only
        rw [hmid]
        dsimp only
        rw [hmore]
        rfl
      · cases h

inductive Opens (fuel : Nat) (answers : List Answer) (rest : List Char) : List Char → Prop where
  | list {tail : List Char} (h : readList fuel tail = .ok (answers, rest)) :
      Opens fuel answers rest ('[' :: tail)
  | object {tail : List Char} (h : readObject fuel true none tail = .ok (answers, rest)) :
      Opens fuel answers rest ('{' :: tail)

theorem ofDocument?_eq_ok_iff {cs : List Char} {p : Payload} :
    ofDocument? cs = .ok p ↔
      ∃ rest, Opens (fuelFor cs) p.answers rest (Json.skipBlanks cs) ∧
        Json.skipBlanks rest = [] := by
  unfold ofDocument?
  dsimp only
  constructor
  · intro h
    split at h
    · cases h
    · next answers rest hfound =>
      split at h
      · next hblank =>
        cases h
        refine ⟨rest, ?_, List.isEmpty_iff.1 hblank⟩
        split at hfound
        · cases hfound
        · next hskip => rw [hskip]; exact .list hfound
        · next hskip => rw [hskip]; exact .object hfound
        · cases hfound
      · cases h
  · intro h
    obtain ⟨rest, hopens, hblank⟩ := h
    generalize Json.skipBlanks cs = text at hopens
    cases hopens with
    | list h => simp [h, hblank]
    | object h => simp [h, hblank]

theorem took_opens {fuel : Nat} {answers : List Answer} {cs rest : List Char}
    (h : Opens fuel answers rest cs) :
    ∃ used, Took true (fun fuel text more => Opens fuel answers more text) cs used rest := by
  cases h with
  | list h =>
    obtain ⟨used, htook⟩ := took_readList h
    refine ⟨_, ((Took.char (c := '[') rfl (by decide) _).seq htook).imp ?_⟩
    intro fuel text more hread
    obtain ⟨tail, rfl, htail⟩ := hread
    exact .list htail
  | object h =>
    obtain ⟨used, htook⟩ := took_readObject h
    refine ⟨_, ((Took.char (c := '{') rfl (by decide) _).seq htook).imp ?_⟩
    intro fuel text more hread
    obtain ⟨tail, rfl, htail⟩ := hread
    exact .object htail

theorem Opens.head?_eq {fuel : Nat} {answers : List Answer} {cs rest : List Char}
    (h : Opens fuel answers rest cs) :
    cs.head? = some '[' ∨ cs.head? = some '{' := by
  cases h with
  | list => exact .inl rfl
  | object => exact .inr rfl

/-- A document is its payload between blanks, and the payload alone is a document too. -/
structure Core (p : Payload) (cs lead core trail : List Char) : Prop where
  append_eq : cs = lead ++ (core ++ trail)
  lead_blank : ∀ c ∈ lead, Text.isBlank c = true
  trail_blank : ∀ c ∈ trail, Text.isBlank c = true
  ne_nil : core ≠ []
  tight : Text.Tight core
  leads : Region.outside.Leads core .outside
  reads : ofDocument? core = .ok p

theorem isBlank_of_jsonBlank {c : Char} (h : Json.isBlank c = true) : Text.isBlank c = true := by
  simp only [Json.isBlank, Bool.or_eq_true, decide_eq_true_eq] at h
  rcases h with ((rfl | rfl) | rfl) | rfl <;> decide

theorem exists_core {cs : List Char} {p : Payload} (h : ofDocument? cs = .ok p) :
    ∃ lead core trail, Core p cs lead core trail := by
  obtain ⟨rest, hopens, hrest⟩ := ofDocument?_eq_ok_iff.1 h
  obtain ⟨core, htook⟩ := took_opens hopens
  have halone : Opens (fuelFor core) p.answers [] core := by
    have hagain := htook.again (fuelFor core) [] (by rw [fuelFor]; omega) (.inl rfl)
    rwa [List.append_nil] at hagain
  have hhead : ∀ c ∈ core.head?, Json.isBlank c = false ∧ Text.isBlank c = false := by
    intro c hc
    rcases halone.head?_eq with hstart | hstart <;> rw [hstart] at hc <;> cases hc <;> decide
  have hskip : Json.skipBlanks core = core := by
    cases core with
    | nil => rfl
    | cons c core => exact List.dropWhile_cons_of_neg (by simp [(hhead c rfl).1])
  have hblank : rest.takeWhile Json.isBlank = rest := by
    have happend := @List.takeWhile_append_dropWhile _ Json.isBlank rest
    rwa [show rest.dropWhile Json.isBlank = [] from hrest, List.append_nil] at happend
  refine ⟨cs.takeWhile Json.isBlank, core, rest, ?_, ?_, ?_, htook.ne_nil,
    ⟨fun c hc => (hhead c hc).2, ?_⟩,
    htook.leads, ?_⟩
  · rw [← htook.append_eq, Json.skipBlanks, List.takeWhile_append_dropWhile]
  · exact fun c hc => isBlank_of_jsonBlank (List.all_eq_true.1 List.all_takeWhile c hc)
  · rw [← hblank]
    exact fun c hc => isBlank_of_jsonBlank (List.all_eq_true.1 List.all_takeWhile c hc)
  · intro c hc
    obtain ⟨d, hd, hblank⟩ := htook.closes rfl
    cases hd.symm.trans hc
    exact hblank
  · rw [ofDocument?_eq_ok_iff, hskip]
    exact ⟨[], halone, rfl⟩

theorem Core.leads_document {p : Payload} {cs lead core trail : List Char}
    (h : Core p cs lead core trail) :
    Region.outside.Leads cs .outside := by
  rw [h.append_eq]
  exact (Region.leads_of_blanks h.lead_blank).trans
    (h.leads.trans (Region.leads_of_blanks h.trail_blank))

end DocGap.Payload
