import DocGap.Proofs.PayloadParts

/-!
# Payloads in fenced parts

A text that holds the line that opens a fenced part is no document, so its fenced part decides what
is read. The part ends at the next fence. So a document in a fenced part is read if and only if no
fence stands in the document itself.
-/
namespace DocGap.Payload

open Json (Region)

def opener : List Char := fence ++ "json".toList

/-- The text of a line that opens a fenced part cannot stand in a document: outside quotes its
backquotes are not allowed, and inside quotes its line end is not. -/
theorem ofDocument?_ne_ok (front back : List Char) (p : Payload) :
    ofDocument? (front ++ (opener ++ '\n' :: back)) ≠ .ok p := by
  intro h
  obtain ⟨lead, core, trail, hcore⟩ := exists_core h
  obtain ⟨r, -, hr⟩ := Region.leads_append_iff.1 hcore.leads_document
  obtain ⟨s, hs, ht⟩ := Region.leads_append_iff.1 hr
  cases r <;> cases hs
  cases ht

theorem opener_eq : opener = ['\x60', '\x60', '\x60', 'j', 's', 'o', 'n'] := rfl

theorem not_fence_isInfix {cs part : List Char} (h : Text.contains fence cs = false)
    (hpart : part <:+: cs) :
    ¬ fence <+: part := by
  intro hstarts
  rw [Text.contains_iff_isInfix.2 (hstarts.isInfix.trans hpart)] at h
  cases h

/-- A fence that starts in `front` but does not end there would need backquotes behind `front`. -/
theorem cutAt_opener {front : List Char} (h : Text.contains fence front = false)
    (back : List Char) :
    Text.cutAt opener (front ++ (opener ++ back)) = some (front, back) := by
  refine Text.cutAt_append (by decide) back fun v hv hne hstarts => ?_
  have hfence : fence <+: v ++ (opener ++ back) := (List.prefix_append fence _).trans hstarts
  rw [opener_eq] at hstarts
  cases v with
  | nil => exact hne rfl
  | cons a v =>
    cases v with
    | nil => simp at hstarts
    | cons b v =>
      cases v with
      | nil => simp at hstarts
      | cons c v =>
        refine not_fence_isInfix h hv.isInfix
          (List.prefix_of_prefix_length_le hfence (List.prefix_append _ _) ?_)
        simp [fence]

theorem cutAt_fence {document : List Char} (h : Text.contains fence document = false)
    (back : List Char) :
    Text.cutAt fence (('\n' :: document ++ ['\n']) ++ (fence ++ back)) =
      some ('\n' :: document ++ ['\n'], back) := by
  refine Text.cutAt_append (by decide) back fun v hv hne hstarts => ?_
  obtain ⟨w, rfl, hw⟩ := (List.suffix_concat_iff.1 hv).resolve_left hne
  rw [List.append_assoc] at hstarts
  cases w with
  | nil => simp [fence] at hstarts
  | cons a w =>
    cases w with
    | nil => simp [fence] at hstarts
    | cons b w =>
      cases w with
      | nil => simp [fence] at hstarts
      | cons c w =>
        have hfence : fence <+: a :: b :: c :: w :=
          List.prefix_of_prefix_length_le hstarts (List.prefix_append _ _) (by simp [fence])
        rcases List.suffix_cons_iff.1 hw with heq | hw
        · rw [heq] at hfence
          simp [fence] at hfence
        · exact not_fence_isInfix h hw.isInfix hfence

def enclosed (front document back : String) : String :=
  front ++ "\x60\x60\x60json\n" ++ document ++ "\n\x60\x60\x60" ++ back

theorem toList_enclosed (front document back : String) :
    (enclosed front document back).toList =
      front.toList ++ (opener ++ '\n' :: (document.toList ++ '\n' :: (fence ++ back.toList))) := by
  simp [enclosed, opener, fence]

theorem read?_enclosed_of_cutAt {front document back : String}
    (hfront : Text.contains fence front.toList = false)
    {inner rest : List Char}
    (h : Text.cutAt fence ('\n' :: (document.toList ++ '\n' :: (fence ++ back.toList))) =
      some (inner, rest)) :
    read? (enclosed front document back) = ofDocument? (Text.trim inner) := by
  have hfenced : fenced? (enclosed front document back).toList = some (Text.trim inner) := by
    rw [toList_enclosed, fenced?, ← opener, cutAt_opener hfront]
    dsimp only
    rw [h]
    rfl
  unfold read?
  rw [hfenced]
  split
  · next p hwhole =>
    rw [toList_enclosed] at hwhole
    exact absurd hwhole (ofDocument?_ne_ok _ _ p)
  · rfl

/-- A part of a document that ends in front of a fence is no document: the fence stands inside
quotes, and the part leaves them open. -/
theorem ofDocument?_trim_ne_ok {document before after : List Char} {p : Payload}
    (h : ofDocument? document = .ok p)
    (hdocument : document = before ++ (fence ++ after)) (q : Payload) :
    ofDocument? (Text.trim ('\n' :: before)) ≠ .ok q := by
  intro hbefore
  obtain ⟨_, _, _, hcore⟩ := exists_core h
  obtain ⟨_, _, _, hpart⟩ := exists_core hbefore
  obtain ⟨lead, trail, hlist, hlead, htrail⟩ := Text.append_trim_append ('\n' :: before)
  have hopen : Region.outside.Leads ('\n' :: before) .outside := by
    rw [hlist]
    exact (Region.leads_of_blanks hlead).trans
      (hpart.leads_document.trans (Region.leads_of_blanks htrail))
  have hleads := hcore.leads_document
  rw [hdocument] at hleads
  obtain ⟨r, hr, hrest⟩ := Region.leads_append_iff.1 hleads
  cases hr.symm.trans (show Region.outside.Leads before .outside from hopen)
  cases hrest

theorem read?_enclosed_of_fence {front document : String}
    (hfront : Text.contains fence front.toList = false)
    {before after : List Char}
    (h : Text.cutAt fence document.toList = some (before, after)) (back : String) :
    read? (enclosed front document back) = ofDocument? (Text.trim ('\n' :: before)) := by
  have hlonger : Text.cutAt fence ('\n' :: (document.toList ++ '\n' :: (fence ++ back.toList))) =
      some ('\n' :: before, after ++ '\n' :: (fence ++ back.toList)) := by
    rw [Text.cutAt, Text.cutAt_append_right (by decide) h]
    rfl
  exact read?_enclosed_of_cutAt hfront hlonger

/-- A document in a fenced part is read as it is read alone, unless a fence stands in it. Then the
fenced part ends inside a text of the document, and nothing is read. -/
theorem enclosed_document_read {document : String} {p : Payload}
    (h : ofDocument? document.toList = .ok p)
    {front : String} (hfront : Text.contains fence front.toList = false) (back : String) :
    ∃ fault, read? (enclosed front document back) =
      if Text.contains fence document.toList then .error fault else .ok p := by
  cases hcut : Text.cutAt fence document.toList with
  | none =>
    have hcontains : Text.contains fence document.toList = false := by rw [Text.contains, hcut]; rfl
    obtain ⟨lead, core, trail, hcore⟩ := exists_core h
    have hinner := cutAt_fence hcontains back.toList
    have htrim : Text.trim ('\n' :: document.toList ++ ['\n']) = core := by
      have hlead : ∀ c ∈ '\n' :: lead, Text.isBlank c = true :=
        List.forall_mem_cons.2 ⟨by decide, hcore.lead_blank⟩
      have htrail : ∀ c ∈ trail ++ ['\n'], Text.isBlank c = true :=
        List.forall_mem_append.2 ⟨hcore.trail_blank, List.forall_mem_singleton.2 (by decide)⟩
      rw [← Text.trim_append hlead htrail hcore.ne_nil hcore.tight, hcore.append_eq]
      simp only [List.cons_append, List.append_assoc]
    rw [List.append_assoc, List.cons_append, List.singleton_append] at hinner
    rw [read?_enclosed_of_cutAt hfront hinner, htrim, hcontains, hcore.reads]
    exact ⟨.ended, rfl⟩
  | some parts =>
    obtain ⟨before, after⟩ := parts
    have hcontains : Text.contains fence document.toList = true := by rw [Text.contains, hcut]; rfl
    rw [read?_enclosed_of_fence hfront hcut back, hcontains]
    cases hpart : ofDocument? (Text.trim ('\n' :: before)) with
    | error fault => exact ⟨fault, rfl⟩
    | ok q => exact absurd hpart (ofDocument?_trim_ne_ok h (Text.append_of_cutAt hcut) q)

section Samples

/-- An answer whose text holds one backquote less than a fence. -/
def ticked : String :=
  " \x7b\"entries\": [\x7b\"file\": \"a.js\", \"name\": \"f\", \"technical\": \"\x60\x60x\"\x7d]\x7d\n"

theorem ticked_enclosed :
    ofDocument? ticked.toList = .ok ⟨[⟨⟨"a.js"⟩, "f", none, ⟨"\x60\x60x", ""⟩⟩]⟩ ∧
      Text.contains fence "\x60\x60".toList = false ∧
        read? (enclosed "\x60\x60" ticked "\x60\x60\x60") =
          .ok ⟨[⟨⟨"a.js"⟩, "f", none, ⟨"\x60\x60x", ""⟩⟩]⟩ := by
  have hdocument : ofDocument? ticked.toList =
      .ok ⟨[⟨⟨"a.js"⟩, "f", none, ⟨"\x60\x60x", ""⟩⟩]⟩ := by
    rw [ticked, String.toList_ofList]
    rfl
  have hfront : Text.contains fence "\x60\x60".toList = false := by decide
  have hcontains : Text.contains fence ticked.toList = false := by
    rw [ticked, String.toList_ofList]
    decide
  obtain ⟨fault, hread⟩ := enclosed_document_read hdocument hfront "\x60\x60\x60"
  rw [hcontains] at hread
  exact ⟨hdocument, hfront, hread⟩

/-- An answer whose text holds a code sample in fences of its own. -/
def sampled : String :=
  "\x7b\"entries\":[\x7b\"file\":\"a.js\",\"name\":\"f\",\"technical\":\"\x60\x60\x60x\x60\x60\x60\"\x7d]\x7d"

theorem sampled_refused :
    ofDocument? sampled.toList = .ok ⟨[⟨⟨"a.js"⟩, "f", none, ⟨"\x60\x60\x60x\x60\x60\x60", ""⟩⟩]⟩ ∧
      read? (enclosed "" sampled "") = .error .ended := by
  constructor
  · rw [sampled, String.toList_ofList]
    rfl
  · have hcut : Text.cutAt fence sampled.toList =
        some ("\x7b\"entries\":[\x7b\"file\":\"a.js\",\"name\":\"f\",\"technical\":\"".toList,
          "x\x60\x60\x60\"\x7d]\x7d".toList) := by
      rw [sampled, String.toList_ofList, String.toList_ofList, String.toList_ofList]
      decide
    rw [read?_enclosed_of_fence (by decide) hcut, String.toList_ofList]
    rfl

end Samples

end DocGap.Payload
