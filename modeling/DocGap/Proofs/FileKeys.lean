import DocGap.Proofs.Following

/-!
# Paths with one key

Paths have one key if they lead to the same entry, or if they lead to none and are the same path.
There is a third way: a path that leads nowhere has its own components for a key, and these can be
the way from the root to an entry. Such a path asks for a directory where a file is, so it ends with
a slash or a dot after the name of the file.
-/
namespace DocGap.Tree

def SameFile (t : Tree) (p q : Path) : Prop := Key.of p (t.resolve p).toOption = Key.of q
    (t.resolve q).toOption

/-- Both paths lead to the same entry, or they lead to none and are the same path. -/
def Repeats (t : Tree) (p q : Path) : Prop :=
  match t.resolve p, t.resolve q with
  | .ok a, .ok b => a = b
  | .error _, .error _ => p.same q = true
  | _, _ => False

/-- One of the paths leads to an entry, the other one is the way to it from the root and
leads nowhere. -/
def Clash (t : Tree) (p q : Path) : Prop :=
  match t.resolve p, t.resolve q with
  | .ok place, .error _ => q.components = Key.ofPlace place
  | .error _, .ok place => p.components = Key.ofPlace place
  | _, _ => False

theorem Key.ofPlace_inj {a b : Place} : Key.ofPlace a = Key.ofPlace b ↔ a = b := by
  refine ⟨fun h => ?_, congrArg _⟩
  exact (List.map_inj_right fun _ _ => Component.name.inj).1 (List.cons.inj h).2

section Keys

variable {t : Tree} {p q : Path} {place : Place}

theorem sameFile_iff : t.SameFile p q ↔ t.Repeats p q ∨ t.Clash p q := by
  unfold SameFile Repeats Clash
  cases t.resolve p with
  | error e =>
    cases t.resolve q with
    | error e' => simp [Key.of, Except.toOption, Path.same]
    | ok b => simp [Key.of, Except.toOption]
  | ok a =>
    cases t.resolve q with
    | error e' => simp [Key.of, Except.toOption, eq_comm]
    | ok b => simp [Key.of, Except.toOption, Key.ofPlace_inj]

theorem sameFile_iff_target? (hlinks : t.LinkFree) :
    t.SameFile p q ↔ Key.of p (t.target? p) = Key.of q (t.target? q) := by
  rw [SameFile, toOption_resolve hlinks, toOption_resolve hlinks]

theorem Repeats.of_resolve (hp : t.resolve p = .ok place) (hq : t.resolve q = .ok place) :
    t.Repeats p q := by
  rw [Repeats, hp, hq]

theorem Repeats.refl (t : Tree) (p : Path) : t.Repeats p p := by
  unfold Repeats
  cases t.resolve p <;> simp [Path.same]

theorem SameFile.repeats {other : Place} (h : t.SameFile p q) (hp : t.resolve p = .ok place)
    (hq : t.resolve q = .ok other) : t.Repeats p q := by
  rw [SameFile, hp, hq] at h
  rw [Repeats, hp, hq]
  exact Key.ofPlace_inj.1 h

end Keys

section Clashes

variable {t : Tree} {p q : Path} {here place : Place}

theorem follow_of_names {isDirectory : Place → Bool} {parts : List String}
    (hparts : parts.filterMap Component.ofPart? = place.map Component.name)
    (hdirs : ∀ n, isDirectory (here ++ place.take n) = true) :
    follow isDirectory here (parts.filterMap Step.ofPart?) = some (here ++ place) := by
  induction parts generalizing here place with
  | nil =>
    obtain rfl : place = [] := by simpa using hparts
    rw [List.append_nil]
    rfl
  | cons part parts ih =>
    have hhere : isDirectory here = true := by simpa using hdirs 0
    rw [List.filterMap_cons, Component.ofPart?] at hparts
    rw [List.filterMap_cons, Step.ofPart?]
    by_cases hempty : part = ""
    · rw [if_pos (.inl hempty)] at hparts
      rw [if_pos hempty]
      exact ih hparts hdirs
    by_cases hdot : part = "."
    · rw [if_pos (.inr hdot)] at hparts
      rw [if_neg hempty, if_pos hdot]
      dsimp only
      rw [follow, if_pos hhere]
      exact ih hparts hdirs
    rw [if_neg (by simp [hempty, hdot])] at hparts
    by_cases hup : part = ".."
    · rw [if_pos hup] at hparts
      cases place <;> cases hparts
    · rw [if_neg hup] at hparts
      rw [if_neg hempty, if_neg hdot, if_neg hup]
      dsimp only at hparts ⊢
      cases place with
      | nil => cases hparts
      | cons name place =>
        obtain ⟨hname, hrest⟩ := List.cons.inj hparts
        obtain rfl := Component.name.inj hname
        have hbelow : ∀ n, isDirectory (here ++ [part] ++ place.take n) = true := fun n => by
          simpa using hdirs (n + 1)
        rw [follow, if_pos hhere, Step.goFrom, ih hrest hbelow, ← List.append_cons]

theorem isRooted_of_components (h : p.components = Key.ofPlace place) :
    p.isRooted = true ∧ p.parts.filterMap Component.ofPart? = place.map Component.name := by
  unfold Path.components at h
  dsimp only at h
  split at h
  · next hrooted => exact ⟨hrooted, (List.cons.inj h).2⟩
  · split at h
    · cases h
    · -- no part is the root
      have hroot : Component.root ∈ p.parts.filterMap Component.ofPart? := h ▸ List.mem_cons_self
      obtain ⟨part, -, hpart⟩ := List.mem_filterMap.1 hroot
      unfold Component.ofPart? at hpart
      split at hpart
      · cases hpart
      · split at hpart <;> cases hpart

theorem resolve_of_components (hlinks : t.LinkFree) (hgrounded : Grounded t.isDirectoryAt place)
    (hplace : t.isDirectoryAt place = true) (h : p.components = Key.ofPlace place) :
    t.resolve p = .ok place := by
  obtain ⟨hrooted, hparts⟩ := isRooted_of_components h
  have hstart : startOf t.home p.spelling = [] := if_pos (of_decide_eq_true hrooted)
  have hempty : p.spelling ≠ "" := fun hempty => by simp [Path.isRooted, hempty] at hrooted
  have hdirs : ∀ n, t.isDirectoryAt ([] ++ place.take n) = true := by
    intro n
    by_cases hn : n < place.length
    · exact hgrounded n hn
    · rwa [List.nil_append, List.take_of_length_le (by omega)]
  have hfollow : follow t.isDirectoryAt [] (stepsOf p.spelling) = some place := by
    have hinner : follow t.isDirectoryAt [] (p.parts.filterMap Step.ofPart?) = some place :=
      follow_of_names hparts hdirs
    unfold stepsOf
    dsimp only
    split
    · rw [follow_append, hinner, Option.bind_some, follow, if_pos hplace]
      rfl
    · exact hinner
  apply eq_ok_of_toOption
  rw [toOption_resolve hlinks, target?, if_neg hempty, hstart, hfollow, Option.filter_some, if_pos]
  rw [lookup?_of_isDirectoryAt hplace]
  rfl

theorem exists_file_of_components (hlinks : t.LinkFree) {e : SystemError}
    (hp : t.resolve p = .ok place)
    (hq : t.resolve q = .error e) (h : q.components = Key.ofPlace place) :
    q.isRooted = true ∧ ∃ bytes, t.lookup? place = some (.file bytes) := by
  refine ⟨(isRooted_of_components h).1, ?_⟩
  obtain ⟨hfollow, hsome⟩ := follow_of_resolve hlinks hp
  obtain ⟨entry, hentry⟩ := Option.isSome_iff_exists.1 hsome
  cases entry with
  | file bytes => exact ⟨bytes, hentry⟩
  | link target => exact absurd hentry (hlinks _ _)
  | directory =>
    have hplace : t.isDirectoryAt place = true := by rw [isDirectoryAt, hentry]
    have hresolve := resolve_of_components hlinks ((grounded_startOf t _).1.follow hfollow) hplace h
    rw [hresolve] at hq
    cases hq

/-- Of two paths that clash, one leads to a file, and the other one leads nowhere and
starts at the root. -/
theorem Clash.exists_file (hlinks : t.LinkFree) (h : t.Clash p q) :
    ∃ found lost place bytes e, (p = found ∧ q = lost ∨ p = lost ∧ q = found) ∧
      t.resolve found = .ok place ∧
      t.lookup? place = some (.file bytes) ∧ t.resolve lost = .error e ∧ lost.isRooted = true := by
  unfold Clash at h
  split at h
  · next place e hp hq =>
    obtain ⟨hrooted, bytes, hfile⟩ := exists_file_of_components hlinks hp hq h
    exact ⟨p, q, place, bytes, e, .inl ⟨rfl, rfl⟩, hp, hfile, hq, hrooted⟩
  · next e place hp hq =>
    obtain ⟨hrooted, bytes, hfile⟩ := exists_file_of_components hlinks hq hp h
    exact ⟨q, p, place, bytes, e, .inr ⟨rfl, rfl⟩, hq, hfile, hp, hrooted⟩
  · cases h

end Clashes

end DocGap.Tree
