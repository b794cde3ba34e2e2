import DocGap.Settings
import DocGap.Proofs.Blocks
import DocGap.Proofs.Elements
import DocGap.Proofs.Weave

/-!
# The batch for the gaps of a text

Documenting a text puts a block in for every element that lacks an explanation. An insertion of the
batch comes from an element that is covered and not announced.
-/
namespace DocGap

namespace Gap

def announced (style : Comment.Style) (window : Nat) (text : String) (line : Nat) : Bool :=
  let found := presence style window line (Text.splitLines text.toList).toArray
  found.technical && found.simple

variable {style : Comment.Style} {window : Nat} {text : String} {e : Element}

theorem ofElement?_of_announced (h : announced style window text e.line = true) :
    ofElement? style window (Text.splitLines text.toList).toArray e = none := if_pos h

theorem exists_ofElement? (h : announced style window text e.line = false) :
    ∃ g, ofElement? style window (Text.splitLines text.toList).toArray e = some g ∧ g.element = e :=
  ⟨_, if_neg (by rw [announced] at h; simp [h]), rfl⟩

end Gap

namespace Settings

variable (settings : Settings) (payload : Payload) (path : Path)
  (language : Language) (text : String)

def blockFor (e : Element) : Insertion :=
  ⟨e.target, insertionLineFor e.line,
    Synthesis.content settings.synthesis (.ofLanguage (some language)) e
      (payload.find? path e.name e.line)⟩

/-- The element is covered, and not both explanations stand above it. -/
def wants (e : Element) : Bool :=
  !Gap.announced (.ofLanguage (some language)) settings.analysisWindow text e.line &&
    Synthesis.covers settings.synthesis e.kind

def batchFor : List Insertion :=
  Synthesis.insertions settings.synthesis payload
    (.ofOutline settings.analysisWindow (.ofSource path language text))

def planFor : Plan :=
  .ofBatch (.ofLanguage (some language)) settings.mutation.window text
    (settings.batchFor payload path language text)

def documented : String := (settings.planFor payload path language text).content

end Settings

theorem Outline.text_ofSource (path : Path) (language : Language) (source : String) :
    (Outline.ofSource path language source).text = source ∧
      (Outline.ofSource path language source).language = some language ∧
        (Outline.ofSource path language source).path = path := by
  unfold Outline.ofSource
  dsimp only
  split <;> exact ⟨rfl, rfl, rfl⟩

namespace Settings

variable {settings : Settings} {payload : Payload} {path : Path}
  {language : Language} {text : String}

theorem batchFor_eq :
    settings.batchFor payload path language text =
      ((Outline.ofSource path language text).documentable.filter (settings.wants language text)).map
        (settings.blockFor payload path language) := by
  obtain ⟨htext, hlanguage, hpath⟩ := Outline.text_ofSource path language text
  unfold batchFor Synthesis.insertions FileGaps.ofOutline Synthesis.insertion?
  rw [← List.filterMap_eq_map, List.filterMap_filter]
  simp only [htext, hlanguage, hpath, List.filterMap_filterMap]
  congr 1
  funext e
  cases hopen : Gap.announced (.ofLanguage (some language)) settings.analysisWindow text e.line with
  | true => simp [Gap.ofElement?_of_announced hopen, wants, hopen]
  | false =>
    obtain ⟨g, hg, rfl⟩ := Gap.exists_ofElement? hopen
    simp [hg, wants, hopen, blockFor]

theorem exists_element_of_mem_landedIn {style : Comment.Style} {window : Nat} {i : Insertion}
    (h : i ∈ Plan.landedIn style window text (settings.batchFor payload path language text)) :
    ∃ e, e.WellFormed (Plan.linesOf text).length ∧
      settings.blockFor payload path language e = i := by
  have hmem := Plan.mem_of_mem_landedIn _ _ _ _ h
  rw [batchFor_eq] at hmem
  obtain ⟨e, he, hi⟩ := List.mem_map.1 hmem
  refine ⟨e, ?_, hi⟩
  rw [Plan.length_linesOf]
  exact Outline.wellFormed_of_mem_documentable (List.mem_filter.1 he).1

end Settings

theorem Synthesis.plainLabels_sections (locale : Locale) (text : Explanation) :
    Comment.PlainLabels (sections locale text) := by
  intro s hs
  have hlabel : s.label = locale.technicalLabel ∨ s.label = locale.simpleLabel := by
    simp only [sections, List.mem_cons, List.not_mem_nil, or_false] at hs
    rcases hs with rfl | rfl
    · exact .inl rfl
    · exact .inr rfl
  rcases hlabel with h | h <;> rw [h] <;> cases locale <;> exact ⟨by decide,
    .of_not_mem (by decide)⟩

end DocGap
