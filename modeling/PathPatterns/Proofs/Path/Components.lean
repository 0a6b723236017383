import Mathlib.Data.List.Forall2
import Mathlib.Data.List.Induction
import PathPatterns.Path

/-!
# Components of a path

Where the components of a path stand in its text. A component is followed by the end of the path,
or by a separator and the components behind it.

## Main results

* `components_eq_cons_iff`: the first component is the text up to the first separator.
* `exists_boundary_iff`: the components from some place on are those of the text that begins right
  after a separator, or at the start.
* `components_child`: the components of a child are those of its directory and its name.
* `respelled_iff`, `components_map_normalizeChar`: the components of a path do not tell which
  separators it is written with.
-/

namespace PathPatterns

namespace Path

/-- A name holds a character and no separator. -/
def IsName (name : List Char) : Prop :=
  name ≠ [] ∧ ∀ c ∈ name, isSeparator c = false

instance (name : List Char) : Decidable (IsName name) :=
  @instDecidableAnd _ _ inferInstance (List.decidableBAll _ _)

/-- What can stand behind a component, and the components in it: nothing and none, or a separator
and those of the path behind it. -/
def Follows : (rest : List Char) → (names : List (List Char)) → Prop
  | [], names => names = []
  | c :: path, names => isSeparator c = true ∧ names = components path

/-- Whether a component begins behind a text: the text is empty or ends in a separator. -/
def AtBoundary (text : List Char) : Prop :=
  ∀ c, text.getLast? = some c → isSeparator c = true

@[simp]
theorem components_nil : components [] = [[]] := rfl

theorem components_ne_nil (path : List Char) : components path ≠ [] :=
  pieces_ne_nil path

/-- A separator at the start of a path puts an empty component in front of the others. -/
theorem components_cons_of_separator {c : Char} (h : isSeparator c = true) (path : List Char) :
    components (c :: path) = [] :: components path :=
  pieces_cons_of_delimiter h path

theorem components_of_forall_not {name : List Char} (h : ∀ c ∈ name, isSeparator c = false) :
    components name = [name] :=
  pieces_of_forall_not h

/-- A separator between two paths separates the `components` of the one from those of the other. -/
theorem components_append_cons {c : Char} (h : isSeparator c = true) (before after : List Char) :
    components (before ++ c :: after) = components before ++ components after :=
  pieces_append_cons h before after

theorem not_separator_of_mem_components {path name : List Char} (h : name ∈ components path) :
    ∀ c ∈ name, isSeparator c = false :=
  fun _ hc => not_delimiter_of_mem_pieces h hc

theorem isName_of_mem_components {path name : List Char} (h : name ∈ components path)
    (hne : name ≠ []) : IsName name :=
  ⟨hne, not_separator_of_mem_components h⟩

/-! ## Other separators -/

theorem map_normalizeChar_eq_self {text : List Char} (h : ∀ c ∈ text, isSeparator c = false) :
    text.map normalizeChar = text :=
  (List.map_congr_left fun c hc => normalizeChar_of_not_separator (h c hc)).trans (List.map_id text)

@[simp]
theorem components_map_normalizeChar (path : List Char) :
    components (path.map normalizeChar) = components path := by
  rw [components, pieces_map isSeparator_normalizeChar]
  refine (List.map_congr_left fun name hname => ?_).trans (List.map_id _)
  exact map_normalizeChar_eq_self (not_separator_of_mem_components hname)

/-- A function that does not tell the separators apart is the same for a character and the one that
`normalizeChar` makes of it. -/
theorem apply_normalizeChar {α : Type} {f : Char → α} (h : f '/' = f '\\') (c : Char) :
    f (normalizeChar c) = f c := by
  cases hc : isSeparator c with
  | true =>
    rw [normalizeChar_of_separator hc]
    obtain rfl | rfl : c = '/' ∨ c = '\\' := by simpa [isSeparator] using hc
    · rfl
    · exact h
  | false => rw [normalizeChar_of_not_separator hc]

/-- Whether two texts differ at most in which separators they are written with. -/
def Respelled (text other : List Char) : Prop :=
  List.Forall₂ (fun c d => c = d ∨ isSeparator c = true ∧ isSeparator d = true) text other

/-- Texts are `Respelled` exactly if they are the same once they are normalized. -/
theorem respelled_iff {text other : List Char} :
    Respelled text other ↔ text.map normalizeChar = other.map normalizeChar := by
  have hchar : ∀ c d, (c = d ∨ isSeparator c = true ∧ isSeparator d = true) ↔
      normalizeChar c = normalizeChar d := by
    intro c d
    refine ⟨?_, fun h => ?_⟩
    · rintro (rfl | ⟨hc, hd⟩)
      · rfl
      · rw [normalizeChar_of_separator hc, normalizeChar_of_separator hd]
    · -- normalizing keeps what separates, so both characters separate or neither does
      have hsame : isSeparator c = isSeparator d := by
        rw [← isSeparator_normalizeChar c, h, isSeparator_normalizeChar]
      cases hd : isSeparator d with
      | true => exact .inr ⟨hsame.trans hd, rfl⟩
      | false =>
        rw [normalizeChar_of_not_separator (hsame.trans hd),
          normalizeChar_of_not_separator hd] at h
        exact .inl h
  simp only [Respelled, hchar]
  rw [← List.forall₂_eq_eq_eq, List.forall₂_map_left_iff, List.forall₂_map_right_iff]

/-- Texts that are `Respelled` have the same normalized text, as strings. -/
theorem normalize_of_respelled {text other : String} (h : Respelled text.toList other.toList) :
    normalize text = normalize other := by
  apply String.toList_injective
  rw [toList_normalize, toList_normalize, respelled_iff.1 h]

/-! ## The first component -/

/-- The first component is the text up to the first separator, and the others are those of what
`Follows`. -/
theorem components_eq_cons_iff {path name : List Char} {names : List (List Char)} :
    components path = name :: names ↔
      ∃ rest, path = name ++ rest ∧ (∀ c ∈ name, isSeparator c = false) ∧ Follows rest names := by
  refine ⟨fun h => ?_, ?_⟩
  · have hname : ∀ c ∈ name, isSeparator c = false :=
      not_separator_of_mem_components (show name ∈ components path by simp [h])
    induction path generalizing name with
    | nil =>
      obtain ⟨rfl, rfl⟩ : [] = name ∧ [] = names := by simpa using h
      exact ⟨[], rfl, hname, rfl⟩
    | cons c path ih =>
      by_cases hc : isSeparator c = true
      · -- the first component is empty
        rw [components_cons_of_separator hc] at h
        obtain ⟨rfl, rfl⟩ := List.cons.inj h
        exact ⟨c :: path, rfl, hname, hc, rfl⟩
      · rw [components, pieces_cons_of_not_delimiter (by simpa using hc)] at h
        -- `c` stands in front of the first component of the rest
        cases hp : pieces isSeparator path with
        | nil => exact absurd hp (pieces_ne_nil path)
        | cons first more =>
          rw [hp, pushFront] at h
          obtain ⟨rfl, rfl⟩ := List.cons.inj h
          obtain ⟨rest, rfl, -, hfollows⟩ := ih hp fun d hd => hname d (by simp [hd])
          exact ⟨rest, rfl, hname, hfollows⟩
  · rintro ⟨rest, rfl, hname, hfollows⟩
    cases rest with
    | nil =>
      rw [show names = [] from hfollows, List.append_nil, components_of_forall_not hname]
    | cons c rest =>
      obtain ⟨hc, rfl⟩ := hfollows
      rw [components_append_cons hc, components_of_forall_not hname]
      rfl

/-! ## Boundaries -/

@[simp]
theorem atBoundary_nil : AtBoundary [] := by
  simp [AtBoundary]

@[simp]
theorem atBoundary_append_singleton {text : List Char} {c : Char} :
    AtBoundary (text ++ [c]) ↔ isSeparator c = true := by
  simp [AtBoundary]

/-- `AtBoundary` holds of a text exactly if it is empty or its last character is a separator. -/
theorem atBoundary_iff {text : List Char} :
    AtBoundary text ↔ text = [] ∨ ∃ before c, text = before ++ [c] ∧ isSeparator c = true := by
  cases text using List.reverseRecOn with
  | nil => simp
  | append_singleton before c => simp

/-- The components `back` from some place on are those of the text that begins at a boundary, right
after a separator or at the start; there is always one. -/
theorem exists_boundary_iff {path : List Char} {back : List (List Char)} :
    (∃ before after, path = before ++ after ∧ AtBoundary before ∧ components after = back) ↔
      back ≠ [] ∧ ∃ front, components path = front ++ back := by
  refine ⟨?_, ?_⟩
  · rintro ⟨before, after, rfl, hb, rfl⟩
    refine ⟨components_ne_nil after, ?_⟩
    rcases atBoundary_iff.1 hb with rfl | ⟨before, c, rfl, hc⟩
    · exact ⟨[], rfl⟩
    · refine ⟨components before, ?_⟩
      rw [List.append_assoc, List.singleton_append, components_append_cons hc]
  · rintro ⟨hback, front, h⟩
    -- each component in front takes its name and the separator behind it from the path
    induction front generalizing path with
    | nil => exact ⟨[], path, rfl, atBoundary_nil, h⟩
    | cons name front ih =>
      obtain ⟨rest, rfl, -, hfollows⟩ := components_eq_cons_iff.1 h
      cases rest with
      | nil =>
        have hnil : front ++ back = [] := hfollows
        exact absurd (List.append_eq_nil_iff.1 hnil).2 hback
      | cons c rest =>
        obtain ⟨hc, hrest⟩ := hfollows
        obtain ⟨before, after, rfl, hb, hafter⟩ := ih hrest.symm
        refine ⟨name ++ c :: before, after, by simp, ?_, hafter⟩
        -- what ends in a separator still does with something in front of it
        rcases atBoundary_iff.1 hb with rfl | ⟨before, d, rfl, hd⟩
        · exact atBoundary_append_singleton.2 hc
        · rw [← List.cons_append, ← List.append_assoc]
          exact atBoundary_append_singleton.2 hd

/-- The last component is empty exactly if the path ends `AtBoundary`. -/
theorem getLast?_components_eq_nil_iff {path : List Char} :
    (components path).getLast? = some [] ↔ AtBoundary path := by
  refine ⟨fun h => ?_, fun h => ?_⟩
  · -- the last component begins at a boundary, and nothing is in it
    obtain ⟨front, hfront⟩ := List.getLast?_eq_some_iff.1 h
    obtain ⟨before, after, rfl, hb, hafter⟩ := exists_boundary_iff.2 ⟨by simp, front, hfront⟩
    obtain ⟨rest, rfl, -, hfollows⟩ := components_eq_cons_iff.1 hafter
    cases after with
    | nil => simpa using hb
    | cons c rest => exact absurd hfollows.2.symm (components_ne_nil rest)
  · rcases atBoundary_iff.1 h with rfl | ⟨before, c, rfl, hc⟩
    · rfl
    · rw [components_append_cons hc]
      simp

/-! ## Children -/

/-- The path of the child `name` of a directory: a separator stands between the two unless the
directory ends in one. -/
def child (directory name : String) : String :=
  if directory.toList.getLast?.any isSeparator then directory ++ name
  else directory ++ "/" ++ name

/-- The components of a path without the empty one at its end that a separator at the end makes. -/
def stem (path : List Char) : List (List Char) :=
  if path.getLast?.any isSeparator then (components path).dropLast else components path

/-- The components of a child are the `stem` of its directory and its name. -/
theorem components_child (directory : String) {name : String} (h : IsName name.toList) :
    components (child directory name).toList = stem directory.toList ++ [name.toList] := by
  rw [child, stem]
  by_cases hlast : directory.toList.getLast?.any isSeparator = true
  · obtain ⟨c, hc, hsep⟩ := (Option.any_eq_true _ _).1 hlast
    obtain ⟨before, hbefore⟩ := List.getLast?_eq_some_iff.1 hc
    rw [if_pos hlast, if_pos hlast, String.toList_append, hbefore, List.append_assoc,
      List.singleton_append, components_append_cons hsep, components_append_cons hsep,
      components_of_forall_not h.2]
    simp
  · rw [if_neg hlast, if_neg hlast, String.toList_append, String.toList_append, List.append_assoc]
    rw [show "/".toList = ['/'] from rfl, List.singleton_append, components_append_cons rfl,
      components_of_forall_not h.2]

/-- A path whose last component is not empty does not end in a separator, so its `stem` is all of
them. -/
theorem stem_of_getLast?_ne {path : List Char} (h : (components path).getLast? ≠ some []) :
    stem path = components path := by
  rw [stem, if_neg]
  intro hany
  obtain ⟨c, hc, hsep⟩ := (Option.any_eq_true _ _).1 hany
  apply h
  rw [getLast?_components_eq_nil_iff]
  intro d hd
  rw [← Option.some.inj (hc.symm.trans hd)]
  exact hsep

/-- The last component of a child is its name, which is not empty. -/
theorem getLast?_components_child_ne (directory : String) {name : String}
    (h : IsName name.toList) :
    (components (child directory name).toList).getLast? ≠ some [] := by
  rw [components_child directory h]
  simpa using h.1

/-- A root has two empty components, and its `stem` is one of them. -/
theorem components_of_isRoot {path : String} (h : isRoot path = true) :
    components path.toList = [[], []] ∧ stem path.toList = [[]] := by
  unfold isRoot at h
  split at h
  · rename_i c hc
    rw [stem, hc, components_cons_of_separator h]
    simp [h]
  · simp at h

end Path

end PathPatterns
