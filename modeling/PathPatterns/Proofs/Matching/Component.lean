import PathPatterns.Component
import PathPatterns.Proofs.Path.Components
import PathPatterns.Proofs.Regex.Words

/-!
# What a component matches

The names that a component stands for, part by part, and the expression of the component beside
them.

## Main results

* `mem_language_regex_iff`: the words of the expression of a component are the names that it
  accepts.
* `matchesPath_iff`: a component matches the paths that end in a separator and a name that it
  accepts.
* `matchesPath_iff_of_components`: the same for a path with known components.
-/

namespace PathPatterns

/-- A character that is neither a separator nor a colon; a wildcard stands for these. -/
def IsWild (c : Char) : Prop :=
  c ≠ '/' ∧ c ≠ '\\' ∧ c ≠ ':'

theorem IsWild.isSeparator_eq_false {c : Char} (h : IsWild c) : Path.isSeparator c = false := by
  simp [Path.isSeparator, h.1, h.2.1]

namespace Piece

/-- What a part stands for: texts of one character, or of any length for `*`. -/
def Accepts : Piece → List Char → Prop
  | char c, text => text = [c]
  | anyChar, text => ∃ c, text = [c] ∧ IsWild c
  | anyRun, text => ∀ c ∈ text, IsWild c
  | oneOf members, text => ∃ c ∈ members, text = [c]

/-- Whether a part stands for nothing that holds a separator, and a class has members. -/
def WellFormed : Piece → Prop
  | char c => Path.isSeparator c = false
  | anyChar => True
  | anyRun => True
  | oneOf members => members ≠ [] ∧ ∀ c ∈ members, Path.isSeparator c = false

theorem contains_wildcardClass {c : Char} : wildcardClass.contains c = true ↔ IsWild c := by
  simp [wildcardClass, IsWild]

/-- The words of the expression of a well-formed part are the texts that it `Accepts`. -/
theorem mem_language_regex_iff {piece : Piece} (h : piece.WellFormed) {text : List Char} :
    text ∈ piece.regex.language ↔ piece.Accepts text := by
  cases piece with
  | char c => exact Regex.mem_language_char
  | anyChar =>
    rw [regex, Regex.mem_language_one]
    simp only [contains_wildcardClass]
    rfl
  | anyRun =>
    rw [regex, Regex.mem_language_star_one]
    simp only [contains_wildcardClass]
    rfl
  | oneOf members =>
    rw [regex, Regex.language_group, Regex.mem_language_union (by simpa using h.1)]
    simp [Accepts]

/-- What a well-formed part accepts holds no separator. -/
theorem Accepts.not_separator {piece : Piece} (h : piece.WellFormed) {text : List Char}
    (ha : piece.Accepts text) : ∀ c ∈ text, Path.isSeparator c = false := by
  intro d hd
  cases piece with
  | char c =>
    rw [show text = [c] from ha, List.mem_singleton] at hd
    rw [hd]
    exact h
  | anyChar =>
    obtain ⟨c, rfl, hc⟩ := ha
    rw [List.mem_singleton.1 hd]
    exact hc.isSeparator_eq_false
  | anyRun => exact (ha d hd).isSeparator_eq_false
  | oneOf members =>
    obtain ⟨c, hc, rfl⟩ := ha
    rw [List.mem_singleton.1 hd]
    exact h.2 c hc

/-- The expression of a part has no anchor. -/
theorem anchorFree_regex (piece : Piece) : piece.regex.AnchorFree := by
  cases piece with
  | oneOf members =>
    -- the members of a class are branches that hold one character each
    have hunion : ∀ branches : List Char, (Regex.union (branches.map .char)).AnchorFree := by
      intro branches
      induction branches with
      | nil => exact trivial
      | cons c rest ih =>
        cases rest with
        | nil => exact trivial
        | cons d rest => exact ⟨trivial, ih⟩
    exact hunion members
  | _ => exact trivial

end Piece

namespace Component

/-- What some parts stand for, one after the other: texts that fall into one for each part. -/
def AcceptsAll : List Piece → List Char → Prop
  | [], name => name = []
  | piece :: pieces, name =>
    ∃ first rest, name = first ++ rest ∧ piece.Accepts first ∧ AcceptsAll pieces rest

/-- Whether a component stands for a name, by its `pieces` alone. -/
def Accepts (component : Component) (name : List Char) : Prop :=
  AcceptsAll component.pieces name

/-- Whether a component stands for nothing that holds a separator, by its `pieces` alone. -/
def WellFormed (component : Component) : Prop :=
  ∀ piece ∈ component.pieces, piece.WellFormed

/-- The words of the expressions of parts that follow each other are the texts that `AcceptsAll` of
them hold of. -/
theorem mem_language_concat_iff {pieces : List Piece} (h : ∀ piece ∈ pieces, piece.WellFormed)
    {name : List Char} :
    name ∈ (Regex.concat (pieces.map Piece.regex)).language ↔ AcceptsAll pieces name := by
  induction pieces generalizing name with
  | nil => exact Language.mem_one name
  | cons piece pieces ih =>
    have hpiece := h piece (by simp)
    have hpieces : ∀ other ∈ pieces, other.WellFormed := fun other hother =>
      h other (by simp [hother])
    rw [List.map_cons, Regex.concat_cons, Regex.language_seq, Language.mem_mul]
    refine ⟨?_, ?_⟩
    · rintro ⟨first, hf, rest, hr, rfl⟩
      exact ⟨first, rest, rfl, (Piece.mem_language_regex_iff hpiece).1 hf, (ih hpieces).1 hr⟩
    · rintro ⟨first, rest, rfl, hf, hr⟩
      exact ⟨first, (Piece.mem_language_regex_iff hpiece).2 hf, rest, (ih hpieces).2 hr, rfl⟩

variable {component : Component}

/-- The words of the expression of a well-formed component are the names that it `Accepts`. -/
theorem mem_language_regex_iff (h : component.WellFormed) {name : List Char} :
    name ∈ component.regex.language ↔ component.Accepts name :=
  mem_language_concat_iff h

theorem anchorFree_regex (component : Component) : component.regex.AnchorFree := by
  refine Regex.anchorFree_concat fun part hpart => ?_
  obtain ⟨piece, -, rfl⟩ := List.mem_map.1 hpart
  exact piece.anchorFree_regex

/-- What well-formed parts accept one after the other (`AcceptsAll`) holds no separator. -/
theorem AcceptsAll.not_separator {pieces : List Piece} (h : ∀ piece ∈ pieces, piece.WellFormed)
    {name : List Char} (ha : AcceptsAll pieces name) : ∀ c ∈ name, Path.isSeparator c = false := by
  induction pieces generalizing name with
  | nil => simp [show name = [] from ha]
  | cons piece pieces ih =>
    obtain ⟨first, rest, rfl, hf, hr⟩ := ha
    intro c hc
    rcases List.mem_append.1 hc with hc | hc
    · exact hf.not_separator (h piece (by simp)) c hc
    · exact ih (fun other hother => h other (by simp [hother])) hr c hc

/-- A name that a well-formed component accepts holds no separator. -/
theorem Accepts.not_separator (h : component.WellFormed) {name : List Char}
    (ha : component.Accepts name) : ∀ c ∈ name, Path.isSeparator c = false :=
  AcceptsAll.not_separator h ha

/-- Only `*` stands for no character at all, so a component with any other part accepts no empty
name. -/
theorem not_accepts_nil (h : ∃ piece ∈ component.pieces, piece ≠ .anyRun) :
    ¬ component.Accepts [] := by
  -- where nothing is left to share, every part stands for nothing
  suffices ∀ pieces : List Piece, AcceptsAll pieces [] → ∀ piece ∈ pieces, piece = .anyRun by
    obtain ⟨piece, hmem, hne⟩ := h
    exact fun haccepts => hne (this component.pieces haccepts piece hmem)
  intro pieces
  induction pieces with
  | nil => simp
  | cons piece pieces ih =>
    rintro ⟨first, rest, hnil, hfirst, hrest⟩
    obtain ⟨rfl, rfl⟩ := List.append_eq_nil_iff.1 hnil.symm
    refine List.forall_mem_cons.2 ⟨?_, ih hrest⟩
    cases piece with
    | anyRun => rfl
    | char c => exact absurd hfirst.symm (by simp)
    | anyChar => simp [Piece.Accepts] at hfirst
    | oneOf members => simp [Piece.Accepts] at hfirst

/-! ## Separators -/

/-- The class of `separatorRegex` has both separators as members, and nothing else. -/
theorem contains_separatorClass {c : Char} :
    (CharClass.oneOf ['/', '\\']).contains c = true ↔ Path.isSeparator c = true := by
  simp [Path.isSeparator]

/-- The expression of a separator has every separator as a word. -/
theorem mem_language_separatorRegex {word : List Char} :
    word ∈ separatorRegex.language ↔ ∃ c, word = [c] ∧ Path.isSeparator c = true := by
  rw [separatorRegex, Regex.mem_language_one]
  simp only [contains_separatorClass]

/-- The expression of a separator has spans where one stands, in either spelling. -/
theorem spans_separatorRegex_iff {text : List Char} {i j : Nat} :
    separatorRegex.Spans text i j ↔
      (∃ c, text[i]? = some c ∧ Path.isSeparator c = true) ∧ j = i + 1 := by
  rw [separatorRegex, Regex.Spans.one_iff]
  simp only [contains_separatorClass]

/-- A separator stands at some position of a text exactly if the text falls into what is `before`
and `after` it. -/
theorem exists_separator_iff {text : List Char} {P : List Char → Prop} :
    (∃ i, (∃ c, text[i]? = some c ∧ Path.isSeparator c = true) ∧ P (text.drop (i + 1))) ↔
      ∃ before c after, text = before ++ c :: after ∧ Path.isSeparator c = true ∧ P after := by
  refine ⟨?_, ?_⟩
  · rintro ⟨i, ⟨c, hc, hsep⟩, hP⟩
    obtain ⟨hi, rfl⟩ := List.getElem?_eq_some_iff.1 hc
    refine ⟨text.take i, _, text.drop (i + 1), ?_, hsep, hP⟩
    rw [← List.drop_eq_getElem_cons hi, List.take_append_drop]
  · rintro ⟨before, c, after, rfl, hsep, hP⟩
    refine ⟨before.length, ⟨c, by simp, hsep⟩, ?_⟩
    rwa [← List.drop_drop, List.drop_left]

/-- `matchesPath` holds of the paths in which a name that the component accepts is left behind some
separator. -/
theorem matchesPath_iff_exists_separator (h : component.WellFormed) {path : String} :
    component.matchesPath path = true ↔
      ∃ before c name, path.toList = before ++ c :: name ∧ Path.isSeparator c = true ∧
        component.Accepts name := by
  rw [matchesPath, Regex.isMatch_iff, ← exists_separator_iff]
  simp only [pathRegex, Regex.Spans.seq_iff, spans_separatorRegex_iff, Regex.Spans.stop_iff]
  refine ⟨?_, ?_⟩
  · rintro ⟨i, j, -, _, ⟨hc, rfl⟩, _, hs, rfl, rfl⟩
    obtain ⟨c, hget, -⟩ := id hc
    have hi := (List.getElem?_eq_some_iff.1 hget).1
    exact ⟨i, hc, (mem_language_regex_iff h).1
      ((Regex.spans_length_iff component.anchorFree_regex hi).1 hs)⟩
  · rintro ⟨i, hc, ha⟩
    obtain ⟨c, hget, -⟩ := id hc
    have hi := (List.getElem?_eq_some_iff.1 hget).1
    have hs := (Regex.spans_length_iff component.anchorFree_regex hi).2
      ((mem_language_regex_iff h).2 ha)
    exact ⟨i, _, Nat.le_of_lt hi, _, ⟨hc, rfl⟩, _, hs, rfl, rfl⟩

/-- `matchesPath` holds of exactly the paths with at least two components, of which the component
accepts the last. -/
theorem matchesPath_iff (h : component.WellFormed) {path : String} :
    component.matchesPath path = true ↔
      ∃ front name, front ≠ [] ∧ Path.components path.toList = front ++ [name] ∧
        component.Accepts name := by
  rw [matchesPath_iff_exists_separator h]
  refine ⟨?_, ?_⟩
  · rintro ⟨before, c, after, hpath, hsep, ha⟩
    refine ⟨Path.components before, after, Path.components_ne_nil before, ?_, ha⟩
    rw [hpath, Path.components_append_cons hsep,
      Path.components_of_forall_not (ha.not_separator h)]
  · rintro ⟨front, name, hfront, hcomponents, ha⟩
    obtain ⟨before, after, hpath, hb, hafter⟩ :=
      Path.exists_boundary_iff.2 ⟨by simp, front, hcomponents⟩
    obtain ⟨rest, rfl, -, hrest⟩ := Path.components_eq_cons_iff.1 hafter
    -- the name is the last component, so no separator follows it
    obtain rfl : rest = [] := by
      cases rest with
      | nil => rfl
      | cons c rest => exact absurd hrest.2.symm (Path.components_ne_nil rest)
    rw [List.append_nil] at hpath
    rcases Path.atBoundary_iff.1 hb with rfl | ⟨before, c, rfl, hsep⟩
    · -- without a separator there would be no component in front
      rw [hpath, List.nil_append, Path.components_of_forall_not (ha.not_separator h)] at hcomponents
      simp [hfront] at hcomponents
    · exact ⟨before, c, name, by simpa using hpath, hsep, ha⟩

/-- Whether `matchesPath` holds depends on the last component of the path alone, if there is another
one in front of it. -/
theorem matchesPath_iff_of_components (h : component.WellFormed) {path : String}
    {front : List (List Char)} {name : List Char}
    (hpath : Path.components path.toList = front ++ [name]) :
    component.matchesPath path = true ↔ front ≠ [] ∧ component.Accepts name := by
  rw [matchesPath_iff h, hpath]
  refine ⟨?_, ?_⟩
  · rintro ⟨other, last, hother, heq, ha⟩
    obtain ⟨rfl, hlast⟩ := List.append_inj' heq rfl
    obtain rfl : name = last := by simpa using hlast
    exact ⟨hother, ha⟩
  · rintro ⟨hfront, ha⟩
    exact ⟨front, name, hfront, rfl, ha⟩

end Component

end PathPatterns
