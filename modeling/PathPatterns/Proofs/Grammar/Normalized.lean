import PathPatterns.Proofs.Environment.References
import PathPatterns.Proofs.WellFormed

/-!
# Normalized patterns

A pattern is read in the same way if all its separators are written as `/`: no reference holds a
separator, no separator is a wildcard or a semicolon, tokens are cut at either of them, and literal
paths are normalized when they are read. So the readings of two patterns that differ only in their
separators are the same, and so are their faults.

## Main results

* `Template.map_normalizeChar_expand`: expansion and normalization.
* `Alternative.parse_map_normalizeChar`: how the text of a normalized alternative is read.
* `Glob.readAlternatives_expand_of_respelled`: how patterns are read that differ in separators.
-/

namespace PathPatterns

open PathPatterns.Path

namespace Template

variable {part : TemplatePart} {text rest : List Char}

/-- No reference holds a separator, as neither names nor the signs around them do. -/
theorem Reference.not_separator {reference : Reference} {c : Char} (h : c ∈ reference.text) :
    isSeparator c = false := by
  rw [← Bool.not_eq_true]
  intro hc
  obtain rfl | rfl : c = '/' ∨ c = '\\' := by simpa [isSeparator] using hc
  · exact absurd (reference.isNameChar_or_mem h) (by decide)
  · exact absurd (reference.isNameChar_or_mem h) (by decide)

/-- Normalizing a text keeps the `reference?` with which it starts, if there is one. -/
theorem reference?_map_normalizeChar (text : List Char) :
    reference? (text.map normalizeChar) = reference? text := by
  have hprefix : ∀ reference : Reference,
      reference.text <+: text.map normalizeChar ↔ reference.text <+: text := by
    intro reference
    rw [List.prefix_map_iff]
    constructor
    · rintro ⟨front, hfront, htext⟩
      -- what is normalized to a text without separators is that text
      have hnot : ∀ c ∈ front, isSeparator c = false := by
        intro c hc
        rw [← isSeparator_normalizeChar]
        exact Reference.not_separator (htext ▸ List.mem_map_of_mem hc)
      rwa [htext, map_normalizeChar_eq_self hnot]
    · intro h
      exact ⟨_, h, (map_normalizeChar_eq_self fun _ => Reference.not_separator).symm⟩
  ext part
  simp only [reference?_eq_some_iff, hprefix]

/-- It does not matter to the normalized result of `expand` whether the text is normalized first.
The values of variables are not, before they are put in. -/
theorem map_normalizeChar_expand (env : Environment) (text : String) :
    (expand env (normalize text)).toList.map normalizeChar =
      (expand env text).toList.map normalizeChar := by
  simp only [expand, String.toList_ofList, toList_normalize]
  generalize text.toList = text
  -- along the text: a character stays, and a reference is replaced
  induction text using parse_induction with
  | nil => rfl
  | char c rest h ih =>
    have hnone : reference? (normalizeChar c :: rest.map normalizeChar) = none :=
      (reference?_map_normalizeChar (c :: rest)).trans h
    rw [List.map_cons, parse_of_reference?_eq_none hnone, parse_of_reference?_eq_none h,
      List.flatMap_cons, List.flatMap_cons, List.map_append, List.map_append, ih]
    simp [TemplatePart.expand]
  | reference part rest h ih =>
    obtain ⟨reference, rfl, -⟩ := reference?_eq_some_iff.1 h
    -- a reference has no separators, so it is read the same after normalization
    have htext : reference.part.text.map normalizeChar = reference.part.text :=
      map_normalizeChar_eq_self fun _ => Reference.not_separator
    have hkeep : (reference.part.text ++ rest).map normalizeChar =
        reference.part.text ++ rest.map normalizeChar := by
      rw [List.map_append, htext]
    have hread : reference? (reference.part.text ++ rest.map normalizeChar) =
        some reference.part := by
      rw [← hkeep, reference?_map_normalizeChar, h]
    rw [hkeep, parse_of_reference? hread, parse_of_reference? h, List.flatMap_cons,
      List.flatMap_cons, List.map_append, List.map_append, ih]

end Template

namespace Alternative

/-- `Alternative.parse` reads the text of an alternative as if it were normalized. -/
@[simp]
theorem parse_map_normalizeChar (text : List Char) :
    parse (text.map normalizeChar) = parse text := by
  have hwildcard : isWildcard ∘ normalizeChar = isWildcard :=
    funext (apply_normalizeChar (f := isWildcard) rfl)
  have hliteral : isLiteral (text.map normalizeChar) = isLiteral text := by
    rw [isLiteral, isLiteral, List.head?_map, List.any_map, hwildcard]
    cases text.head? with
    | none => rfl
    | some c => simp
  have hpath : normalize (String.ofList (text.map normalizeChar)) =
      normalize (String.ofList text) := by
    apply String.toList_injective
    simp
  rw [parse, parse, hliteral, hpath, components_map_normalizeChar]

end Alternative

namespace Glob

/-- The `alternativeTexts` of a normalized pattern are normalized, and they are cut at the same
places. -/
theorem alternativeTexts_map_normalizeChar (expanded : List Char) :
    alternativeTexts (expanded.map normalizeChar) =
      (alternativeTexts expanded).map (List.map normalizeChar) := by
  rw [alternativeTexts, pieces_map (apply_normalizeChar rfl), List.filter_map]
  congr 1
  refine List.filter_congr fun text _ => ?_
  simp

/-- `readAlternatives` reads an expanded pattern as if it were normalized. -/
theorem readAlternatives_map_normalizeChar (expanded : List Char) :
    readAlternatives (expanded.map normalizeChar) = readAlternatives expanded := by
  have hread : Alternative.parse ∘ List.map normalizeChar = Alternative.parse :=
    funext Alternative.parse_map_normalizeChar
  rw [readAlternatives, readAlternatives, alternativeTexts_map_normalizeChar]
  cases alternativeTexts expanded with
  | nil => rfl
  | cons text texts =>
    show List.mapM Alternative.parse ((text :: texts).map (List.map normalizeChar)) = _
    rw [List.mapM_map, hread]

/-- Patterns that are `Respelled` are read into the same alternatives or rejected for the same
fault, in every environment. -/
theorem readAlternatives_expand_of_respelled {env : Environment} {text other : String}
    (h : Respelled text.toList other.toList) :
    readAlternatives (Template.expand env text).toList =
      readAlternatives (Template.expand env other).toList := by
  rw [← readAlternatives_map_normalizeChar, ← Template.map_normalizeChar_expand,
    normalize_of_respelled h, Template.map_normalizeChar_expand,
    readAlternatives_map_normalizeChar]

end Glob

end PathPatterns
