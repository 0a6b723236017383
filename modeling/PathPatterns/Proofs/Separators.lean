import PathPatterns.MemoryTree.Basic
import PathPatterns.Proofs.Grammar.Normalized
import PathPatterns.Proofs.Matching.Basic
import PathPatterns.Proofs.Path.Keys
import PathPatterns.Proofs.Registry.Coherent

/-!
# Either separator

Nothing tells `/` and `\` apart. Texts that differ in their separators alone are read into the same
alternatives or rejected for the same fault, the same globs match them, and a tree in memory takes
them for the same path; only what repeats a text shows how it was written.

## Main results

* `Alternative.fits_iff_of_respelled`, `Glob.isMatch_of_respelled`: matching either text.
* `Key.ofPath_of_respelled`: the key of either path.
* `interchangeable_of_respelled`: reading, matching and trees together.
-/

namespace PathPatterns

open PathPatterns.Path

variable {text other : String}

/-- Whether a path `Fits` an alternative does not depend on which separators it is written with. -/
theorem Alternative.fits_iff_of_respelled (h : Respelled text.toList other.toList)
    (alternative : Alternative) : alternative.Fits text ↔ alternative.Fits other := by
  have hcomponents : components text.toList = components other.toList := by
    rw [← components_map_normalizeChar, respelled_iff.1 h, components_map_normalizeChar]
  cases alternative with
  | literal path => rw [Fits, Fits, normalize_of_respelled h]
  | steps segments => rw [Fits, Fits, hcomponents]

/-- Whether a well-formed glob matches a path does not depend on which separators it is written
with. -/
theorem Glob.isMatch_of_respelled (h : Respelled text.toList other.toList) {glob : Glob}
    (hwf : glob.WellFormed) : glob.isMatch text = glob.isMatch other := by
  cases hcompiles : glob.uncheckedRegex.compiles with
  | true =>
    rw [Bool.eq_iff_iff, isMatch_iff_exists_fits hwf hcompiles,
      isMatch_iff_exists_fits hwf hcompiles]
    simp only [Alternative.fits_iff_of_respelled h]
  | false => simp [isMatch, regex, hcompiles]

theorem Key.ofPath_of_respelled {path other : List Char} (h : Respelled path other) :
    ofPath path = ofPath other := by
  rw [← ofPath_map_normalizeChar, respelled_iff.1 h, ofPath_map_normalizeChar]

theorem MemoryTree.key_of_respelled (h : Respelled text.toList other.toList) :
    key text = key other :=
  congrArg String.ofList (Key.ofPath_of_respelled h)

/-- Separators are interchangeable. Patterns `text` and `other` that are `Respelled` have the same
alternatives or the same fault in `Glob.parse`, whatever the environment is. The handles of a
registry that `Arises` match both or neither of two paths that are `Respelled`. A tree becomes the
same when `insert` is given either of them, `isDirectory` holds of both or of neither, and `entries`
lists the same under both, up to the message of a failure, which says which path was asked for. -/
theorem interchangeable_of_respelled (h : Respelled text.toList other.toList) :
    (∀ env : Environment,
      (∃ alternatives, Glob.parse env text = .ok ⟨text, alternatives⟩ ∧
        Glob.parse env other = .ok ⟨other, alternatives⟩) ∨
      ∃ fault, Glob.parse env text = .error ⟨text, fault⟩ ∧
        Glob.parse env other = .error ⟨other, fault⟩) ∧
    (∀ registry : Registry, registry.Arises → ∀ slot handle, registry.get? slot = some handle →
      handle.glob.isMatch text = handle.glob.isMatch other) ∧
    ∀ tree : MemoryTree,
      (∀ kind, tree.insert kind text = tree.insert kind other) ∧
      tree.isDirectory text = tree.isDirectory other ∧
      ∀ kind, (tree.entries ⟨kind, text⟩).map (Except.mapError ListingError.kind) =
        (tree.entries ⟨kind, other⟩).map (Except.mapError ListingError.kind) := by
  refine ⟨fun env => ?_, fun registry harises slot handle hget => ?_, fun tree => ⟨fun kind => ?_,
    ?_, fun kind => ?_⟩⟩
  · rw [Glob.parse, Glob.parse, Glob.readAlternatives_expand_of_respelled h]
    cases Glob.readAlternatives (Template.expand env other).toList with
    | ok alternatives => exact .inl ⟨alternatives, rfl, rfl⟩
    | error fault => exact .inr ⟨fault, rfl, rfl⟩
  · exact Glob.isMatch_of_respelled h (harises.wellFormed hget)
  · simp only [MemoryTree.insert, Key.ofPath_of_respelled h]
  · rw [MemoryTree.isDirectory, MemoryTree.isDirectory, MemoryTree.key_of_respelled h]
  · rw [MemoryTree.entries, MemoryTree.entries, MemoryTree.key_of_respelled h]
    -- the path that was asked for is in the message of a failure only
    cases tree.directories[MemoryTree.key other]? with
    | none => rfl
    | some children => rfl

/-- Two spellings of one pattern are `Respelled`: they are read into the same alternatives, and as
paths they are inserted alike. -/
theorem interchangeable_rootPattern :
    (∃ alternatives, Glob.parse .empty "\\src/*.rs" = .ok ⟨"\\src/*.rs", alternatives⟩ ∧
      Glob.parse .empty "/src\\*.rs" = .ok ⟨"/src\\*.rs", alternatives⟩) ∧
    MemoryTree.empty.insert .file "\\src/*.rs" = MemoryTree.empty.insert .file "/src\\*.rs" := by
  have hrespelled : Respelled "\\src/*.rs".toList "/src\\*.rs".toList :=
    respelled_iff.2 (by decide)
  obtain ⟨hread, -, htree⟩ := interchangeable_of_respelled hrespelled
  refine ⟨?_, (htree .empty).1 .file⟩
  rcases hread .empty with hok | ⟨fault, herror, -⟩
  · exact hok
  · have hparse : (Glob.parse .empty "\\src/*.rs").isOk = true := by decide +kernel
    simp [herror, Except.isOk, Except.toBool] at hparse

end PathPatterns
