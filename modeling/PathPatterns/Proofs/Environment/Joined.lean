import PathPatterns.Proofs.Environment.References
import PathPatterns.Proofs.WellFormed

/-!
# Joined patterns

Patterns are joined by semicolons. No reference spans a semicolon, since no name holds one, so
joined patterns are expanded one by one; and since a semicolon separates alternatives, they are read
one by one as well, whatever the values of their variables are.

## Main results

* `readAlternatives_append_cons`: what is on either side of a semicolon is read for itself.
* `parse_join`: the texts of some globs that can be read again are read together as all their
  alternatives.
-/

namespace PathPatterns

namespace Glob

/-- The `alternativeTexts` of a joined text are those on either side of the semicolon. -/
theorem alternativeTexts_append_cons (text rest : List Char) :
    alternativeTexts (text ++ ';' :: rest) = alternativeTexts text ++ alternativeTexts rest := by
  rw [alternativeTexts, pieces_append_cons (by decide), List.filter_append]
  rfl

/-- `readAlternatives` reads what is on either side of a semicolon for itself, and puts the
alternatives one behind the other. -/
theorem readAlternatives_append_cons {text rest : List Char} {first second : List Alternative}
    (hfirst : readAlternatives text = .ok first) (hsecond : readAlternatives rest = .ok second) :
    readAlternatives (text ++ ';' :: rest) = .ok (first ++ second) := by
  obtain ⟨hne, hread⟩ := readAlternatives_eq_ok_iff.1 hfirst
  obtain ⟨-, hrest⟩ := readAlternatives_eq_ok_iff.1 hsecond
  rw [readAlternatives_eq_ok_iff, alternativeTexts_append_cons, mapM_eq_ok_iff]
  refine ⟨by simp [hne], ?_⟩
  exact List.rel_append (mapM_eq_ok_iff.1 hread) (mapM_eq_ok_iff.1 hrest)

/-- The texts of some globs that can be read again are read together as `join`: all their
alternatives, under all their texts. -/
theorem parse_join {env : Environment} {globs : List Glob} (hne : globs ≠ [])
    (h : ∀ glob ∈ globs, parse env glob.text = .ok glob) :
    parse env (join globs).text = .ok (join globs) := by
  -- the first glob stands in front of the first semicolon of the joined text
  induction globs with
  | nil => exact absurd rfl hne
  | cons glob globs ih =>
    obtain ⟨hglob, hglobs⟩ := List.forall_mem_cons.1 h
    cases globs with
    | nil => simpa [join] using hglob
    | cons next rest =>
      have hrest := ih (by simp) hglobs
      have htext : (join (glob :: next :: rest)).text =
          glob.text ++ ";" ++ (join (next :: rest)).text := by
        simp [join, String.intercalate_cons_cons]
      rw [parse_eq_ok_iff] at hglob hrest ⊢
      refine ⟨rfl, ?_⟩
      rw [htext, Template.expand_append_cons]
      exact readAlternatives_append_cons hglob.2 hrest.2

end Glob

end PathPatterns
