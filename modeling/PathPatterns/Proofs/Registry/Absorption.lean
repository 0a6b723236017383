import PathPatterns.Proofs.Matching.Basic
import PathPatterns.Proofs.Registry.Reachable

/-!
# Absorption by the universal glob

A union with an operand that has the text of the universal glob is the universal glob, whatever the
other operands are. That glob matches the paths whose last component has a dot and no colon, at any
depth; other paths are lost, even if an operand matches them.

## Main results

* `isMatch_anything_iff`: which paths the universal glob matches.
* `combine_of_isAnything`: what a union with the universal glob matches, and what it loses.
-/

namespace PathPatterns

namespace Component

/-- The component `*.*` of the universal glob: any name with a dot. -/
def dotted : Component := ⟨"*.*", [.anyRun, .char '.', .anyRun]⟩

/-- `*.*` takes a name exactly if it has a dot and every character of it is one that `?` stands
for. -/
theorem accepts_dotted_iff {name : List Char} :
    dotted.Accepts name ↔ '.' ∈ name ∧ ∀ c ∈ name, IsWild c := by
  refine ⟨?_, ?_⟩
  · rintro ⟨front, _, rfl, hfront, _, _, rfl, rfl, back, _, rfl, hback, rfl⟩
    refine ⟨by simp, fun c hc => ?_⟩
    have hcases : c ∈ front ∨ c = '.' ∨ c ∈ back := by simpa using hc
    rcases hcases with hc | rfl | hc
    · exact hfront c hc
    · simp [IsWild]
    · exact hback c hc
  · rintro ⟨hdot, hwild⟩
    obtain ⟨front, back, rfl⟩ := List.append_of_mem hdot
    refine ⟨front, _, rfl, fun c hc => hwild c (by simp [hc]), ['.'], back, rfl, rfl, back, [],
      by simp, fun c hc => hwild c (by simp [hc]), rfl⟩

end Component

namespace Path

/-- The last component of a path. -/
def lastComponent (path : String) : List Char :=
  (components path.toList).getLast (components_ne_nil path.toList)

theorem not_separator_of_mem_lastComponent {path : String} {c : Char} (h : c ∈ lastComponent path) :
    isSeparator c = false :=
  not_separator_of_mem_components (List.getLast_mem _) c h

end Path

namespace Alternative

/-- Behind any directories, `*.*` takes the last component of a path and nothing else. -/
theorem fits_anything_iff {path : String} :
    (steps [.recursive, .component .dotted]).Fits path ↔
      Component.dotted.Accepts (Path.lastComponent path) := by
  have hname : ∀ names, Segment.TakeToEnd true [.component .dotted] names ↔
      ∃ name, names = [name] ∧ Component.dotted.Accepts name := by
    intro names
    rw [Segment.takeToEnd_cons_iff_of_single (fun _ => Iff.rfl) (by simp)]
    simp [Segment.leavesOpen, Segment.takeToEnd_nil_iff]
  have hwalk : ∀ names, Segment.TakeToEnd true [.recursive, .component .dotted] names ↔
      ∃ front name, names = front ++ [name] ∧ Segment.recursive.Takes front ∧
        Component.dotted.Accepts name := by
    intro names
    rw [Segment.takeToEnd_cons_iff fun _ _ => List.cons_ne_nil _ _]
    simp only [Segment.leavesOpen, hname]
    refine ⟨?_, ?_⟩
    · rintro ⟨front, _, rfl, hfront, name, rfl, hname⟩
      exact ⟨front, name, rfl, hfront, hname⟩
    · rintro ⟨front, name, rfl, hfront, hname⟩
      exact ⟨front, [name], rfl, hfront, name, rfl, hname⟩
  rw [Fits, if_neg (by simp [Segment.isAnchored])]
  simp only [hwalk]
  refine ⟨?_, fun h => ?_⟩
  · rintro ⟨front, _, hsplit, more, name, rfl, -, hname⟩
    have hlast : Path.lastComponent path = name := by simp [Path.lastComponent, hsplit]
    rwa [hlast]
  · -- the directories in front of the last component need not be taken
    have hsplit := List.dropLast_concat_getLast (Path.components_ne_nil path.toList)
    exact ⟨_, _, hsplit.symm, [], _, rfl, by simp [Segment.Takes], h⟩

end Alternative

theorem Glob.compiles_anything : anything.uncheckedRegex.compiles = true := by
  decide +kernel

/-- The glob `anything` matches exactly the paths whose last component has a dot and no colon. -/
theorem Glob.isMatch_anything_iff (path : String) :
    anything.isMatch path = true ↔
      '.' ∈ Path.lastComponent path ∧ ':' ∉ Path.lastComponent path := by
  -- a component has no separator anyway
  have hwild : (∀ c ∈ Path.lastComponent path, IsWild c) ↔ ':' ∉ Path.lastComponent path := by
    refine ⟨fun h hcolon => (h _ hcolon).2.2 rfl, fun h c hc => ?_⟩
    have hsep := Path.not_separator_of_mem_lastComponent hc
    simp only [Path.isSeparator, Bool.or_eq_false_iff, beq_eq_false_iff_ne] at hsep
    exact ⟨hsep.1, hsep.2, fun heq => h (heq ▸ hc)⟩
  have hwf : anything.WellFormed := wellFormed_of_parse (parse_anything .empty)
  rw [isMatch_iff_exists_fits hwf compiles_anything, ← hwild, ← Component.accepts_dotted_iff,
    ← Alternative.fits_anything_iff]
  simp [anything, Component.dotted]

namespace Handle

/-- A union with an operand that `isAnything` is the universal glob. Of the paths that its operands
match, it has kept exactly those whose last component has a dot and no colon. -/
theorem combine_of_isAnything (fresh : Identity) {operands : List Handle}
    (h : ∃ operand ∈ operands, operand.glob.isAnything = true) :
    combine fresh operands = anything ∧
      ∀ path, (combine fresh operands).glob.isMatch path = true ↔
        '.' ∈ Path.lastComponent path ∧ ':' ∉ Path.lastComponent path := by
  have hunion : combine fresh operands = anything := by
    obtain ⟨operand, hmem, huniversal⟩ := h
    obtain ⟨first, rest, rfl⟩ := List.exists_cons_of_ne_nil (List.ne_nil_of_mem hmem)
    rw [combine, if_pos (List.any_eq_true.2 ⟨operand, hmem, huniversal⟩)]
  refine ⟨hunion, fun path => ?_⟩
  rw [hunion]
  exact Glob.isMatch_anything_iff path

/-- The pattern `*`, which matches any name. -/
def anyName : Handle where
  identity := .created 0
  glob.text := "*"
  glob.alternatives := [.steps [.anyDirectory]]

/-- The universal glob as it is read from its text, in an instance of its own. -/
def spelledOut : Handle where
  identity := .created 1
  glob := .anything

/-- A union of `anyName` and `spelledOut`, of which the second absorbs the first, matches a path
with a dot. -/
theorem combine_anyName_spelledOut :
    (∃ operand ∈ [anyName, spelledOut], operand.glob.isAnything = true) ∧
      combine (.created 2) [anyName, spelledOut] = anything ∧
      (combine (.created 2) [anyName, spelledOut]).glob.isMatch "src/a.rs" = true := by
  have huniversal : ∃ operand ∈ [anyName, spelledOut], operand.glob.isAnything = true :=
    ⟨spelledOut, by simp, rfl⟩
  obtain ⟨hunion, hmatch⟩ := combine_of_isAnything (.created 2) huniversal
  exact ⟨huniversal, hunion, (hmatch "src/a.rs").2 (by decide)⟩

/-- The path `a` is matched by `*` and lost by its union with the universal glob, where every
expression compiles. -/
theorem match_lost_by_absorption :
    Glob.parse .empty "*" = .ok anyName.glob ∧ anything.glob.isAnything = true ∧
      (∀ operand ∈ [anything, anyName], operand.glob.uncheckedRegex.compiles = true) ∧
      (combine (.created 1) [anything, anyName]).glob.uncheckedRegex.compiles = true ∧
      anyName.glob.isMatch "a" = true ∧
      (combine (.created 1) [anything, anyName]).glob.isMatch "a" = false := by
  have hanything : anything.glob.uncheckedRegex.compiles = true := Glob.compiles_anything
  have hname : anyName.glob.uncheckedRegex.compiles = true := by decide +kernel
  refine ⟨by decide +kernel, rfl, by simp [hanything, hname], hanything, by decide +kernel,
    by decide +kernel⟩

end Handle

end PathPatterns
