import PathPatterns.Path

/-!
# Keys of directories

A tree in memory knows a directory by its key: the path with `/` for every separator and without
separators at its end. Roots keep one: the key of `\` is `/`, and that of `C:` is `C:/`. The parent
of a path is what stands before its last component, with the separator of a root kept.

## Main definitions

* `Key.ofPath`, `Key.parent?`: the operations `directory_key` and `parent_of`.
* `Key.ancestors`: the parents that the loop of `insert` climbs through.

## Main results

* `length_lt_of_parent?`: a parent is shorter than its child, so climbing ends.
-/

namespace PathPatterns

namespace Key

/-- Adds the separator of a root: to empty text, and after a colon. -/
def closeRoot (path : List Char) : List Char :=
  if path = [] ∨ path.getLast? = some ':' then path ++ [Path.separator] else path

/-- The key of a path: its separators normalized, those at its end trimmed, and that of a root put
back. -/
def ofPath (path : List Char) : List Char :=
  closeRoot (Path.trimEnd (path.map Path.normalizeChar))

/-- The parent of a path, if a separator stands before its last component. -/
def parent? (path : List Char) : Option (List Char) :=
  match (Path.trimEnd path).reverse.dropWhile fun c => !Path.isSeparator c with
  | [] => none
  | _ :: above => some (closeRoot above.reverse)

theorem length_trimEnd_le (path : List Char) : (Path.trimEnd path).length ≤ path.length := by
  have := (List.dropWhile_sublist (p := Path.isSeparator) (l := path.reverse)).length_le
  simpa [Path.trimEnd] using this

theorem length_closeRoot_le (path : List Char) : (closeRoot path).length ≤ path.length + 1 := by
  unfold closeRoot
  split <;> simp

theorem isSeparator_head_reverse_trimEnd {path rest : List Char} {c : Char}
    (h : (Path.trimEnd path).reverse = c :: rest) : Path.isSeparator c = false := by
  rw [Path.trimEnd, List.reverse_reverse] at h
  have hhead := List.head?_dropWhile_not Path.isSeparator path.reverse
  simpa [h] using hhead

/-- A parent is shorter than its child: what is cut off has at least two characters, and `closeRoot`
puts back at most one. -/
theorem length_lt_of_parent? {path parent : List Char} (h : parent? path = some parent) :
    parent.length < path.length := by
  unfold parent? at h
  split at h
  · simp at h
  · rename_i c above hdrop
    rw [← Option.some.inj h]
    have htrim := length_trimEnd_le path
    have hclose := length_closeRoot_le above.reverse
    cases hr : (Path.trimEnd path).reverse with
    | nil => simp [hr] at hdrop
    | cons d rest =>
      have hd := isSeparator_head_reverse_trimEnd hr
      have hlen : (Path.trimEnd path).length = rest.length + 1 := by
        rw [← List.length_reverse, hr, List.length_cons]
      rw [hr, List.dropWhile_cons, hd] at hdrop
      have hsub := (List.dropWhile_sublist
        (p := fun c => !Path.isSeparator c) (l := rest)).length_le
      simp only [Bool.not_false, ↓reduceIte] at hdrop
      rw [hdrop] at hsub
      simp only [List.length_cons, List.length_reverse] at hsub hclose
      omega

/-- The parents of a path, nearest first. -/
def ancestors (path : List Char) : List (List Char) :=
  match _h : parent? path with
  | none => []
  | some parent => parent :: ancestors parent
termination_by path.length
decreasing_by exact length_lt_of_parent? _h

/-- The climb of `ancestors` ends at a path without parent. -/
theorem ancestors_of_parent?_eq_none {path : List Char} (h : parent? path = none) :
    ancestors path = [] := by
  rw [ancestors]
  split <;> simp_all

/-- The nearest of the `ancestors` is the parent, and the others are those of the parent. -/
theorem ancestors_of_parent? {path parent : List Char} (h : parent? path = some parent) :
    ancestors path = parent :: ancestors parent := by
  rw [ancestors]
  split <;> simp_all

end Key

end PathPatterns
