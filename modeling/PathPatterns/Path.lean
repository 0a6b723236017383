import PathPatterns.Pieces

/-!
# Paths

A path is text. Both `/` and `\` separate its components; paths that the library makes itself are
written with `/`. A path is a root when it is one separator and nothing else.

## Main definitions

* `isSeparator`, `normalize`: the operations `is_separator` and `normalize_separators`.
* `isRoot`: the operation `is_root`, the test of the root segment.
-/

namespace PathPatterns.Path

/-- Whether `c` separates the components of a path: both `/` and `\` do. -/
def isSeparator (c : Char) : Bool :=
  c == '/' || c == '\\'

/-- The separator that paths are written with. -/
def separator : Char := '/'

/-- The character with which `normalize` writes `c`: the same one, unless `c` is a separator. -/
def normalizeChar (c : Char) : Char :=
  if isSeparator c then separator else c

/-- The path with every separator written as `/`; no separator is dropped, at the end or elsewhere.
-/
def normalize (path : String) : String :=
  path.map normalizeChar

/-- The components of a path, the empty ones included that side by side separators leave. -/
def components (path : List Char) : List (List Char) :=
  pieces isSeparator path

/-- Whether a path is a root: one separator, of either spelling, and nothing else. -/
def isRoot (path : String) : Bool :=
  match path.toList with
  | [c] => isSeparator c
  | _ => false

/-- The path without the separators at its end. -/
def trimEnd (path : List Char) : List Char :=
  (path.reverse.dropWhile isSeparator).reverse

/-- The path of the child `name` of a directory: a separator stands between the two, unless the
directory already ends in one or is empty. -/
def join (directory name : String) : String :=
  match directory.toList.getLast? with
  | none => name
  | some '/' => directory ++ name
  | some _ => directory ++ "/" ++ name

/-- A normalized path has the characters of `path` up to the spelling of its separators. -/
@[simp]
theorem toList_normalize (path : String) :
    (normalize path).toList = path.toList.map normalizeChar := by
  simp [normalize]

@[simp]
theorem isSeparator_separator : isSeparator separator = true := rfl

/-- `normalizeChar` writes either separator as `separator`, the one that paths are written with. -/
theorem normalizeChar_of_separator {c : Char} (h : isSeparator c = true) :
    normalizeChar c = separator :=
  if_pos h

theorem normalizeChar_of_not_separator {c : Char} (h : isSeparator c = false) :
    normalizeChar c = c :=
  if_neg (by simp [h])

/-- Normalizing keeps what separates and what does not, so it cuts no path differently. -/
@[simp]
theorem isSeparator_normalizeChar (c : Char) : isSeparator (normalizeChar c) = isSeparator c := by
  unfold normalizeChar
  split <;> simp_all

@[simp]
theorem normalizeChar_normalizeChar (c : Char) :
    normalizeChar (normalizeChar c) = normalizeChar c := by
  unfold normalizeChar
  split <;> simp_all

end PathPatterns.Path
