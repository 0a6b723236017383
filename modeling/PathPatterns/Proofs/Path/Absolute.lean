import Mathlib.Data.List.Basic
import PathPatterns.MemoryTree.Key
import PathPatterns.Proofs.Path.Components

/-!
# Absolute paths

An absolute path is given by the names on it. As long as no name ends in a colon, the path of names
is its own key, and its ancestors are the paths of the names in front.

## Main results

* `stem_absolute`, `absolute_injective`: an absolute path shows its names.
* `ofPath_eq_absolute`: the key of a path, however its separators are written.
* `ancestors_absolute`, `ancestors_absolute_eq_take`: the ancestors of an absolute path.
-/

namespace PathPatterns

namespace Path

/-- A name that cannot be taken for a drive, since no colon ends it. -/
def IsPlain (name : List Char) : Prop :=
  IsName name ∧ name.getLast? ≠ some ':'

instance (name : List Char) : Decidable (IsPlain name) :=
  inferInstanceAs (Decidable (IsName name ∧ _))

/-- Names with a separator in front of each; no names give no text. -/
def spine (names : List (List Char)) : List Char :=
  names.flatMap fun name => separator :: name

/-- The path from the root through some names; with no names it is the root itself. -/
def absolute (names : List (List Char)) : List Char :=
  if names = [] then [separator] else spine names

variable {names : List (List Char)} {name : List Char}

@[simp]
theorem spine_nil : spine [] = [] := rfl

@[simp]
theorem spine_append (first second : List (List Char)) :
    spine (first ++ second) = spine first ++ spine second :=
  List.flatMap_append

@[simp]
theorem spine_cons (name : List Char) (names : List (List Char)) :
    spine (name :: names) = separator :: name ++ spine names := rfl

/-- With a name at its end a path is not the root, so `absolute` writes nothing but the names. -/
theorem absolute_append_singleton (names : List (List Char)) (name : List Char) :
    absolute (names ++ [name]) = spine (names ++ [name]) := by
  rw [absolute, if_neg (by simp)]

/-- The components of a `spine` are the names, behind an empty one for the separator in front. -/
theorem components_spine (h : ∀ name ∈ names, ∀ c ∈ name, isSeparator c = false) :
    components (spine names) = [] :: names := by
  -- from the last name on, since a separator cuts what is in front of it off
  induction names using List.reverseRecOn with
  | nil => rfl
  | append_singleton names name ih =>
    obtain ⟨hnames, hname⟩ := List.forall_mem_append.1 h
    rw [spine_append, spine_cons, spine_nil, List.append_nil,
      components_append_cons isSeparator_separator, ih hnames,
      components_of_forall_not (by simpa using hname)]
    rfl

/-- The components of an absolute path that is not the root are its names, behind an empty one. -/
theorem components_absolute (h : ∀ other ∈ names ++ [name], IsName other) :
    components (absolute (names ++ [name])) = [] :: names ++ [name] := by
  rw [absolute_append_singleton, components_spine fun other hother => (h other hother).2]
  rfl

/-- An absolute path shows its names: they are its `stem` behind the empty component. -/
theorem stem_absolute (h : ∀ name ∈ names, IsName name) : stem (absolute names) = [] :: names := by
  cases names using List.reverseRecOn with
  | nil => rfl
  | append_singleton names name =>
    have hcomponents := components_absolute h
    rw [stem_of_getLast?_ne, hcomponents]
    · rfl
    · rw [hcomponents, List.getLast?_concat]
      simpa using (h name (by simp)).1

/-- Paths through different names are different: `absolute` is injective on names. -/
theorem absolute_injective {other : List (List Char)} (h : ∀ name ∈ names, IsName name)
    (hother : ∀ name ∈ other, IsName name) (heq : absolute names = absolute other) :
    names = other := by
  have hstem := congrArg stem heq
  rw [stem_absolute h, stem_absolute hother] at hstem
  exact (List.cons.inj hstem).2

/-- A path grows with its names, so a name leads away from where it is. -/
theorem length_absolute_lt (names : List (List Char)) (hname : name ≠ []) :
    (absolute names).length < (absolute (names ++ [name])).length := by
  have hpos := List.length_pos_of_ne_nil hname
  rw [absolute_append_singleton, absolute]
  split
  · rename_i hnil
    simp [hnil, hpos]
  · simp

/-- Only the components of a path matter for how `normalizeChar` writes it. -/
theorem map_normalizeChar_of_components {path : List Char} (h : components path = [] :: names) :
    path.map normalizeChar = spine names := by
  obtain ⟨rest, rfl, -, hfollows⟩ := components_eq_cons_iff.1 h
  clear h
  induction names generalizing path with
  | nil =>
    cases path with
    | nil => rfl
    | cons c path => exact absurd hfollows.2.symm (components_ne_nil path)
  | cons name names ih =>
    cases path with
    | nil => exact absurd hfollows (by simp [Follows])
    | cons c path =>
      obtain ⟨hc, hcomponents⟩ := hfollows
      obtain ⟨after, rfl, hname, hafter⟩ := components_eq_cons_iff.1 hcomponents.symm
      show (c :: (name ++ after)).map normalizeChar = _
      rw [List.map_cons, List.map_append, map_normalizeChar_eq_self hname,
        normalizeChar_of_separator hc, spine_cons]
      exact congrArg (separator :: name ++ ·) (ih hafter)

/-! ## Keys -/

/-- A path that does not end in a separator has none to lose by `trimEnd`. -/
theorem trimEnd_of_getLast? {path : List Char}
    (h : ∀ c, path.getLast? = some c → isSeparator c = false) : trimEnd path = path := by
  cases path using List.reverseRecOn with
  | nil => rfl
  | append_singleton before c =>
    rw [trimEnd, List.reverse_append, List.reverse_singleton, List.singleton_append,
      List.dropWhile_cons_of_neg (by simp [h c (by simp)])]
    simp

/-- The last character of a `spine` is that of the last name. -/
theorem getLast?_spine (hname : name ≠ []) :
    (spine (names ++ [name])).getLast? = name.getLast? := by
  rw [spine_append, spine_cons, spine_nil, List.append_nil,
    List.getLast?_append_of_ne_nil _ (by simp), ← List.singleton_append,
    List.getLast?_append_of_ne_nil _ hname]

/-- A `spine` ends in a name, so nothing is trimmed. -/
theorem trimEnd_spine (h : ∀ name ∈ names, IsName name) : trimEnd (spine names) = spine names := by
  refine trimEnd_of_getLast? fun c hc => ?_
  cases names using List.reverseRecOn with
  | nil => simp at hc
  | append_singleton names name =>
    have hname := h name (by simp)
    rw [getLast?_spine hname.1] at hc
    exact hname.2 c (List.mem_of_getLast? hc)

/-- Without a drive among the names, `closeRoot` adds a separator only if there are no names. -/
theorem closeRoot_spine (h : ∀ name ∈ names, IsPlain name) :
    Key.closeRoot (spine names) = absolute names := by
  cases names using List.reverseRecOn with
  | nil => rfl
  | append_singleton names name =>
    have hname := h name (by simp)
    rw [absolute_append_singleton, Key.closeRoot, if_neg]
    rintro (hnil | hcolon)
    · simp at hnil
    · -- a colon at the end would be the last character of the last name
      rw [getLast?_spine hname.1.1] at hcolon
      exact hname.2 hcolon

/-- The key of a path with plain names is the `absolute` path of these, however its separators are
written. -/
theorem ofPath_eq_absolute {path : List Char} (hpath : components path = [] :: names)
    (h : ∀ name ∈ names, IsPlain name) : Key.ofPath path = absolute names := by
  rw [Key.ofPath, map_normalizeChar_of_components hpath,
    trimEnd_spine fun name hname => (h name hname).1, closeRoot_spine h]

/-- The `absolute` path of plain names is its own key. -/
theorem ofPath_absolute (h : ∀ name ∈ names, IsPlain name) :
    Key.ofPath (absolute names) = absolute names := by
  cases names using List.reverseRecOn with
  | nil => rfl
  | append_singleton names name =>
    refine ofPath_eq_absolute ?_ h
    rw [absolute_append_singleton, components_spine fun other hother => (h other hother).1.2]

/-- The parent of an `absolute` path is the path of the names in front of the last. -/
theorem parent?_absolute (h : ∀ other ∈ names ++ [name], IsPlain other) :
    Key.parent? (absolute (names ++ [name])) = some (absolute names) := by
  obtain ⟨hnames, hname⟩ := List.forall_mem_append.1 h
  -- from the end, everything up to the last separator is dropped: the last name
  have hdrop : (spine (names ++ [name])).reverse.dropWhile (fun c => !isSeparator c) =
      separator :: (spine names).reverse := by
    rw [spine_append, spine_cons, spine_nil, List.append_nil, List.reverse_append,
      List.reverse_cons, List.append_assoc, List.dropWhile_append_of_pos]
    · rfl
    · intro c hc
      simp [(hname name (by simp)).1.2 c (List.mem_reverse.1 hc)]
  rw [absolute_append_singleton, Key.parent?, trimEnd_spine fun other hother => (h other hother).1,
    hdrop]
  simp [closeRoot_spine hnames]

/-- The ancestors of an `absolute` path are its parent and the ancestors of that. -/
theorem ancestors_absolute (h : ∀ other ∈ names ++ [name], IsPlain other) :
    Key.ancestors (absolute (names ++ [name])) = absolute names :: Key.ancestors (absolute names) :=
  Key.ancestors_of_parent? (parent?_absolute h)

/-- The root has no ancestors, so every climb from an `absolute` path ends there. -/
theorem ancestors_absolute_nil : Key.ancestors (absolute []) = [] :=
  Key.ancestors_of_parent?_eq_none rfl

/-- The ancestors of an `absolute` path are the paths of the names in front, the longest first and
the root last. -/
theorem ancestors_absolute_eq_take (h : ∀ name ∈ names, IsPlain name) :
    Key.ancestors (absolute names) =
      (List.range names.length).reverse.map fun count => absolute (names.take count) := by
  -- from the last name on: the names in front of it are the first to be met
  induction names using List.reverseRecOn with
  | nil => exact ancestors_absolute_nil
  | append_singleton names name ih =>
    have htake : ∀ count ∈ (List.range names.length).reverse,
        absolute (names.take count) = absolute ((names ++ [name]).take count) := by
      intro count hcount
      have hlt : count < names.length := by simpa using hcount
      rw [List.take_append_of_le_length (Nat.le_of_lt hlt)]
    rw [ancestors_absolute h, ih fun other hother => h other (by simp [hother]),
      List.length_append, List.length_singleton, List.range_succ, List.reverse_concat,
      List.map_cons, List.take_left, List.map_congr_left htake]

end Path

end PathPatterns
