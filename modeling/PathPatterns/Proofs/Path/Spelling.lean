import Mathlib.Data.List.Chain
import PathPatterns.Proofs.Path.Absolute
import PathPatterns.Proofs.Path.Keys

/-!
# Spellings of a path

The same path may be spelled in many ways: with either separator, and with any number of them at its
end. All spellings have the same key. A path with a separator at its start and no two of them side
by side is a spelling as long as no component ends in a colon; what ends in one is taken for the
root of a drive, wherever it stands.

## Main results

* `Spells.ofPath`, `Spells.unique`: a spelling has the key of its names and shows them.
* `IsTidy.exists_spells`: tidy paths are spellings, unless there is a colon.
* `IsTidy.exists_driveRoot`: where there is one, a path with a separator at its end is met on the
  way up.
-/

namespace PathPatterns

namespace Path

/-- Whether a text spells the path from the root through some names that cannot be taken for drives.
Any number of separators may stand at the end; the root takes at least one. -/
def Spells (path : List Char) (names : List (List Char)) : Prop :=
  (∀ name ∈ names, IsPlain name) ∧
    ∃ count, (names = [] → count ≠ 0) ∧ components path = [] :: (names ++ List.replicate count [])

variable {path : List Char} {names other : List (List Char)} {count : Nat}

/-- Empty names leave nothing but the separators in front of them. -/
theorem spine_replicate (count : Nat) :
    spine (List.replicate count []) = List.replicate count separator := by
  induction count with
  | zero => rfl
  | succ count ih =>
    rw [List.replicate_succ, spine_cons, ih]
    rfl

/-- The key of a path through plain names is their `absolute` path, however many separators stand at
its end. -/
theorem ofPath_of_components (hpath : components path = [] :: (names ++ List.replicate count []))
    (h : ∀ name ∈ names, IsPlain name) : Key.ofPath path = absolute names := by
  have hseparators : ∀ c ∈ List.replicate count separator, isSeparator c = true := by
    intro c hc
    rw [List.eq_of_mem_replicate hc, isSeparator_separator]
  rw [Key.ofPath, map_normalizeChar_of_components hpath, spine_append, spine_replicate,
    trimEnd_append_of_forall hseparators, trimEnd_spine fun name hname => (h name hname).1,
    closeRoot_spine h]

/-- A path that `Spells` some names has the key of their `absolute` path. -/
theorem Spells.ofPath (h : Spells path names) : Key.ofPath path = absolute names :=
  ofPath_of_components h.2.choose_spec.2 h.1

theorem Spells.isName (h : Spells path names) : ∀ name ∈ names, IsName name :=
  fun name hname => (h.1 name hname).1

/-- A path `Spells` one list of names only: the spelling shows them. -/
theorem Spells.unique (h : Spells path names) (hother : Spells path other) : names = other :=
  absolute_injective h.isName hother.isName (h.ofPath.symm.trans hother.ofPath)

/-! ## Tidy paths -/

/-- Whether a path begins with a separator and has no two of them side by side. -/
def IsTidy (path : List Char) : Prop :=
  (∃ c rest, path = c :: rest ∧ isSeparator c = true) ∧
    path.IsChain fun c d => isSeparator c = true → isSeparator d = false

/-- In a tidy path, what stands behind a separator is none. -/
theorem IsTidy.not_separator (h : IsTidy path) {front back : List Char} {c d : Char}
    (hpath : path = front ++ c :: d :: back) (hc : isSeparator c = true) :
    isSeparator d = false := by
  rw [hpath] at h
  exact (List.isChain_append_cons_cons.1 h.2).2.1 hc

/-- In a tidy path no two separators stand side by side, so it is `Key.Spaced`. -/
theorem IsTidy.spaced (h : IsTidy path) : Key.Spaced path := by
  intro front c d e back hpath hc hd _
  rw [h.not_separator hpath hc] at hd
  exact nomatch hd

/-- No component of a path that `IsTidy` is empty, but for the one in front and possibly the
last. -/
theorem IsTidy.ne_nil_of_components (h : IsTidy path) {front back : List (List Char)}
    {name : List Char} (hfront : front ≠ []) (hback : back ≠ [])
    (hpath : components path = front ++ name :: back) : name ≠ [] := by
  rintro rfl
  obtain ⟨before, after, rfl, hboundary, hafter⟩ := exists_boundary_iff.2 ⟨by simp, front, hpath⟩
  obtain ⟨rest, hrest, -, hfollows⟩ := components_eq_cons_iff.1 hafter
  obtain rfl : after = rest := hrest
  -- behind an empty component that is not the last a separator follows, and one is in front of it
  cases after with
  | nil => exact hback hfollows
  | cons d rest =>
    obtain ⟨hd, -⟩ := hfollows
    rcases atBoundary_iff.1 hboundary with rfl | ⟨before, c, rfl, hc⟩
    · rw [List.nil_append, hafter] at hpath
      have hlength := congrArg List.length hpath
      have hpos := List.length_pos_of_ne_nil hfront
      simp only [List.length_append, List.length_cons] at hlength
      omega
    · have hnot := h.not_separator (List.append_assoc before [c] (d :: rest)) hc
      rw [hd] at hnot
      exact absurd hnot (by decide)

/-- The components of a path that `IsTidy` are names, with an empty component in front and possibly
one at the end. -/
theorem IsTidy.exists_components (h : IsTidy path) :
    ∃ names count, (∀ name ∈ names, IsName name) ∧ (names = [] → count ≠ 0) ∧
      components path = [] :: (names ++ List.replicate count []) := by
  obtain ⟨c, rest, rfl, hc⟩ := h.1
  have hpath := components_cons_of_separator hc rest
  obtain ⟨names, last, hrest⟩ := List.eq_nil_or_concat (components rest)
    |>.resolve_left (components_ne_nil rest)
  rw [List.concat_eq_append] at hrest
  rw [hrest] at hpath
  -- the empty component in front and the last one are on both sides of any other
  have hnames : ∀ name ∈ names, IsName name := by
    intro name hname
    obtain ⟨front, back, rfl⟩ := List.append_of_mem hname
    have hsplit : components (c :: rest) = ([] :: front) ++ name :: (back ++ [last]) := by
      rw [hpath]
      simp
    refine isName_of_mem_components (by rw [hsplit]; simp) ?_
    exact h.ne_nil_of_components (by simp) (by simp) hsplit
  by_cases hlast : last = []
  · exact ⟨names, 1, hnames, by simp, by rw [hpath, hlast]; rfl⟩
  · refine ⟨names ++ [last], 0, ?_, by simp, by rw [hpath]; simp⟩
    refine List.forall_mem_append.2 ⟨hnames, List.forall_mem_singleton.2 ?_⟩
    have hmem : last ∈ components (c :: rest) := by
      rw [hpath]
      simp
    exact isName_of_mem_components hmem hlast

/-- A tidy path `Spells` some names, unless a component ends in a colon. -/
theorem IsTidy.exists_spells (h : IsTidy path)
    (hcolon : ∀ name ∈ components path, name.getLast? ≠ some ':') : ∃ names, Spells path names := by
  obtain ⟨names, count, hnames, hcount, hpath⟩ := h.exists_components
  refine ⟨names, fun name hname => ⟨hnames name hname, hcolon name ?_⟩, count, hcount, hpath⟩
  rw [hpath]
  simp [hname]

/-- What ends in a colon is taken for a drive: `ofPath` puts a separator at its end, as the root of
a drive has. -/
theorem ofPath_of_getLast?_eq_colon (h : path.getLast? = some ':') :
    Key.ofPath path = path.map normalizeChar ++ [separator] := by
  obtain ⟨before, rfl⟩ := List.getLast?_eq_some_iff.1 h
  rw [Key.ofPath, trimEnd_map_normalizeChar, trimEnd_append_of_not_separator rfl,
    Key.closeRoot_map_normalizeChar, Key.closeRoot, if_pos (.inr (by simp)), List.map_append]
  rfl

/-- A component of a tidy path stands behind a separator, unless it is empty, and only a separator
can follow it. -/
theorem IsTidy.exists_append (h : IsTidy path) {name : List Char} (hname : name ∈ components path)
    (hne : name ≠ []) :
    ∃ before c rest, path = before ++ c :: name ++ rest ∧ isSeparator c = true ∧
      (rest = [] ∨ ∃ d more, rest = d :: more ∧ isSeparator d = true ∧
        ∀ e back, more = e :: back → isSeparator e = false) := by
  obtain ⟨front, back, hsplit⟩ := List.append_of_mem hname
  obtain ⟨before, after, rfl, hboundary, hafter⟩ := exists_boundary_iff.2 ⟨by simp, front, hsplit⟩
  obtain ⟨rest, rfl, hnot, hfollows⟩ := components_eq_cons_iff.1 hafter
  have hrest : rest = [] ∨ ∃ d more, rest = d :: more ∧ isSeparator d = true ∧
      ∀ e back, more = e :: back → isSeparator e = false := by
    cases rest with
    | nil => exact .inl rfl
    | cons d more =>
      refine .inr ⟨d, more, rfl, hfollows.1, ?_⟩
      rintro e back rfl
      exact h.not_separator (List.append_assoc before name (d :: e :: back)).symm hfollows.1
  rcases atBoundary_iff.1 hboundary with rfl | ⟨before, c, rfl, hc⟩
  · -- the path would begin with a name
    obtain ⟨c, path, hpath, hc⟩ := h.1
    obtain ⟨e, name, rfl⟩ := List.exists_cons_of_ne_nil hne
    obtain ⟨rfl, -⟩ := List.cons.inj (show e :: (name ++ rest) = c :: path from hpath)
    rw [hnot e (by simp)] at hc
    exact absurd hc (by decide)
  · exact ⟨before, c, rest, by simp, hc, hrest⟩

/-- Where a component of a tidy path ends in a colon, what looks like the root of a drive is met on
the way up, and it has a parent, which a drive has not. -/
theorem IsTidy.exists_driveRoot (h : IsTidy path) {name : List Char}
    (hname : name ∈ components path) (hcolon : name.getLast? = some ':') :
    ∃ here parent, here ∈ Key.ofPath path :: Key.ancestors (Key.ofPath path) ∧
      here.getLast? = some separator ∧ Key.parent? here = some parent := by
  have hne : name ≠ [] := by
    rintro rfl
    exact nomatch hcolon
  obtain ⟨before, c, rest, rfl, hc, hrest⟩ := h.exists_append hname hne
  have hlast : (before ++ c :: name).getLast? = some ':' := by
    rw [List.getLast?_append_of_ne_nil _ (by simp), ← List.singleton_append,
      List.getLast?_append_of_ne_nil _ hne, hcolon]
  -- the path up to the colon has the key of a root
  have hroot := ofPath_of_getLast?_eq_colon hlast
  have hmem : Key.ofPath (before ++ c :: name) ∈ Key.ofPath (before ++ c :: name ++ rest) ::
      Key.ancestors (Key.ofPath (before ++ c :: name ++ rest)) := by
    rcases hrest with rfl | ⟨d, _ | ⟨e, back⟩, rfl, hd, he⟩
    · simp
    · rw [Key.ofPath_append_of_forall (by simpa using hd)]
      simp
    · -- more follows, and what is in front of it is met as it stands
      refine List.mem_cons_of_mem _ (Key.mem_ancestors_ofPath_iff.2
        ⟨before ++ c :: name, d, e, back, rfl, hd, he e back rfl, ?_⟩)
      rw [hroot, Key.closeRoot, if_pos (.inr (by rw [List.getLast?_map, hlast]; rfl))]
  -- the name stands behind a separator, so there is something above it
  obtain ⟨e, last, rfl⟩ := List.exists_cons_of_ne_nil hne
  have he := not_separator_of_mem_components hname e (by simp)
  have habove := Key.mem_ancestors_ofPath_iff.2 ⟨before, c, e, last, rfl, hc, he, rfl⟩
  cases hparent : Key.parent? (Key.ofPath (before ++ c :: e :: last)) with
  | none =>
    rw [Key.ancestors_of_parent?_eq_none hparent] at habove
    exact absurd habove List.not_mem_nil
  | some parent =>
    exact ⟨_, parent, hmem, by rw [hroot, List.getLast?_concat], hparent⟩

end Path

end PathPatterns
