import PathPatterns.Proofs.Matching.Fits

/-!
# Paths that segments cover

While segments are taken one after the other, nobody knows yet where the path will end: some
segments cover the components of a path if they take them from some place on, whatever may follow.
Covering grows with the segments and with the path, and at the end of an alternative it decides what
fits.

## Main results

* `covers_append_singleton`: one more segment covers what it takes behind the others.
* `fits_iff_covers`: behind more than a root and some `**`, to fit is to be covered.
* `fits_of_covers`: a path fits if it is covered, and its end is a name or was never looked at.
* `covers_of_fits`: a path that fits is covered, if its end is a name.
-/

namespace PathPatterns

namespace Segment

/-- Whether segments take the last of some components, with others in front only if the segments are
not anchored. -/
def Covers (segments : List Segment) (names : List (List Char)) : Prop :=
  ∃ front back, names = front ++ back ∧ (isAnchored segments = true → front = []) ∧
    TakeAll segments back

/-- Whether segments only say where to start: with a root, with any number of `**`, or with both. -/
def IsPrelude (segments : List Segment) : Prop :=
  ∀ segment ∈ segments, segment = root ∨ segment = recursive

variable {segment : Segment} {segments : List Segment} {names more : List (List Char)}

@[simp]
theorem covers_nil (names : List (List Char)) : Covers [] names :=
  ⟨names, [], by simp, by simp [isAnchored], .nil⟩

@[simp]
theorem isPrelude_nil : IsPrelude [] := by
  simp [IsPrelude]

@[simp]
theorem isPrelude_append_singleton :
    IsPrelude (segments ++ [segment]) ↔
      IsPrelude segments ∧ (segment = root ∨ segment = recursive) := by
  simp [IsPrelude, or_imp, forall_and]

/-- Whether segments are anchored shows in the first of them. -/
theorem isAnchored_append (h : segments ≠ []) (others : List Segment) :
    isAnchored (segments ++ others) = isAnchored segments := by
  cases segments with
  | nil => exact absurd rfl h
  | cons first rest => cases first <;> rfl

/-- Segments with one more behind them that does not anchor (`hsegment`) are anchored only if they
were without it. -/
theorem isAnchored_of_append_singleton (h : isAnchored (segments ++ [segment]) = true)
    (hsegment : isAnchored [segment] = false) : isAnchored segments = true := by
  cases segments with
  | nil => rw [List.nil_append, hsegment] at h; exact absurd h (by simp)
  | cons first rest => rwa [isAnchored_append (by simp)] at h

/-- If segments cover `names`, they cover these with what one more segment takes behind them. -/
theorem covers_append_singleton (h : Covers segments names) (hmore : segment.Takes more)
    (hsegment : isAnchored [segment] = false) : Covers (segments ++ [segment]) (names ++ more) := by
  obtain ⟨front, back, rfl, hanchored, htake⟩ := h
  refine ⟨front, back ++ more, List.append_assoc _ _ _, fun h => ?_, ?_⟩
  · exact hanchored (isAnchored_of_append_singleton h hsegment)
  · exact takeAll_append_iff.2 ⟨back, more, rfl, htake, takeAll_singleton_iff.2 hmore⟩

/-- Some segments and one more cover exactly what the one takes behind what the others cover
(`Covers`). -/
theorem covers_append_singleton_iff (hne : segments ≠ []) :
    Covers (segments ++ [segment]) names ↔
      ∃ front more, names = front ++ more ∧ Covers segments front ∧ segment.Takes more := by
  simp only [Covers, isAnchored_append hne, takeAll_append_iff, takeAll_singleton_iff]
  refine ⟨?_, ?_⟩
  · rintro ⟨front, _, rfl, hanchored, back, more, rfl, htake, hmore⟩
    exact ⟨front ++ back, more, by simp, ⟨front, back, rfl, hanchored, htake⟩, hmore⟩
  · rintro ⟨_, more, rfl, ⟨front, back, rfl, hanchored, htake⟩, hmore⟩
    exact ⟨front, back ++ more, by simp, hanchored, back, more, rfl, htake, hmore⟩

/-- A `**` at the end covers any names that follow what it covers. -/
theorem Covers.append_of_recursive (h : Covers (segments ++ [recursive]) names)
    (hmore : recursive.Takes more) : Covers (segments ++ [recursive]) (names ++ more) := by
  obtain ⟨front, back, rfl, hanchored, htake⟩ := h
  obtain ⟨taken, last, rfl, htaken, hlast⟩ := takeAll_append_iff.1 htake
  rw [takeAll_singleton_iff] at hlast
  refine ⟨front, taken ++ (last ++ more), by simp, hanchored, ?_⟩
  refine takeAll_append_iff.2 ⟨taken, last ++ more, rfl, htaken, takeAll_singleton_iff.2 ?_⟩
  exact List.forall_mem_append.2 ⟨hlast, hmore⟩

/-! ## The end of the segments -/

/-- Any number of `**` takes names only, none of them empty. -/
theorem ne_nil_of_mem_of_takeAll (hrec : ∀ segment ∈ segments, segment = recursive)
    (h : TakeAll segments names) : ∀ name ∈ names, name ≠ [] := by
  induction h with
  | nil => simp
  | cons first _ ih =>
    obtain ⟨rfl, hrest⟩ := List.forall_mem_cons.1 hrec
    rw [List.forall_mem_append]
    exact ⟨first, ih hrest⟩

/-- The last of some `**` takes all there is up to the end, and at least one component. -/
theorem takeToEnd_of_forall_recursive (hrec : ∀ segment ∈ segments, segment = recursive)
    (hne : segments ≠ []) (hnames : names = [[]] ∨ names ≠ [] ∧ recursive.Takes names) :
    TakeToEnd true segments names := by
  induction segments with
  | nil => exact absurd rfl hne
  | cons segment segments ih =>
    obtain ⟨rfl, hrest⟩ := List.forall_mem_cons.1 hrec
    by_cases hnil : segments = []
    · rw [hnil]
      exact takeToEnd_recursive_iff.2 hnames
    · rw [takeToEnd_cons_iff fun _ _ => hnil]
      exact ⟨[], names, rfl, by simp [Takes], ih hrest hnil⟩

/-- Behind segments without a root or a drive a component is open only if they are all `**`, and it
was open in front of them. -/
theorem endsOpen_iff {opened : Bool}
    (h : ∀ segment ∈ segments, segment ≠ root ∧ ∀ letter, segment ≠ device letter) :
    endsOpen opened segments = true ↔
      opened = true ∧ ∀ segment ∈ segments, segment = recursive := by
  induction segments generalizing opened with
  | nil => simp
  | cons segment segments ih =>
    obtain ⟨⟨hroot, hdevice⟩, hrest⟩ := List.forall_mem_cons.1 h
    rw [endsOpen_cons, ih hrest, List.forall_mem_cons]
    cases segment with
    | root => exact absurd rfl hroot
    | device letter => exact absurd rfl (hdevice letter)
    | recursive => simp [leavesOpen]
    | _ => simp [leavesOpen]

/-- Behind segments that are no prelude no component is open (`endsOpen`), since one of them has
taken it. -/
theorem endsOpen_eq_false (hwf : (Alternative.steps segments).WellFormed)
    (hdevice : ∀ letter, device letter ∉ segments) (h : ¬ IsPrelude segments) :
    endsOpen true segments = false := by
  obtain ⟨-, -, htail⟩ := hwf
  -- drives are excluded, and roots too where none can stand
  have hplain : ∀ rest : List Segment, (∀ segment ∈ rest, segment ∈ segments) → root ∉ rest →
      ∀ segment ∈ rest, segment ≠ root ∧ ∀ letter, segment ≠ device letter := by
    rintro rest hsub hroot segment hsegment
    refine ⟨?_, ?_⟩
    · rintro rfl
      exact hroot hsegment
    · rintro letter rfl
      exact hdevice letter (hsub _ hsegment)
  rw [← Bool.not_eq_true]
  intro hopen
  apply h
  cases segments with
  | nil => exact isPrelude_nil
  | cons segment rest =>
    by_cases hroot : segment = root
    · subst hroot
      have hrest := (endsOpen_iff (hplain rest (by simp +contextual) htail)).1 hopen
      exact List.forall_mem_cons.2 ⟨.inl rfl, fun other hother => .inr (hrest.2 other hother)⟩
    · have hall : root ∉ segment :: rest := by
        rw [List.mem_cons, not_or]
        exact ⟨fun heq => hroot heq.symm, htail⟩
      have hrest := (endsOpen_iff (hplain (segment :: rest) (fun _ => id) hall)).1 hopen
      exact fun other hother => .inr (hrest.2 other hother)

/-- Segments that are a prelude are some `**`, behind a root or not. -/
theorem isPrelude_cases (hwf : (Alternative.steps segments).WellFormed) (h : IsPrelude segments) :
    (segments ≠ [] ∧ ∀ segment ∈ segments, segment = recursive) ∨
      ∃ rest, segments = root :: rest ∧ ∀ segment ∈ rest, segment = recursive := by
  obtain ⟨hne, -, htail⟩ := hwf
  cases segments with
  | nil => exact absurd rfl hne
  | cons segment rest =>
    obtain ⟨hsegment, hrest⟩ := List.forall_mem_cons.1 h
    have hrest : ∀ other ∈ rest, other = recursive := by
      intro other hother
      apply (hrest other hother).resolve_left
      rintro rfl
      exact htail hother
    rcases hsegment with rfl | rfl
    · exact .inr ⟨rest, rfl, hrest⟩
    · exact .inl ⟨hne, List.forall_mem_cons.2 ⟨rfl, hrest⟩⟩

/-- Any number of `**` may take nothing. -/
theorem takeAll_of_forall_recursive (hrec : ∀ segment ∈ segments, segment = recursive) :
    TakeAll segments [] := by
  induction segments with
  | nil => exact .nil
  | cons segment segments ih =>
    obtain ⟨rfl, hrest⟩ := List.forall_mem_cons.1 hrec
    exact takeAll_cons_iff.2 ⟨[], [], rfl, by simp [Takes], ih hrest⟩

/-- Segments that take nothing but empty components are a prelude, if none of their components
accepts an empty name (`hcomponent`). -/
theorem isPrelude_of_takeAll (hdevice : ∀ letter, device letter ∉ segments)
    (hcomponent : ∀ c, component c ∈ segments → ¬ c.Accepts []) (h : TakeAll segments names)
    (hnames : ∀ name ∈ names, name = []) : IsPrelude segments := by
  induction h with
  | nil => exact isPrelude_nil
  | @cons segment segments front back first _ ih =>
    obtain ⟨hfront, hback⟩ := List.forall_mem_append.1 hnames
    refine List.forall_mem_cons.2 ⟨?_, ih (fun letter hmem => hdevice letter (by simp [hmem]))
      (fun c hmem => hcomponent c (by simp [hmem])) hback⟩
    cases segment with
    | root => exact .inl rfl
    | recursive => exact .inr rfl
    | device letter => exact absurd (List.mem_cons_self) (hdevice letter)
    | component c =>
      obtain ⟨name, rfl, haccepts⟩ := first
      rw [hfront name (by simp)] at haccepts
      exact absurd haccepts (hcomponent c (by simp))
    | anyDirectory =>
      obtain ⟨name, rfl, hname⟩ := first
      exact absurd (hfront name (by simp)) hname

/-- Segments without a root or a drive in front are not anchored, whatever else they are. -/
theorem isAnchored_of_forall_recursive (hrec : ∀ segment ∈ segments, segment = recursive) :
    isAnchored segments = false := by
  cases segments with
  | nil => rfl
  | cons segment rest =>
    rw [hrec segment (by simp)]
    rfl

/-- Segments that cover nothing but empty components are a prelude, if none of their components
accepts an empty name (`hcomponent`). -/
theorem isPrelude_of_covers (hdevice : ∀ letter, device letter ∉ segments)
    (hcomponent : ∀ c, component c ∈ segments → ¬ c.Accepts []) (h : Covers segments names)
    (hnames : ∀ name ∈ names, name = []) : IsPrelude segments := by
  obtain ⟨front, back, rfl, -, htake⟩ := h
  exact isPrelude_of_takeAll hdevice hcomponent htake (List.forall_mem_append.1 hnames).2

/-- Segments of which `IsPrelude` holds cover the empty component in front of a separator. -/
theorem covers_of_isPrelude (hwf : (Alternative.steps segments).WellFormed)
    (h : IsPrelude segments) : Covers segments [[]] := by
  rcases isPrelude_cases hwf h with ⟨-, hrec⟩ | ⟨rest, rfl, hrec⟩
  · refine ⟨[[]], [], rfl, ?_, takeAll_of_forall_recursive hrec⟩
    simp [isAnchored_of_forall_recursive hrec]
  · refine ⟨[], [[]], rfl, fun _ => rfl, takeAll_cons_iff.2 ?_⟩
    exact ⟨[[]], [], rfl, rfl, takeAll_of_forall_recursive hrec⟩

/-! ## Paths that are covered -/

variable {path : String}

/-- Any path fits some `**`, if there is at least one. -/
theorem fits_of_forall_recursive (hne : segments ≠ [])
    (hrec : ∀ segment ∈ segments, segment = recursive) (path : String) :
    (Alternative.steps segments).Fits path := by
  rw [Alternative.Fits, if_neg (by simp [isAnchored_of_forall_recursive hrec])]
  -- the last component is all that has to be taken
  rcases List.eq_nil_or_concat (Path.components path.toList) with hnil | ⟨front, name, hnames⟩
  · exact absurd hnil (Path.components_ne_nil _)
  · rw [List.concat_eq_append] at hnames
    refine ⟨front, [name], hnames, takeToEnd_of_forall_recursive hrec hne ?_⟩
    by_cases hname : name = []
    · left
      rw [hname]
    · right
      exact ⟨by simp, by simpa [Takes] using hname⟩

/-- Behind a root, some `**` or none fit what they cover, unless it is a directory below the root
that ends in a separator. -/
theorem fits_root_cons_of_covers (hrec : ∀ segment ∈ segments, segment = recursive)
    (hcovers : Covers (root :: segments) (Path.stem path.toList))
    (hend : (Path.components path.toList).getLast? ≠ some [] ∨ Path.isRoot path = true) :
    (Alternative.steps (root :: segments)).Fits path := by
  rw [Alternative.Fits, if_pos (show isAnchored (root :: segments) = true from rfl),
    takeToEnd_cons_iff_of_single (P := fun name => name = []) (by simp [Takes]) (by simp)]
  rcases hend with hlast | hroot
  · -- behind the root the `**` take the names, and there is one
    rw [Path.stem_of_getLast?_ne hlast] at hcovers
    obtain ⟨front, back, hnames, hanchored, htake⟩ := hcovers
    obtain rfl : front = [] := hanchored rfl
    obtain ⟨first, more, rfl, hfirst, hmore⟩ := takeAll_cons_iff.1 htake
    obtain rfl : first = [[]] := hfirst
    rw [List.nil_append, List.singleton_append] at hnames
    refine ⟨[], more, hnames, rfl, ?_⟩
    have hmorene : more ≠ [] := by
      rintro rfl
      simp [hnames] at hlast
    refine takeToEnd_of_forall_recursive hrec ?_ (.inr ⟨hmorene, ?_⟩)
    · rintro rfl
      exact hmorene (takeAll_nil_iff.1 hmore)
    · exact ne_nil_of_mem_of_takeAll hrec hmore
  · -- behind the root one empty component is left
    refine ⟨[], [[]], (Path.components_of_isRoot hroot).1, rfl, ?_⟩
    by_cases hnil : segments = []
    · rw [hnil]
      exact takeToEnd_nil_iff.2 rfl
    · exact takeToEnd_of_forall_recursive hrec hnil (.inl rfl)

/-- A path fits segments that are no prelude exactly if its components are covered: `Fits` and
`Covers` agree there. -/
theorem fits_iff_covers (hwf : (Alternative.steps segments).WellFormed)
    (hdevice : ∀ letter, device letter ∉ segments) (h : ¬ IsPrelude segments) :
    (Alternative.steps segments).Fits path ↔ Covers segments (Path.components path.toList) := by
  have hclosed : ∀ names, TakeToEnd true segments names ↔ TakeAll segments names := by
    simp [TakeToEnd, endsOpen_eq_false hwf hdevice h]
  simp only [Alternative.Fits, hclosed]
  split
  · rename_i hanchored
    refine ⟨fun htake => ⟨[], _, rfl, fun _ => rfl, htake⟩, ?_⟩
    rintro ⟨front, back, hnames, hfront, htake⟩
    rw [hnames, hfront hanchored]
    exact htake
  · rename_i hanchored
    refine ⟨?_, ?_⟩
    · rintro ⟨front, back, hnames, htake⟩
      exact ⟨front, back, hnames, fun h => absurd h hanchored, htake⟩
    · rintro ⟨front, back, hnames, -, htake⟩
      exact ⟨front, back, hnames, htake⟩

/-- A path fits if its `stem` is covered, and its end is a name or was never looked at, as behind a
prelude. -/
theorem fits_of_covers (hwf : (Alternative.steps segments).WellFormed)
    (hdevice : ∀ letter, device letter ∉ segments)
    (hcovers : Covers segments (Path.stem path.toList))
    (hend : (Path.components path.toList).getLast? ≠ some [] ∨
      IsPrelude segments ∧ (isAnchored segments = true → Path.isRoot path = true)) :
    (Alternative.steps segments).Fits path := by
  by_cases hprelude : IsPrelude segments
  · rcases isPrelude_cases hwf hprelude with ⟨hne, hrec⟩ | ⟨rest, rfl, hrec⟩
    · exact fits_of_forall_recursive hne hrec path
    · exact fits_root_cons_of_covers hrec hcovers (hend.imp_right fun h => h.2 rfl)
  · have hlast := hend.resolve_right fun h => hprelude h.1
    rw [Path.stem_of_getLast?_ne hlast] at hcovers
    exact (fits_iff_covers hwf hdevice hprelude).2 hcovers

/-- What segments take up to the end of a path, all of them take (`TakeAll`), if the last component
is a name. -/
theorem takeAll_of_takeToEnd {opened : Bool} (h : TakeToEnd opened segments names)
    (hlast : names.getLast? ≠ some []) : TakeAll segments names := by
  unfold TakeToEnd at h
  split at h
  · split at h
    · rename_i hrec
      obtain ⟨front, last, rfl, hfront, rfl | ⟨-, htake⟩⟩ := h
      · simp at hlast
      · obtain ⟨before, rfl⟩ := List.getLast?_eq_some_iff.1 hrec
        rw [List.dropLast_concat] at hfront
        exact takeAll_append_iff.2 ⟨front, last, rfl, hfront, takeAll_singleton_iff.2 htake⟩
    · obtain ⟨front, rfl, -⟩ := h
      simp at hlast
  · exact h

/-- The components of a path that fits are covered (`Covers`), if the last of them is a name. -/
theorem covers_of_fits {path : String} (h : (Alternative.steps segments).Fits path)
    (hlast : (Path.components path.toList).getLast? ≠ some []) :
    Covers segments (Path.components path.toList) := by
  rw [Alternative.Fits] at h
  split at h
  · exact ⟨[], _, rfl, fun _ => rfl, takeAll_of_takeToEnd h hlast⟩
  · rename_i hanchored
    obtain ⟨front, back, hnames, htake⟩ := h
    refine ⟨front, back, hnames, fun h => absurd h hanchored, takeAll_of_takeToEnd htake ?_⟩
    rw [hnames, List.getLast?_append_of_ne_nil _ (ne_nil_of_takeToEnd htake)] at hlast
    exact hlast

end Segment

end PathPatterns
