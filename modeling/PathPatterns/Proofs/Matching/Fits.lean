import PathPatterns.Proofs.WellFormed

/-!
# Which paths fit an alternative

A path is cut into components, and the segments of an alternative take them one after the other up
to the last. The root takes the empty component in front of the first separator, a drive, a name and
`*` take one component each, and `**` takes any number of components that are not empty.

Behind the start, a root or a drive, and behind any `**` that follow one of them, the next component
is open: it has begun, and nothing has been taken of it. Where the segments end there, the component
that is open has to be accounted for: the last `**` takes at least one component, or one empty
component is left.

## Main results

* `takeToEnd_cons_iff`: the first segment takes some components and the others the rest.
* `takeToEnd_recursive_iff`: what a `**` takes that is the only segment.
-/

namespace PathPatterns

namespace Segment

/-- The components that a segment takes; only `**` takes any other number than one. -/
def Takes : Segment → List (List Char) → Prop
  | root, names => names = [[]]
  | device letter, names => names = [[letter, ':']] ∨ names = [[letter.toLower, ':']]
  | component c, names => ∃ name, names = [name] ∧ c.Accepts name
  | anyDirectory, names => ∃ name, names = [name] ∧ name ≠ []
  | recursive, names => ∀ name ∈ names, name ≠ []

/-- Segments take components one after the other, all of them and no others. -/
inductive TakeAll : List Segment → List (List Char) → Prop
  /-- No segment takes nothing. -/
  | nil : TakeAll [] []
  /-- The first segment takes some components, and the others the rest. -/
  | cons {segment : Segment} {segments : List Segment} {front back : List (List Char)}
      (first : segment.Takes front) (rest : TakeAll segments back) :
      TakeAll (segment :: segments) (front ++ back)

/-- Whether the next component is open behind a segment, if `opened` tells whether it is open in
front of it. -/
def leavesOpen (opened : Bool) : Segment → Bool
  | root => true
  | device _ => true
  | component _ => false
  | anyDirectory => false
  | recursive => opened

/-- Whether the next component is open behind some segments, if `opened` tells whether it is open in
front of them. -/
def endsOpen (opened : Bool) (segments : List Segment) : Bool :=
  segments.foldl leavesOpen opened

/-- Segments take the components of a path up to its end. If a component is open there, the last
`**` takes at least one component, or takes none and one empty component is left; where there is no
`**` an empty component is left. -/
def TakeToEnd (opened : Bool) (segments : List Segment) (names : List (List Char)) : Prop :=
  if endsOpen opened segments then
    match segments.getLast? with
    | some recursive =>
      ∃ front last, names = front ++ last ∧ TakeAll segments.dropLast front ∧
        (last = [[]] ∨ last ≠ [] ∧ recursive.Takes last)
    | _ => ∃ front, names = front ++ [[]] ∧ TakeAll segments front
  else TakeAll segments names

/-- Whether segments take the components of a path from the first on: a root or a drive stands in
front. -/
def isAnchored (segments : List Segment) : Bool :=
  match segments with
  | root :: _ => true
  | device _ :: _ => true
  | _ => false

end Segment

/-- Whether a path fits an alternative: it is the literal path, or the segments take its components
up to the end, from the first on if they are anchored and else from any on. -/
def Alternative.Fits : Alternative → String → Prop
  | literal text, path => Path.normalize path = text
  | steps segments, path =>
    if Segment.isAnchored segments then
      Segment.TakeToEnd true segments (Path.components path.toList)
    else
      ∃ front back, Path.components path.toList = front ++ back ∧
        Segment.TakeToEnd true segments back

namespace Segment

variable {segment : Segment} {segments first second : List Segment} {names : List (List Char)}

/-- No segments take no components. -/
@[simp]
theorem takeAll_nil_iff : TakeAll [] names ↔ names = [] := by
  refine ⟨fun h => ?_, ?_⟩
  · cases h
    rfl
  · rintro rfl
    exact .nil

/-- The first segment `Takes` components in front, and the others take the rest. -/
theorem takeAll_cons_iff :
    TakeAll (segment :: segments) names ↔
      ∃ front back, names = front ++ back ∧ segment.Takes front ∧ TakeAll segments back := by
  refine ⟨fun h => ?_, ?_⟩
  · cases h with
    | cons first rest => exact ⟨_, _, rfl, first, rest⟩
  · rintro ⟨front, back, rfl, first, rest⟩
    exact .cons first rest

@[simp]
theorem takeAll_singleton_iff : TakeAll [segment] names ↔ segment.Takes names := by
  rw [takeAll_cons_iff]
  simp

/-- The segments in `second` take what those in `first` leave. -/
theorem takeAll_append_iff :
    TakeAll (first ++ second) names ↔
      ∃ front back, names = front ++ back ∧ TakeAll first front ∧ TakeAll second back := by
  induction first generalizing names with
  | nil => simp
  | cons segment segments ih =>
    simp only [List.cons_append, takeAll_cons_iff, ih]
    exact exists_append_append_iff

@[simp]
theorem endsOpen_nil (opened : Bool) : endsOpen opened [] = opened := rfl

@[simp]
theorem endsOpen_cons (opened : Bool) (segment : Segment) (segments : List Segment) :
    endsOpen opened (segment :: segments) = endsOpen (leavesOpen opened segment) segments := rfl

/-- A drive takes a single component, its own name. -/
theorem takes_device_iff {letter : Char} :
    (device letter).Takes names ↔ ∃ name, names = [name] ∧ (device letter).Takes [name] := by
  refine ⟨?_, ?_⟩
  · rintro (rfl | rfl)
    · exact ⟨_, rfl, .inl rfl⟩
    · exact ⟨_, rfl, .inr rfl⟩
  · rintro ⟨name, rfl, h⟩
    exact h

/-- Where there is no segment, nothing is left, or the empty component that is open (`opened`). -/
theorem takeToEnd_nil_iff {opened : Bool} :
    TakeToEnd opened [] names ↔ names = if opened then [[]] else [] := by
  cases opened <;> simp [TakeToEnd]

/-- A `**` that is the only segment takes at least one component where one is open, unless it leaves
one empty component. -/
theorem takeToEnd_recursive_iff :
    TakeToEnd true [recursive] names ↔ names = [[]] ∨ names ≠ [] ∧ recursive.Takes names := by
  simp [TakeToEnd, leavesOpen]

/-- The first segment takes some components and the others take the rest, unless it is a `**` that
ends the segments where a component is open; hence the hypothesis `h`. -/
theorem takeToEnd_cons_iff {opened : Bool}
    (h : opened = true → segment = recursive → segments ≠ []) :
    TakeToEnd opened (segment :: segments) names ↔
      ∃ front back, names = front ++ back ∧ segment.Takes front ∧
        TakeToEnd (leavesOpen opened segment) segments back := by
  cases segments with
  | nil =>
    -- the segment is the last one, so the rule for the end is the one for what it leaves
    cases segment with
    | recursive =>
      cases opened with
      | true => exact absurd rfl (h rfl rfl)
      | false => simp [TakeToEnd, leavesOpen, takeAll_cons_iff]
    | _ => simp [TakeToEnd, leavesOpen, and_comm]
  | cons next rest =>
    -- the rule for the end looks only at the last segment, which is among the others
    by_cases hopen : endsOpen (leavesOpen opened segment) (next :: rest) = true
    · have hlast : (segment :: next :: rest).getLast? = (next :: rest).getLast? := by simp
      have hinit : (segment :: next :: rest).dropLast = segment :: (next :: rest).dropLast := rfl
      rw [TakeToEnd, endsOpen_cons, if_pos hopen, hlast, hinit]
      simp only [TakeToEnd, if_pos hopen]
      split
      · simp only [takeAll_cons_iff]
        exact exists_append_append_iff.symm
      · have hfirst : ∀ names, TakeAll (segment :: next :: rest) names ↔ _ :=
          fun _ => takeAll_cons_iff
        simp only [hfirst]
        refine ⟨?_, ?_⟩
        · rintro ⟨_, rfl, front, middle, rfl, hf, hm⟩
          exact ⟨front, middle ++ [[]], by simp, hf, middle, rfl, hm⟩
        · rintro ⟨front, _, rfl, hf, middle, rfl, hm⟩
          exact ⟨front ++ middle, by simp, front, middle, rfl, hf, hm⟩
    · rw [TakeToEnd, endsOpen_cons, if_neg hopen, takeAll_cons_iff]
      simp only [TakeToEnd, if_neg hopen]

/-- A segment that takes single components, those with `P`, takes the first, and the others take the
rest. -/
theorem takeToEnd_cons_iff_of_single {opened : Bool} {P : List Char → Prop}
    (hsingle : ∀ front, segment.Takes front ↔ ∃ name, front = [name] ∧ P name)
    (hne : segment ≠ recursive) :
    TakeToEnd opened (segment :: segments) names ↔
      ∃ name more, names = name :: more ∧ P name ∧
        TakeToEnd (leavesOpen opened segment) segments more := by
  rw [takeToEnd_cons_iff fun _ h => absurd h hne]
  simp only [hsingle]
  refine ⟨?_, ?_⟩
  · rintro ⟨_, more, rfl, ⟨name, rfl, hname⟩, hmore⟩
    exact ⟨name, more, rfl, hname, hmore⟩
  · rintro ⟨name, more, rfl, hname, hmore⟩
    exact ⟨[name], more, rfl, ⟨name, rfl, hname⟩, hmore⟩

/-- Where a component is open, `TakeToEnd` takes at least one, or leaves an empty one. -/
theorem ne_nil_of_takeToEnd (h : TakeToEnd true segments names) : names ≠ [] := by
  -- a segment takes a component, or leaves the next one open for those behind it
  induction segments generalizing names with
  | nil => simp [takeToEnd_nil_iff.1 h]
  | cons segment segments ih =>
    by_cases hlast : segment = recursive ∧ segments = []
    · obtain ⟨rfl, rfl⟩ := hlast
      rcases takeToEnd_recursive_iff.1 h with rfl | ⟨hne, -⟩
      · simp
      · exact hne
    · obtain ⟨front, back, rfl, hfront, hback⟩ :=
        (takeToEnd_cons_iff fun _ hs hnil => hlast ⟨hs, hnil⟩).1 h
      cases segment with
      | root => simp [show front = [[]] from hfront]
      | device letter => rcases hfront with rfl | rfl <;> simp
      | component c =>
        obtain ⟨name, rfl, -⟩ := hfront
        simp
      | anyDirectory =>
        obtain ⟨name, rfl, -⟩ := hfront
        simp
      | recursive =>
        -- this `**` may take nothing, but it is not the last segment
        intro hnil
        exact ih hback (List.append_eq_nil_iff.1 hnil).2

end Segment

end PathPatterns
