import PathPatterns.Proofs.Enumeration.Outcome.Agree
import PathPatterns.Proofs.Matching.Basic

/-!
# Writing `**` twice

A `**` behind another one takes components that the first might take as well, so that together they
take what one of them takes. There is one place where this fails. Behind a root or a drive the next
component is open, and a `**` that ends the pattern has to take a component there, or an empty one
that is the only one left; if another `**` stands in front of it, that may take all components and
leave the empty one to the last. So a path is matched as well that ends in a separator. Nothing of
the kind is enumerated.

## Main results

* `takeToEnd_recursive_twice_iff`: what two `**` at the end take where a component is open.
* `fits_recursive_twice_iff`: which paths fit where a `**` is written twice.
* `recursive_twice`: what is matched, and what is enumerated, if a `**` is written twice.
-/

namespace PathPatterns

namespace Path

/-- The last component of a path is empty exactly if a separator ends the path, and the components
in front of it are those of what stands before the separator. -/
theorem components_eq_append_nil_iff {path : List Char} {names : List (List Char)}
    (hne : names ≠ []) : components path = names ++ [[]] ↔
      ∃ before c, path = before ++ [c] ∧ isSeparator c = true ∧ components before = names := by
  constructor
  · intro h
    have hboundary : AtBoundary path := getLast?_components_eq_nil_iff.1 (by simp [h])
    rcases atBoundary_iff.1 hboundary with rfl | ⟨before, c, rfl, hc⟩
    · exact absurd (List.append_left_eq_self.1 h.symm) hne
    · rw [components_append_cons hc] at h
      exact ⟨before, c, rfl, hc, List.append_cancel_right h⟩
  · rintro ⟨before, c, rfl, hc, rfl⟩
    exact components_append_cons hc before []

end Path

namespace Segment

variable {opened : Bool} {segment : Segment} {first second segments : List Segment}
  {names more : List (List Char)}

/-- The segments in `second` take up to the end what those in `first` leave, if there are any. -/
theorem takeToEnd_append_iff (hne : second ≠ []) :
    TakeToEnd opened (first ++ second) names ↔
      ∃ front back, names = front ++ back ∧ TakeAll first front ∧
        TakeToEnd (endsOpen opened first) second back := by
  induction first generalizing opened names with
  | nil => simp
  | cons segment segments ih =>
    rw [List.cons_append, takeToEnd_cons_iff fun _ _ hnil => hne (List.append_eq_nil_iff.1 hnil).2]
    simp only [takeAll_cons_iff, ih, endsOpen_cons]
    exact exists_append_append_iff

/-- A `**` takes two lists of components one behind the other exactly if it takes each of them. -/
theorem takes_recursive_append_iff :
    recursive.Takes (names ++ more) ↔ recursive.Takes names ∧ recursive.Takes more :=
  List.forall_mem_append

/-- Where a `**` does not end the segments, or where no component is open, a second one makes no
difference. -/
theorem takeToEnd_recursive_cons_iff (h : opened = true → segments ≠ []) :
    TakeToEnd opened (recursive :: recursive :: segments) names ↔
      TakeToEnd opened (recursive :: segments) names := by
  rw [takeToEnd_cons_iff (by simp), takeToEnd_cons_iff fun hopened _ => h hopened]
  simp only [leavesOpen, takeToEnd_cons_iff fun hopened _ => h hopened]
  refine ⟨?_, ?_⟩
  · rintro ⟨front, _, rfl, hfront, middle, back, rfl, hmiddle, hback⟩
    exact ⟨front ++ middle, back, by simp, takes_recursive_append_iff.2 ⟨hfront, hmiddle⟩, hback⟩
  · rintro ⟨front, back, rfl, hfront, hback⟩
    exact ⟨front, back, rfl, hfront, [], back, rfl, by simp [Takes], hback⟩

/-- Where a component is open, the second of two `**` at the end may leave an empty component behind
those that the first takes. -/
theorem takeToEnd_recursive_twice_iff :
    TakeToEnd true [recursive, recursive] names ↔
      TakeToEnd true [recursive] names ∨
        ∃ taken, taken ≠ [] ∧ recursive.Takes taken ∧ names = taken ++ [[]] := by
  rw [takeToEnd_cons_iff (by simp)]
  simp only [leavesOpen, takeToEnd_recursive_iff]
  refine ⟨?_, ?_⟩
  · rintro ⟨front, back, rfl, hfront, rfl | ⟨hne, hback⟩⟩
    · cases front with
      | nil => exact .inl (.inl rfl)
      | cons name front => exact .inr ⟨_, by simp, hfront, rfl⟩
    · exact .inl (.inr ⟨by simp [hne], takes_recursive_append_iff.2 ⟨hfront, hback⟩⟩)
  · rintro (hsingle | ⟨taken, -, htaken, rfl⟩)
    · exact ⟨[], names, rfl, by simp [Takes], hsingle⟩
    · exact ⟨taken, [[]], rfl, htaken, .inl rfl⟩

/-- Whether a segment is the start of a path: a root or a drive. -/
def isStart : Segment → Bool
  | root | device _ => true
  | _ => false

end Segment

namespace Alternative

open Segment

variable {front back segments : List Segment} {path : String}

/-- A path fits segments if these take the last of its components up to the end, or all of them if
they satisfy `isAnchored`. -/
theorem fits_steps_iff : (steps segments).Fits path ↔
    ∃ skipped names, Path.components path.toList = skipped ++ names ∧
      (isAnchored segments = true → skipped = []) ∧ TakeToEnd true segments names := by
  rw [Fits]
  split
  · rename_i hanchored
    simp [hanchored]
  · rename_i hanchored
    simp [hanchored]

/-- A second `**` behind the first does not change whether segments are anchored. -/
theorem isAnchored_recursive_twice (front back : List Segment) :
    isAnchored (front ++ recursive :: recursive :: back) =
      isAnchored (front ++ recursive :: back) := by
  cases front with
  | nil => rfl
  | cons segment front => cases segment <;> rfl

/-- Segments leave a component open behind them only if there are none, or where a `**`, a root or a
drive stands at their end. -/
theorem getLast?_isStart_of_endsOpen (hopen : endsOpen true front = true) :
    front = [] ∨ (∃ others, front = others ++ [recursive]) ∨ front.getLast?.any isStart = true := by
  cases front using List.reverseRecOn with
  | nil => exact .inl rfl
  | append_singleton others segment =>
    rw [endsOpen, List.foldl_append, List.foldl_cons, List.foldl_nil] at hopen
    cases segment with
    | recursive => exact .inr (.inl ⟨others, rfl⟩)
    | root => simp [isStart]
    | device letter => simp [isStart]
    | component c => simp [leavesOpen] at hopen
    | anyDirectory => simp [leavesOpen] at hopen

/-- Behind a root or a drive a component is open. -/
theorem endsOpen_of_getLast?_isStart (h : front.getLast?.any isStart = true) :
    endsOpen true front = true := by
  cases front using List.reverseRecOn with
  | nil => simp at h
  | append_singleton others segment =>
    rw [endsOpen, List.foldl_append, List.foldl_cons, List.foldl_nil]
    cases segment <;> simp_all [isStart, leavesOpen]

/-- What fits segments with one `**` fits those with two of them in its place. -/
theorem Fits.of_recursive_once (h : (steps (front ++ recursive :: back)).Fits path) :
    (steps (front ++ recursive :: recursive :: back)).Fits path := by
  rw [fits_steps_iff] at h ⊢
  obtain ⟨skipped, names, hnames, hanchored, htake⟩ := h
  rw [isAnchored_recursive_twice]
  refine ⟨skipped, names, hnames, hanchored, ?_⟩
  rw [takeToEnd_append_iff (by simp)] at htake ⊢
  obtain ⟨taken, left, rfl, htaken, hleft⟩ := htake
  -- the first of them takes nothing
  exact ⟨taken, left, rfl, htaken,
    (takeToEnd_cons_iff (by simp)).2 ⟨[], left, rfl, by simp [Takes], hleft⟩⟩

/-- Where a component is open behind `front`, a `**` at the end takes an empty one that is left. -/
theorem fits_recursive_of_takeAll (hopen : endsOpen true front = true)
    {skipped taken : List (List Char)}
    (hnames : Path.components path.toList = skipped ++ (taken ++ [[]]))
    (hanchored : isAnchored (front ++ [recursive]) = true → skipped = [])
    (htaken : TakeAll front taken) : (steps (front ++ [recursive])).Fits path := by
  have hleft : TakeToEnd (endsOpen true front) [recursive] [[]] := by
    rw [hopen]
    exact takeToEnd_recursive_iff.2 (.inl rfl)
  exact fits_steps_iff.2 ⟨skipped, _, hnames, hanchored,
    (takeToEnd_append_iff (by simp)).2 ⟨taken, [[]], rfl, htaken, hleft⟩⟩

/-- Where a component is open behind `front`, a `**` at the end takes the components in `last` that
are left. -/
theorem fits_recursive_of_takes (hopen : endsOpen true front = true)
    {skipped taken last : List (List Char)} (hne : last ≠ [])
    (hnames : Path.components path.toList = skipped ++ (taken ++ last))
    (hanchored : isAnchored (front ++ [recursive]) = true → skipped = [])
    (htaken : TakeAll front taken) (hlast : recursive.Takes last) :
    (steps (front ++ [recursive])).Fits path := by
  have hleft : TakeToEnd (endsOpen true front) [recursive] last := by
    rw [hopen]
    exact takeToEnd_recursive_iff.2 (.inr ⟨hne, hlast⟩)
  exact fits_steps_iff.2 ⟨skipped, _, hnames, hanchored,
    (takeToEnd_append_iff (by simp)).2 ⟨taken, last, rfl, htaken, hleft⟩⟩

/-- Where all but an empty component is taken in front of the second of two `**` at the end of a
pattern, the path fits one of them, unless a root or a drive stands in front. -/
theorem fits_or_exists_shorter (hopen : endsOpen true front = true)
    {skipped taken last : List (List Char)} (hne : last ≠ [])
    (hnames : Path.components path.toList = skipped ++ (taken ++ (last ++ [[]])))
    (hanchored : isAnchored (front ++ [recursive]) = true → skipped = [])
    (htaken : TakeAll front taken) (hlast : recursive.Takes last) :
    (steps (front ++ [recursive])).Fits path ∨
      front.getLast?.any isStart = true ∧
        ∃ (shorter : String) (c : Char), path.toList = shorter.toList ++ [c] ∧
          Path.isSeparator c = true ∧ ¬ Path.AtBoundary shorter.toList ∧
          (steps (front ++ [recursive])).Fits shorter := by
  rcases getLast?_isStart_of_endsOpen hopen with rfl | ⟨others, rfl⟩ | hstart
  · -- nothing is in front, so the components need not be taken
    rw [takeAll_nil_iff.1 htaken] at hnames
    have hnames : Path.components path.toList = (skipped ++ last) ++ ([] ++ [[]]) := by
      simpa using hnames
    exact .inl (fits_recursive_of_takeAll hopen hnames (by simp [isAnchored]) .nil)
  · -- a `**` in front of both may take them
    obtain ⟨start, between, rfl, hstart, hbetween⟩ := takeAll_append_iff.1 htaken
    have hfront : TakeAll (others ++ [recursive]) (start ++ (between ++ last)) :=
      takeAll_append_iff.2 ⟨start, between ++ last, rfl, hstart, takeAll_singleton_iff.2
        (takes_recursive_append_iff.2 ⟨takeAll_singleton_iff.1 hbetween, hlast⟩)⟩
    exact .inl (fits_recursive_of_takeAll hopen (by simpa using hnames) hanchored hfront)
  · -- the separator in front of the empty component may be left away
    have hparts : Path.components path.toList = (skipped ++ (taken ++ last)) ++ [[]] := by
      simpa using hnames
    obtain ⟨before, c, hpath, hc, hbefore⟩ :=
      (Path.components_eq_append_nil_iff (by simp [hne])).1 hparts
    have hboundary : ¬ Path.AtBoundary before := by
      rw [← Path.getLast?_components_eq_nil_iff, hbefore, List.getLast?_append,
        List.getLast?_append]
      -- the last component of what is left has been taken, and so it is not empty
      cases hlast' : last.getLast? with
      | none => exact absurd (List.getLast?_eq_none_iff.1 hlast') hne
      | some name => simpa using hlast name (List.mem_of_getLast? hlast')
    refine .inr ⟨hstart, String.ofList before, c, by simpa using hpath, hc, ?_, ?_⟩
    · rwa [String.toList_ofList]
    · exact fits_recursive_of_takes hopen hne (by simpa using hbefore) hanchored htaken hlast

/-- What fits two `**` fits one of them, unless they stand behind a root or a drive at the end of
the pattern: then a path fits as well that ends in a separator behind components that fit. -/
theorem fits_recursive_twice_iff :
    (steps (front ++ recursive :: recursive :: back)).Fits path ↔
      (steps (front ++ recursive :: back)).Fits path ∨
        back = [] ∧ front.getLast?.any isStart = true ∧
          ∃ (shorter : String) (c : Char), path.toList = shorter.toList ++ [c] ∧
            Path.isSeparator c = true ∧ ¬ Path.AtBoundary shorter.toList ∧
            (steps (front ++ [recursive])).Fits shorter := by
  constructor
  · intro h
    obtain ⟨skipped, names, hnames, hanchored, htake⟩ := fits_steps_iff.1 h
    rw [isAnchored_recursive_twice] at hanchored
    obtain ⟨taken, left, rfl, htaken, hleft⟩ := (takeToEnd_append_iff (by simp)).1 htake
    have hsingle : TakeToEnd (endsOpen true front) (recursive :: back) left →
        (steps (front ++ recursive :: back)).Fits path := fun hleft =>
      fits_steps_iff.2 ⟨skipped, _, hnames, hanchored,
        (takeToEnd_append_iff (by simp)).2 ⟨taken, left, rfl, htaken, hleft⟩⟩
    by_cases hend : endsOpen true front = true → back ≠ []
    · exact .inl (hsingle ((takeToEnd_recursive_cons_iff hend).1 hleft))
    · obtain ⟨hopen, rfl⟩ : endsOpen true front = true ∧ back = [] := by simpa using hend
      rw [hopen] at hleft hsingle
      rcases takeToEnd_recursive_twice_iff.1 hleft with hleft | ⟨last, hne, hlast, rfl⟩
      · exact .inl (hsingle hleft)
      · exact (fits_or_exists_shorter hopen hne hnames hanchored htaken hlast).imp_right
          fun hshorter => ⟨rfl, hshorter⟩
  · rintro (h | ⟨rfl, hstart, shorter, c, hpath, hc, hboundary, h⟩)
    · exact h.of_recursive_once
    · have hopen := endsOpen_of_getLast?_isStart hstart
      obtain ⟨skipped, names, hnames, hanchored, htake⟩ := fits_steps_iff.1 h
      obtain ⟨taken, left, rfl, htaken, hleft⟩ := (takeToEnd_append_iff (by simp)).1 htake
      rw [hopen, takeToEnd_recursive_iff] at hleft
      rcases hleft with rfl | ⟨hne, hleft⟩
      · exact absurd (Path.getLast?_components_eq_nil_iff.1 (by simp [hnames])) hboundary
      · -- the first `**` takes what the one took, and leaves the empty component to the second
        refine fits_steps_iff.2 ⟨skipped, taken ++ (left ++ [[]]), ?_, ?_, ?_⟩
        · rw [hpath, Path.components_append_cons hc, hnames]
          simp
        · rwa [isAnchored_recursive_twice]
        · refine (takeToEnd_append_iff (by simp)).2 ⟨taken, left ++ [[]], rfl, htaken, ?_⟩
          rw [hopen]
          exact takeToEnd_recursive_twice_iff.2 (.inr ⟨left, hne, hleft, rfl⟩)

end Alternative

namespace Glob

open Enumeration (Run Completes namedB twoLevels finitary_twoLevels)

variable {glob doubled : Glob} {front back : List Segment}

/-- An alternative with a `**` that is written twice can have been read if the one with a single
`**` can. -/
theorem wellFormed_recursive_twice
    (hwf : (Alternative.steps (front ++ .recursive :: back)).WellFormed) :
    (Alternative.steps (front ++ .recursive :: .recursive :: back)).WellFormed := by
  obtain ⟨-, hsegments, hroot⟩ := hwf
  refine ⟨by simp, fun segment hmem => ?_, ?_⟩
  · rcases List.mem_append.1 hmem with hmem | hmem
    · exact hsegments segment (List.mem_append_left _ hmem)
    · rcases List.mem_cons.1 hmem with rfl | hmem
      · exact trivial
      · exact hsegments segment (List.mem_append_right _ hmem)
  · cases front with
    | nil => simpa using hroot
    | cons segment front => simpa using hroot

/-- To write a `**` twice in a row changes nothing, but for one thing: where the two end a pattern
behind a segment that `isStart`, a path is matched as well that ends in a separator, if it is
matched without it. Over listings that are the same at all times, and where walks come to their ends
(`FinitelyWalked`), the results of an enumeration and their order do not change. -/
theorem recursive_twice (hglob : glob.alternatives = [.steps (front ++ .recursive :: back)])
    (hdoubled : doubled.alternatives = [.steps (front ++ .recursive :: .recursive :: back)])
    (hwf : (Alternative.steps (front ++ .recursive :: back)).WellFormed)
    (hcompiles : glob.uncheckedRegex.compiles = true)
    (hdoubledCompiles : doubled.uncheckedRegex.compiles = true) :
    (∀ path, doubled.isMatch path = true ↔ glob.isMatch path = true ∨
      back = [] ∧ front.getLast?.any Segment.isStart = true ∧
        ∃ (shorter : String) (c : Char), path.toList = shorter.toList ++ [c] ∧
          Path.isSeparator c = true ∧ ¬ Path.AtBoundary shorter.toList ∧
          glob.isMatch shorter = true) ∧
    ∀ (lister : Lister) (answer : Request → Listing) (kind : EntityKind) (bases : List String),
      (∀ earlier request, lister.answer earlier request = answer request) →
      (∀ path, Reaches (fun request => (answer request).items) (glob.starts bases) path →
        lister.FinitelyWalked path) →
      ∀ results,
        ((∃ last, Run lister (glob.enumerate kind bases) results last) ↔
          ∃ last, Run lister (doubled.enumerate kind bases) results last) ∧
        (Completes lister (glob.enumerate kind bases) results ↔
          Completes lister (doubled.enumerate kind bases) results) := by
  -- by the components of a path, without the expression
  have hmatch : ∀ path, glob.isMatch path = true ↔
      (Alternative.steps (front ++ .recursive :: back)).Fits path := fun path => by
    rw [isMatch_iff_exists_fits ⟨by simp [hglob], by simpa [hglob] using hwf⟩ hcompiles, hglob]
    simp
  have hmatchDoubled : ∀ path, doubled.isMatch path = true ↔
      (Alternative.steps (front ++ .recursive :: .recursive :: back)).Fits path := fun path => by
    rw [isMatch_iff_exists_fits ⟨by simp [hdoubled],
      by simpa [hdoubled] using wellFormed_recursive_twice hwf⟩ hdoubledCompiles, hdoubled]
    simp
  refine ⟨fun path => ?_, fun lister answer kind bases hlister hwalks results => ?_⟩
  · rw [hmatchDoubled, hmatch, Alternative.fits_recursive_twice_iff]
    refine or_congr_right (and_congr_right ?_)
    rintro rfl
    simp only [hmatch]
  · exact Enumeration.results_iff_of_recursive_twice hlister kind hglob hdoubled hwalks results

/-- The entities that are called `b`, at any depth, with `**` written twice. -/
def namedBTwice : Glob where
  text := "**/**/b"
  alternatives := [.steps [.recursive, .recursive, .component ⟨"b", [.char 'b']⟩]]

/-- The hypotheses of `recursive_twice` hold of `namedB` and `namedBTwice` over a tree of two
levels: both match the same path and enumerate the same results. -/
theorem recursive_twice_namedB :
    (parse .empty "**/b" = .ok namedB ∧ parse .empty "**/**/b" = .ok namedBTwice) ∧
      (namedB.uncheckedRegex.compiles = true ∧ namedBTwice.uncheckedRegex.compiles = true) ∧
      (∀ path, Reaches (itemsIn twoLevels) (namedB.starts ["/w"]) path →
        (Lister.ofFunction fun request => (twoLevels request).map .ok).FinitelyWalked path) ∧
      namedBTwice.isMatch "w/b" = true ∧
      Completes (.ofFunction fun request => (twoLevels request).map .ok)
        (namedBTwice.enumerate .file ["/w"]) [.ok "/w/b", .ok "/w/a/b"] := by
  have hparse : parse .empty "**/b" = .ok namedB := by decide +kernel
  have hcompiles : namedB.uncheckedRegex.compiles = true := by decide +kernel
  have hcompilesTwice : namedBTwice.uncheckedRegex.compiles = true := by decide +kernel
  have hmatch : namedB.isMatch "w/b" = true := by decide +kernel
  have hwalks : ∀ path, Reaches (itemsIn twoLevels) (namedB.starts ["/w"]) path →
      (Lister.ofFunction fun request => (twoLevels request).map .ok).FinitelyWalked path :=
    fun _ hpath => finitary_twoLevels.finitelyWalked (fun _ _ => rfl) hpath
  have hcompletes : Completes (.ofFunction fun request => (twoLevels request).map .ok)
      (namedB.enumerate .file ["/w"]) [.ok "/w/b", .ok "/w/a/b"] :=
    ⟨_, 20, _, @Run.cons _ _ _ _ 20 _ _ (by rfl) (@Run.cons _ _ _ _ 20 _ _ (by rfl) (.nil _)),
      by rfl⟩
  have hlists : (fun request => (Listing.finite ((twoLevels request).map .ok)).items) =
      itemsIn twoLevels := funext fun request => Listing.items_finite_map _
  -- only the pattern with one `**` is evaluated
  obtain ⟨hmatches, hresults⟩ := @recursive_twice namedB namedBTwice [] _ rfl rfl
    ((wellFormed_of_parse hparse).2 _ (List.mem_singleton_self _)) hcompiles hcompilesTwice
  refine ⟨⟨hparse, by decide +kernel⟩, ⟨hcompiles, hcompilesTwice⟩, hwalks,
    (hmatches "w/b").2 (.inl hmatch), ?_⟩
  exact (hresults _ _ .file ["/w"] (fun _ _ => rfl) (by rwa [hlists]) _).2.1 hcompletes

/-- What is below the root. -/
def rootBelow : Glob where
  text := "/**"
  alternatives := [.steps [.root, .recursive]]

/-- What is below the root, with `**` written twice. -/
def rootBelowTwice : Glob where
  text := "/**/**"
  alternatives := [.steps [.root, .recursive, .recursive]]

/-- Below the root, a path that ends in a separator is matched if `**` is written twice, and not if
it is written once. -/
theorem isMatch_rootBelowTwice :
    (parse .empty "/**" = .ok rootBelow ∧ parse .empty "/**/**" = .ok rootBelowTwice) ∧
      (rootBelow.alternatives = [.steps ([.root] ++ .recursive :: [])] ∧
        rootBelowTwice.alternatives = [.steps ([.root] ++ .recursive :: .recursive :: [])]) ∧
      (rootBelow.uncheckedRegex.compiles = true ∧
        rootBelowTwice.uncheckedRegex.compiles = true) ∧
      rootBelow.isMatch "/a/" = false ∧ rootBelowTwice.isMatch "/a/" = true :=
  ⟨⟨by decide +kernel, by decide +kernel⟩, ⟨rfl, rfl⟩, ⟨by decide +kernel, by decide +kernel⟩,
    by decide +kernel, by decide +kernel⟩

end Glob

end PathPatterns
