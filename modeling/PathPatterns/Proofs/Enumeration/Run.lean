import PathPatterns.Enumeration.Basic
import PathPatterns.Proofs.Enumeration.Items

/-!
# Runs of an enumeration

A run takes one result after the other from an enumeration. Where the listings hold nothing but
expected items, a run yields only paths of items that the pipelines come to; where they hold all of
them as well, a run that ends without a failure has yielded all those paths.

## Main results

* `mem_paths_of_run`: a run yields only paths that the enumeration comes to.
* `Completes.unique`: an enumeration has one complete run.
* `mem_paths_iff_of_completes`: a run that ends without a failure has yielded them all.
-/

namespace PathPatterns

/-- Whether all items that a lister ever lists are expected: they are among `lists`. -/
def Lister.Within (lister : Lister) (lists : Request → Set Item) : Prop :=
  ∀ earlier request, (lister.answer earlier request).items ⊆ lists request

/-- Whether a lister always lists all items that are expected, all of `lists`. -/
def Lister.Covers (lister : Lister) (lists : Request → Set Item) : Prop :=
  ∀ earlier request, lists request ⊆ (lister.answer earlier request).items

variable {lister : Lister} {lists : Request → Set Item}

namespace Stream

/-- The items that a stream comes to: those of all its pipelines. -/
def items (lists : Request → Set Item) (stream : Stream) : Set Item :=
  {item | ∃ pipeline ∈ stream.pipelines, item ∈ pipeline.items lists}

/-- The items that are yielded or still to come. -/
def Progress.items (lists : Request → Set Item) : Progress → Set Item
  | finished => ∅
  | working rest => rest.items lists
  | entry (.ok item) rest => insert item (rest.items lists)
  | entry (.error _) rest => rest.items lists

theorem items_nil (requests : List Request) : items lists ⟨[], requests⟩ = ∅ := by
  ext item
  simp [items]

/-- A stream comes to what its first pipeline comes to, and to what the pipelines in `later` do. -/
theorem items_cons (pipeline : Pipeline) (later : List Pipeline) (requests : List Request) :
    items lists ⟨pipeline :: later, requests⟩ =
      pipeline.items lists ∪ items lists ⟨later, requests⟩ := by
  ext item
  simp [items]

/-- A step of a stream brings no items that are not expected if the lister keeps `Within` these, and
loses none if it `Covers` them. -/
theorem items_step (lister : Lister) (lists : Request → Set Item) (stream : Stream) :
    (lister.Within lists → (stream.step lister).items lists ⊆ stream.items lists) ∧
      (lister.Covers lists → stream.items lists ⊆ (stream.step lister).items lists) := by
  -- only an answer can change the items
  have hsame : ∀ {before after : Set Item}, before = after →
      (lister.Within lists → after ⊆ before) ∧ (lister.Covers lists → before ⊆ after) :=
    fun h => ⟨fun _ => h.superset, fun _ => h.subset⟩
  obtain ⟨pipelines, requests⟩ := stream
  cases pipelines with
  | nil => exact hsame (items_nil requests)
  | cons pipeline later =>
    -- the step of the first pipeline is the step of the stream
    have hmeets : pipeline.step.Meets lists (Pipeline.items lists) (pipeline.items lists) :=
      pipeline.meets_step
    cases hstep : pipeline.step with
    | finished =>
      rw [hstep] at hmeets
      rw [step_of_finished hstep]
      refine hsame ?_
      rw [items_cons, show pipeline.items lists = ∅ from hmeets, Set.empty_union]
      rfl
    | skip rest =>
      rw [hstep] at hmeets
      rw [step_of_skip hstep]
      refine hsame ?_
      rw [items_cons, show pipeline.items lists = rest.items lists from hmeets, ← items_cons]
      rfl
    | yield entry rest =>
      rw [hstep] at hmeets
      rw [step_of_yield hstep]
      refine hsame ?_
      cases entry with
      | ok item =>
        rw [items_cons, show pipeline.items lists = insert item (rest.items lists) from hmeets,
          Set.insert_union, ← items_cons]
        rfl
      | error failure =>
        rw [items_cons, show pipeline.items lists = rest.items lists from hmeets, ← items_cons]
        rfl
    | ask request resume =>
      rw [hstep] at hmeets
      rw [step_of_ask hstep, Progress.items, items_cons, items_cons]
      obtain ⟨hsound, hcomplete⟩ := hmeets (lister.answer requests request)
      exact ⟨fun h => Set.union_subset_union_left _ (hsound (h requests request)),
        fun h => Set.union_subset_union_left _ (hcomplete (h requests request))⟩

/-- A stream whose step is `finished` comes to nothing more. -/
theorem items_of_finished {stream : Stream} (h : stream.step lister = .finished) :
    stream.items lists = ∅ := by
  obtain ⟨pipelines, requests⟩ := stream
  cases pipelines with
  | nil => exact items_nil requests
  | cons pipeline later =>
    simp only [step] at h
    split at h <;> simp at h

end Stream

namespace Enumeration

/-- Paths that have been `seen`, and those of the items of a kind. -/
def pathsOf (kind : EntityKind) (seen : Std.ExtTreeSet String) (items : Set Item) : Set String :=
  {path | path ∈ seen ∨ ∃ item ∈ items, kind.accepts item.kind = true ∧ item.path = path}

/-- The paths that an enumeration has yielded or comes to, if requests are answered with `lists`. -/
def paths (lists : Request → Set Item) (enumeration : Enumeration) : Set String :=
  pathsOf enumeration.kind enumeration.seen (enumeration.stream.items lists)

/-- The paths that are yielded by a step, or still to come after it. -/
def Progress.paths (lists : Request → Set Item) : Progress → Set String
  | finished rest => rest.paths lists
  | working rest => rest.paths lists
  | result (.ok path) rest => insert path (rest.paths lists)
  | result (.error _) rest => rest.paths lists

variable {kind : EntityKind} {seen : Std.ExtTreeSet String} {items more : Set Item} {item : Item}

theorem pathsOf_mono (h : items ⊆ more) : pathsOf kind seen items ⊆ pathsOf kind seen more := by
  rintro path (hseen | ⟨item, hitem, hpath⟩)
  · exact .inl hseen
  · exact .inr ⟨item, h hitem, hpath⟩

/-- An item of the kind brings its path, whether this is in `seen` or not. -/
theorem pathsOf_insert_of_accepts (h : kind.accepts item.kind = true) :
    pathsOf kind seen (insert item items) =
      insert item.path (pathsOf kind (seen.insert item.path) items) := by
  ext path
  refine ⟨?_, ?_⟩
  · rintro (hseen | ⟨other, rfl | hother, haccepts, rfl⟩)
    · exact .inr (.inl (Std.ExtTreeSet.mem_insert.2 (.inr hseen)))
    · exact .inl rfl
    · exact .inr (.inr ⟨other, hother, haccepts, rfl⟩)
  · rintro (rfl | hseen | ⟨other, hother, haccepts, rfl⟩)
    · exact .inr ⟨item, .inl rfl, h, rfl⟩
    · rcases Std.ExtTreeSet.mem_insert.1 hseen with heq | hseen
      · exact .inr ⟨item, .inl rfl, h, Std.LawfulEqOrd.eq_of_compare heq⟩
      · exact .inl hseen
    · exact .inr ⟨other, .inr hother, haccepts, rfl⟩

/-- An item of another kind, or one whose path is in `seen`, brings no path. -/
theorem pathsOf_insert_of_not (h : kind.accepts item.kind = true → item.path ∈ seen) :
    pathsOf kind seen (insert item items) = pathsOf kind seen items := by
  refine (pathsOf_mono (Set.subset_insert item items)).antisymm' ?_
  rintro path (hseen | ⟨other, rfl | hother, haccepts, rfl⟩)
  · exact .inl hseen
  · exact .inl (h haccepts)
  · exact .inr ⟨other, hother, haccepts, rfl⟩

/-- A step of an enumeration yields and leaves the paths that the step of its stream brings, by
`pathsOf`. -/
theorem paths_step_eq {enumeration : Enumeration} (h : enumeration.done = false) :
    (enumeration.step lister).paths lists =
      pathsOf enumeration.kind enumeration.seen ((enumeration.stream.step lister).items lists) := by
  obtain ⟨hstream, hstep⟩ | ⟨stream, hstream, hstep⟩ | ⟨failure, stream, hstream, hstep⟩ |
    ⟨item, stream, hstream, haccepts, -, hstep⟩ | ⟨item, stream, hstream, hnot, hstep⟩ :=
    step_cases lister h
  all_goals rw [hstep, hstream]
  · show pathsOf _ _ (enumeration.stream.items lists) = _
    rw [Stream.items_of_finished hstream]
    rfl
  · rfl
  · rfl
  · exact (pathsOf_insert_of_accepts haccepts).symm
  · exact (pathsOf_insert_of_not hnot).symm

/-- A step brings no paths that are not expected if the lister keeps `Within` these, and loses none
if it `Covers` them. -/
theorem paths_step (lister : Lister) (lists : Request → Set Item) (enumeration : Enumeration) :
    (lister.Within lists → (enumeration.step lister).paths lists ⊆ enumeration.paths lists) ∧
      (lister.Covers lists → enumeration.paths lists ⊆ (enumeration.step lister).paths lists) := by
  cases hdone : enumeration.done with
  | true =>
    rw [step, if_pos hdone]
    exact ⟨fun _ => subset_rfl, fun _ => subset_rfl⟩
  | false =>
    rw [paths_step_eq hdone]
    obtain ⟨hsound, hcomplete⟩ := enumeration.stream.items_step lister lists
    exact ⟨fun h => pathsOf_mono (hsound h), fun h => pathsOf_mono (hcomplete h)⟩

/-! ## Runs -/

/-- Takes some results from an enumeration, one advance after the other. -/
inductive Run (lister : Lister) :
    Enumeration → List (Except ListingError String) → Enumeration → Prop
  /-- No result is taken. -/
  | nil (enumeration : Enumeration) : Run lister enumeration [] enumeration
  /-- The first result is taken, and others after it. -/
  | cons {enumeration next last : Enumeration} {steps : Nat}
      {result : Except ListingError String} {results : List (Except ListingError String)}
      (first : enumeration.advance lister steps = .result result next)
      (rest : Run lister next results last) : Run lister enumeration (result :: results) last

/-- The next result of an `advance` is a path that the enumeration comes to, and nothing new is
expected after it. -/
theorem paths_of_advance (hlister : lister.Within lists) {steps : Nat}
    {enumeration next : Enumeration} {result : Except ListingError String}
    (h : enumeration.advance lister steps = .result result next) :
    next.paths lists ⊆ enumeration.paths lists ∧
      ∀ path, result = .ok path → path ∈ enumeration.paths lists := by
  -- on the steps: those without a result add nothing to what is expected
  induction steps generalizing enumeration with
  | zero => simp [advance] at h
  | succ steps ih =>
    have hstep := (paths_step lister lists enumeration).1 hlister
    rw [advance] at h
    cases hprogress : enumeration.step lister with
    | finished rest => simp [hprogress] at h
    | working rest =>
      rw [hprogress] at h hstep
      obtain ⟨hnext, hresult⟩ := ih h
      exact ⟨hnext.trans hstep, fun path hpath => hstep (hresult path hpath)⟩
    | result result' rest =>
      rw [hprogress] at h hstep
      obtain ⟨rfl, rfl⟩ : result' = result ∧ rest = next := by simpa using h
      cases result' with
      | ok path =>
        refine ⟨(Set.subset_insert _ _).trans hstep, ?_⟩
        rintro _ ⟨⟩
        exact hstep (.inl rfl)
      | error failure => exact ⟨hstep, by simp⟩

/-- A run yields only paths that the enumeration comes to, if the lister keeps `Within` what is
expected. -/
theorem mem_paths_of_run (hlister : lister.Within lists) {enumeration last : Enumeration}
    {results : List (Except ListingError String)} (h : Run lister enumeration results last)
    {path : String} (hpath : .ok path ∈ results) : path ∈ enumeration.paths lists := by
  -- a later result was expected before the earlier ones were taken
  induction h with
  | nil => simp at hpath
  | cons first rest ih =>
    obtain ⟨hnext, hresult⟩ := paths_of_advance hlister first
    rcases List.mem_cons.1 hpath with hfirst | hrest
    · exact hresult path hfirst.symm
    · exact hnext (ih hrest)

/-! ## Complete runs -/

/-- Takes all results of an enumeration, up to its end; a failure may be the last of them. -/
def Completes (lister : Lister) (enumeration : Enumeration)
    (results : List (Except ListingError String)) : Prop :=
  ∃ last steps rest, Run lister enumeration results last ∧
    last.advance lister steps = .finished rest

variable {enumeration next : Enumeration} {results : List (Except ListingError String)}

/-- An enumeration whose step is `finished` completes without results. -/
theorem completes_of_finished (h : enumeration.step lister = .finished next) :
    Completes lister enumeration [] := by
  refine ⟨enumeration, 1, next, .nil enumeration, ?_⟩
  rw [advance, h]

/-- A `working` step does not change what a complete run yields. -/
theorem Completes.of_working (h : enumeration.step lister = .working next)
    (hnext : Completes lister next results) : Completes lister enumeration results := by
  have hadvance : ∀ steps, enumeration.advance lister (steps + 1) = next.advance lister steps := by
    intro steps
    rw [advance, h]
  obtain ⟨last, steps, rest, hrun, hlast⟩ := hnext
  -- the step belongs to the first advance of the run, or to the last if there are no results
  cases hrun with
  | nil => exact ⟨enumeration, steps + 1, rest, .nil enumeration, by rw [hadvance, hlast]⟩
  | cons first hrun => exact ⟨last, steps, rest, .cons ((hadvance _).trans first) hrun, hlast⟩

/-- A step with a `result` puts this in front of what a complete run yields after it. -/
theorem Completes.of_result {result : Except ListingError String}
    (h : enumeration.step lister = .result result next) (hnext : Completes lister next results) :
    Completes lister enumeration (result :: results) := by
  have hadvance : enumeration.advance lister 1 = .result result next := by
    rw [advance, h]
  obtain ⟨last, steps, rest, hrun, hlast⟩ := hnext
  exact ⟨last, steps, rest, .cons hadvance hrun, hlast⟩

/-- However many steps are allowed, an `advance` comes to the same, unless it is `unfinished`. -/
theorem advance_unique {m n : Nat} {first second : Advance}
    (hfirst : enumeration.advance lister m = first)
    (hsecond : enumeration.advance lister n = second)
    (hm : ∀ rest, first ≠ .unfinished rest) (hn : ∀ rest, second ≠ .unfinished rest) :
    first = second := by
  subst hfirst hsecond
  rw [← advance_add hm n, ← advance_add hn m, Nat.add_comm]

/-- An enumeration has at most one complete run: its `results` are determined. -/
theorem Completes.unique {others : List (Except ListingError String)}
    (h : Completes lister enumeration results) (hother : Completes lister enumeration others) :
    results = others := by
  obtain ⟨last, steps, rest, hrun, hlast⟩ := h
  obtain ⟨last', steps', rest', hrun', hlast'⟩ := hother
  -- the two runs take their results from the same advances, so they end together
  induction hrun generalizing others with
  | nil =>
    cases hrun' with
    | nil => rfl
    | cons first' _ => cases advance_unique hlast first' (by simp) (by simp)
  | cons first _ ih =>
    cases hrun' with
    | nil => cases advance_unique first hlast' (by simp) (by simp)
    | cons first' hrun' =>
      obtain ⟨rfl, rfl⟩ := Advance.result.inj (advance_unique first first' (by simp) (by simp))
      rw [ih hlast hrun']

/-- While an enumeration goes on, `seen` are the paths that it has yielded; at its end it has
nothing more to come to. -/
theorem seen_of_step (lister : Lister) (lists : Request → Set Item)
    (hdone : enumeration.done = false) :
    match enumeration.step lister with
    | .finished _ => ∀ path ∈ enumeration.paths lists, path ∈ enumeration.seen
    | .working rest => rest.done = false ∧ rest.seen = enumeration.seen
    | .result (.ok path) rest => rest.done = false ∧ rest.seen = enumeration.seen.insert path
    | .result (.error _) _ => True := by
  obtain ⟨hstream, hstep⟩ | ⟨_, -, hstep⟩ | ⟨_, _, -, hstep⟩ | ⟨_, _, -, -, -, hstep⟩ |
    ⟨_, _, -, -, hstep⟩ := step_cases lister hdone
  all_goals rw [hstep]
  · rintro path (hseen | ⟨item, hitem, -⟩)
    · exact hseen
    · rw [Stream.items_of_finished hstream] at hitem
      exact absurd hitem (Set.notMem_empty item)
  · exact ⟨hdone, rfl⟩
  · trivial
  · exact ⟨hdone, rfl⟩
  · exact ⟨hdone, rfl⟩

/-- An enumeration that ends has yielded all paths that it came to, if the lister `Covers` what is
expected. -/
theorem mem_seen_of_advance_finished (hcovers : lister.Covers lists) {steps : Nat}
    (hdone : enumeration.done = false)
    (h : enumeration.advance lister steps = .finished next) :
    ∀ path ∈ enumeration.paths lists, path ∈ enumeration.seen := by
  induction steps generalizing enumeration with
  | zero => simp [advance] at h
  | succ steps ih =>
    have hcomplete := (paths_step lister lists enumeration).2 hcovers
    have hseen := seen_of_step lister lists hdone
    rw [advance] at h
    cases hprogress : enumeration.step lister with
    | finished rest =>
      simp only [hprogress] at hseen
      exact hseen
    | working rest =>
      simp only [hprogress, Progress.paths] at h hcomplete hseen
      rw [← hseen.2]
      exact fun path hpath => ih hseen.1 h path (hcomplete hpath)
    | result result rest => simp [hprogress] at h

section Exact

variable (hwithin : lister.Within lists) (hcovers : lister.Covers lists)

include hwithin hcovers

/-- The path that an `advance` yields is the only one that is no longer to come after it. -/
theorem paths_eq_of_advance_ok {steps : Nat} {path : String} (hdone : enumeration.done = false)
    (h : enumeration.advance lister steps = .result (.ok path) next) :
    next.done = false ∧ next.paths lists = enumeration.paths lists ∧
      ∀ other, other ∈ next.seen ↔ other = path ∨ other ∈ enumeration.seen := by
  induction steps generalizing enumeration with
  | zero => simp [advance] at h
  | succ steps ih =>
    obtain ⟨hsound, hcomplete⟩ := paths_step lister lists enumeration
    have hpaths := (hsound hwithin).antisymm (hcomplete hcovers)
    have hseen := seen_of_step lister lists hdone
    rw [advance] at h
    cases hprogress : enumeration.step lister with
    | finished rest => simp [hprogress] at h
    | working rest =>
      simp only [hprogress, Progress.paths] at h hpaths hseen
      obtain ⟨hrestdone, hrestseen⟩ := hseen
      obtain ⟨hnext, heq, hmem⟩ := ih hrestdone h
      exact ⟨hnext, heq.trans hpaths, by rwa [hrestseen] at hmem⟩
    | result result rest =>
      simp only [hprogress] at h hpaths hseen
      obtain ⟨rfl, rfl⟩ : result = .ok path ∧ rest = next := by simpa using h
      obtain ⟨hrestdone, hrestseen⟩ := hseen
      -- the path was not seen before, and counts among the yielded ones from now on
      have hmem : ∀ other, other ∈ rest.seen ↔ other = path ∨ other ∈ enumeration.seen := by
        intro other
        rw [hrestseen, Std.ExtTreeSet.mem_insert, Std.LawfulEqOrd.compare_eq_iff_eq, eq_comm]
      refine ⟨hrestdone, ?_, hmem⟩
      rw [← hpaths]
      exact (Set.insert_eq_of_mem (.inl ((hmem path).2 (.inl rfl)))).symm

/-- If the results that an enumeration `Completes` with are all paths, they are all `paths` to which
it came, and no others but those that it had `seen`. -/
theorem mem_paths_iff_of_completes {paths : List String} (hdone : enumeration.done = false)
    (h : Completes lister enumeration (paths.map .ok)) (path : String) :
    path ∈ enumeration.paths lists ↔ path ∈ paths ∨ path ∈ enumeration.seen := by
  obtain ⟨last, steps, rest, hrun, hlast⟩ := h
  -- on the results, the set of paths stays the same while they move from coming to seen
  induction paths generalizing enumeration with
  | nil =>
    cases hrun
    simp only [List.not_mem_nil, false_or]
    exact ⟨fun hpath => mem_seen_of_advance_finished hcovers hdone hlast path hpath, .inl⟩
  | cons first paths ih =>
    cases hrun with
    | cons hfirst hrun =>
      obtain ⟨hnext, hpaths, hseen⟩ := paths_eq_of_advance_ok hwithin hcovers hdone hfirst
      rw [← hpaths, ih hnext hrun, hseen, List.mem_cons, or_left_comm, or_assoc]

end Exact

end Enumeration

end PathPatterns
