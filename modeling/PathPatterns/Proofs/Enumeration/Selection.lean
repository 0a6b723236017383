import Mathlib.Data.Set.Card
import PathPatterns.Proofs.Enumeration.Ends

/-!
# What a glob selects

A glob selects items as its alternatives say: a literal path selects itself as a file, and segments
are sets of items made from sets of items, one after the other. An enumeration takes these sets
apart into entries, one directory after the other. It comes to its end and has given exactly what
the sets hold if there are only finitely many directories below each one, none of them twice on the
way down.

## Main results

* `exists_finitelyRanked`: where finitely many directories lie below each one and no way leads back,
  the number of directories below is a rank.
* `mem_iff_selected_of_finitary`: an enumeration gives the paths of the selected items, each once.
-/

namespace PathPatterns

/-- The items that an alternative selects, from the base directories on. -/
def Alternative.selection (lists : Request → Set Item) (bases : List String) :
    Alternative → Set Item
  | literal path => {.file path}
  | steps segments =>
    segments.foldl (Segment.expand lists) {item | ∃ base ∈ bases, item = .directory base}

/-- An alternative comes to the items of its `selection`. -/
theorem Alternative.items_pipeline_eq_selection (lists : Request → Set Item) (bases : List String)
    (alternative : Alternative) :
    (alternative.pipeline bases).items lists = alternative.selection lists bases := by
  cases alternative with
  | literal path =>
    ext item
    simp [pipeline, Pipeline.items, selection]
  | steps segments => exact items_pipeline bases segments

/-- The directories that nobody has to list for an enumeration to come to them: the bases and the
roots of the drives that a glob names. -/
def Glob.starts (glob : Glob) (bases : List String) : Set String :=
  {path | path ∈ bases ∨ ∃ alternative ∈ glob.alternatives, ∃ letter,
    .device letter ∈ alternative.segments ∧ path = Segment.driveRoot letter}

/-- The glob `**` of all directories, at any depth below the bases. -/
def allDirectories : Glob where
  text := "**"
  alternatives := [.steps [.recursive]]

/-- An enumeration of `allDirectories` from one base starts there alone, as it names no drive. -/
theorem mem_starts_allDirectories_iff {path other : String} :
    other ∈ allDirectories.starts [path] ↔ other = path := by
  simp [Glob.starts, allDirectories, Alternative.segments]

/-- The directories that can be reached: those at the start, and those that are listed in a
directory that can be reached. Listings of files alone do not count, as nobody asks for them. -/
inductive Reaches (lists : Request → Set Item) (starts : Set String) : String → Prop
  /-- A directory at the start. -/
  | start {path : String} (h : path ∈ starts) : Reaches lists starts path
  /-- A directory in another. -/
  | listed {kind : EntityKind} {path child : String} (hkind : kind ≠ .file)
      (hpath : Reaches lists starts path) (hchild : .directory child ∈ lists ⟨kind, path⟩) :
      Reaches lists starts child

/-- Finitely many directories lie below each directory that can be reached, and none of them leads
back to it. -/
structure Finitary (lists : Request → Set Item) (starts : Set String) : Prop where
  /-- Finitely many directories lie below each one. -/
  finite : ∀ {path}, Reaches lists starts path → {other | Below lists path other}.Finite
  /-- No directory lies below one that is listed in it. -/
  acyclic : ∀ {path child}, Reaches lists starts path →
    .directory child ∈ lists ⟨.directory, path⟩ → ¬ Below lists child path

section Rank

variable {lists : Request → Set Item} {starts : Set String} {path child : String}

/-- Fewer directories lie below a directory than below the one that it is listed in, which is not
among them as listings are `acyclic`. -/
theorem Finitary.ncard_below_lt (h : Finitary lists starts) (hpath : Reaches lists starts path)
    (hchild : .directory child ∈ lists ⟨.directory, path⟩) :
    {other | Below lists child other}.ncard < {other | Below lists path other}.ncard := by
  refine Set.ncard_lt_ncard ⟨fun other hother => ?_, fun hsub => ?_⟩ (h.finite hpath)
  · exact Relation.ReflTransGen.head hchild hother
  · exact h.acyclic hpath hchild (hsub Relation.ReflTransGen.refl)

end Rank

/-- Whether the listings of a lister are finite and without failures, and are `contents` at all
times. -/
def Lister.AnswersWith (lister : Lister) (contents : Request → List Item) : Prop :=
  ∀ earlier request, lister.answer earlier request = .finite ((contents request).map .ok)

/-- The items in finite listings, as sets. -/
def itemsIn (contents : Request → List Item) (request : Request) : Set Item :=
  {item | item ∈ contents request}

@[simp]
theorem Listing.items_finite_map (items : List Item) :
    (finite (items.map .ok)).items = {item | item ∈ items} := by
  ext item
  simp [Listing.items]

namespace Enumeration

variable {contents : Request → List Item} {lister : Lister}

/-- The directories that can be reached are `FinitelyRanked`, by the number of directories below
each. -/
theorem exists_finitelyRanked {starts : Set String} (h : Finitary (itemsIn contents) starts) :
    ∃ rank, Pipeline.FinitelyRanked False (fun request => .finite ((contents request).map .ok))
      (Reaches (itemsIn contents) starts) rank := by
  refine ⟨fun path => {other | Below (itemsIn contents) path other}.ncard, ?_, ?_, ?_⟩
  · intro kind path _ _
    exact ⟨_, rfl, by simp⟩
  · intro kind path child hkind hpath hchild
    rw [Listing.items_finite_map] at hchild
    exact hpath.listed hkind hchild
  · intro path child hpath hchild
    rw [Listing.items_finite_map] at hchild
    exact h.ncard_below_lt hpath hchild

/-- The pipeline of every alternative `Ends`, as it starts from what can be reached. -/
theorem ends_of_finitary {glob : Glob} {bases : List String}
    (h : Finitary (itemsIn contents) (glob.starts bases)) {alternative : Alternative}
    (hmem : alternative ∈ glob.alternatives) :
    (alternative.pipeline bases).Ends fun request => .finite ((contents request).map .ok) := by
  obtain ⟨rank, hranked⟩ := exists_finitelyRanked h
  refine Pipeline.halts_pipeline hranked (fun letter hletter => .start ?_)
    fun base hbase => .start ?_
  · exact .inr ⟨_, hmem, letter, hletter, rfl⟩
  · exact .inl hbase

/-- At the start, the `paths` that are to come are those of the items of the kind in the `selection`
of an alternative. -/
theorem mem_paths_enumerate_iff (lists : Request → Set Item) (glob : Glob) (kind : EntityKind)
    (bases : List String) (path : String) :
    path ∈ (glob.enumerate kind bases).paths lists ↔
      ∃ alternative ∈ glob.alternatives, ∃ item ∈ alternative.selection lists bases,
        kind.accepts item.kind = true ∧ item.path = path := by
  have hunseen : path ∉ (glob.enumerate kind bases).seen := Std.ExtTreeSet.not_mem_empty
  refine (or_iff_right hunseen).trans ⟨?_, ?_⟩
  · rintro ⟨item, ⟨pipeline, hpipeline, hitem⟩, hpath⟩
    obtain ⟨alternative, hmem, rfl⟩ := List.mem_map.1 hpipeline
    rw [alternative.items_pipeline_eq_selection] at hitem
    exact ⟨alternative, hmem, item, hitem, hpath⟩
  · rintro ⟨alternative, hmem, item, hitem, hpath⟩
    rw [← alternative.items_pipeline_eq_selection] at hitem
    exact ⟨item, ⟨_, List.mem_map_of_mem hmem, hitem⟩, hpath⟩

/-- An enumeration has exactly one complete run, and this yields the paths of the items in the
`selection` of its alternatives that have its kind, each path once. It is enough that the lister
`AnswersWith` finite listings without failures that are the same at all times, and that these are
`Finitary`: finitely many directories lie below each one, and none of them leads back. -/
theorem mem_iff_selected_of_finitary (glob : Glob) (kind : EntityKind) (bases : List String)
    (hlister : lister.AnswersWith contents)
    (h : Finitary (itemsIn contents) (glob.starts bases)) :
    ∃ paths : List String, paths.Nodup ∧
      (∀ results, Completes lister (glob.enumerate kind bases) results ↔
        results = paths.map .ok) ∧
      ∀ path, path ∈ paths ↔ ∃ alternative ∈ glob.alternatives,
        ∃ item ∈ alternative.selection (itemsIn contents) bases,
          kind.accepts item.kind = true ∧ item.path = path := by
  have hends : ∀ pipeline ∈ (glob.enumerate kind bases).stream.pipelines,
      pipeline.Ends fun request => .finite ((contents request).map .ok) := by
    intro pipeline hpipeline
    obtain ⟨alternative, hmem, rfl⟩ := List.mem_map.1 hpipeline
    exact ends_of_finitary h hmem
  obtain ⟨paths, hnodup, hpaths⟩ := exists_completes hlister hends
  have hitems : ∀ earlier request,
      (lister.answer earlier request).items = itemsIn contents request := fun earlier request => by
    rw [hlister, Listing.items_finite_map]
    rfl
  refine ⟨paths, hnodup, fun results => ⟨fun hall => hall.unique hpaths, fun heq => heq ▸ hpaths⟩,
    fun path => ?_⟩
  -- nothing is seen at first, so the paths are those of the selected items
  have hexact := mem_paths_iff_of_completes (fun earlier request => (hitems earlier request).subset)
    (fun earlier request => (hitems earlier request).superset) rfl hpaths path
  rw [← mem_paths_enumerate_iff, hexact]
  exact (or_iff_left Std.ExtTreeSet.not_mem_empty).symm

/-- A directory with a directory and a file, and in the directory a file of the same name. -/
def twoLevels (request : Request) : List Item :=
  if request.directory = "/w" then [.directory "/w/a", .file "/w/b"]
  else if request.directory = "/w/a" then [.file "/w/a/b"]
  else []

/-- The entities that are called `b`, at any depth. -/
def namedB : Glob where
  text := "**/b"
  alternatives := [.steps [.recursive, .component ⟨"b", [.char 'b']⟩]]

/-- The upper level of `twoLevels` has the only directory that is listed anywhere. -/
theorem directory_mem_twoLevels_iff {kind : EntityKind} {path child : String} :
    .directory child ∈ itemsIn twoLevels ⟨kind, path⟩ ↔ path = "/w" ∧ child = "/w/a" := by
  rw [itemsIn, twoLevels]
  split
  · simp_all [Item.directory, Item.file]
  · split <;> simp_all [Item.directory, Item.file]

/-- The listings of `twoLevels` are `Finitary`. -/
theorem finitary_twoLevels : Finitary (itemsIn twoLevels) (namedB.starts ["/w"]) where
  finite {path} _ := by
    -- a walk stays where it begins or comes to the lower level
    refine Set.Finite.subset (Set.toFinite {path, "/w/a"}) fun other hother => ?_
    cases hother with
    | refl => exact .inl rfl
    | tail _ hchild => exact .inr (directory_mem_twoLevels_iff.1 hchild).2
  acyclic {path child} _ hchild hback := by
    obtain ⟨rfl, rfl⟩ := directory_mem_twoLevels_iff.1 hchild
    rcases Relation.ReflTransGen.cases_head hback with heq | ⟨next, hnext, -⟩
    · exact absurd heq (by decide)
    · exact absurd (directory_mem_twoLevels_iff.1 hnext).1 (by decide)

/-- The hypotheses of `mem_iff_selected_of_finitary` hold of `twoLevels` and `namedB`, and the paths
on both levels are among those that are yielded. -/
theorem mem_selected_twoLevels :
    ∃ paths : List String, paths.Nodup ∧
      (∀ results, Completes (.ofFunction fun request => (twoLevels request).map .ok)
        (namedB.enumerate .file ["/w"]) results ↔ results = paths.map .ok) ∧
      "/w/b" ∈ paths ∧ "/w/a/b" ∈ paths := by
  have hlister :
      (Lister.ofFunction fun request => (twoLevels request).map .ok).AnswersWith twoLevels :=
    fun _ _ => rfl
  obtain ⟨paths, hnodup, hresults, hmem⟩ :=
    mem_iff_selected_of_finitary namedB .file ["/w"] hlister finitary_twoLevels
  have hstart : "/w" ∈ directoryPaths {item | ∃ base ∈ ["/w"], item = .directory base} :=
    ⟨"/w", by simp, rfl⟩
  refine ⟨paths, hnodup, hresults, (hmem _).2 ?_, (hmem _).2 ?_⟩
  · -- a `**` leads to the base itself, and to the directory in it
    refine ⟨_, List.mem_singleton_self _, .file "/w/b", ⟨⟨"/w", ?_, ?_⟩, ?_⟩, rfl, rfl⟩
    · exact ⟨"/w", hstart, "/w", .refl, rfl⟩
    · exact List.mem_cons_of_mem _ (List.mem_singleton_self _)
    · rfl
  · refine ⟨_, List.mem_singleton_self _, .file "/w/a/b", ⟨⟨"/w/a", ?_, ?_⟩, ?_⟩, rfl, rfl⟩
    · exact ⟨"/w", hstart, "/w/a", .single (directory_mem_twoLevels_iff.2 ⟨rfl, rfl⟩), rfl⟩
    · exact List.mem_singleton_self _
    · rfl

end Enumeration

end PathPatterns
