import PathPatterns.Proofs.Enumeration.Run
import PathPatterns.Proofs.Matching.Basic
import PathPatterns.Proofs.Matching.Covers

/-!
# What is enumerated matches

Segments are read in two ways: as the stages of a pipeline and as an expression. Behind each stage
the path of an item is covered by the segments so far, and either it ends in a name or the segments
so far have not looked at its end. Behind the last stage such a path fits.

## Main results

* `reached_expand`: a stage takes reached paths to reached paths.
* `reached_of_mem_foldl`: the items behind all stages are reached by all segments.
* `isMatch_of_mem_results`: whatever an enumeration yields is matched by its glob.
-/

namespace PathPatterns

/-- The items that may be listed for a request: each has the path of a `Path.child` of the
directory. -/
def childItems (request : Request) : Set Item :=
  {item | ∃ name : String, Path.IsName name.toList ∧
    item.path = Path.child request.directory name}

/-- A lister is lawful if it lists for each directory nothing but children of it, whatever it was
asked before. -/
def Lister.Lawful (lister : Lister) : Prop :=
  ∀ earlier request, ∀ item ∈ (lister.answer earlier request).items,
    ∃ name : String, Path.IsName name.toList ∧ item.path = Path.child request.directory name

theorem Lister.Lawful.within {lister : Lister} (h : lister.Lawful) : lister.Within childItems :=
  fun earlier request item hitem => h earlier request item hitem

namespace Segment

/-- What is known of a path behind the stages of the segments `done`: they cover it, and either it
ends in a name or they only say where to start. -/
structure Reached (done : List Segment) (path : String) : Prop where
  /-- The segments cover the components of the path. -/
  covers : Covers done (Path.stem path.toList)
  /-- The path ends in a name, or its end was never looked at. -/
  ending : (Path.components path.toList).getLast? ≠ some [] ∨
    IsPrelude done ∧ (isAnchored done = true → Path.isRoot path = true)

variable {done segments : List Segment} {segment : Segment} {path : String} {items : Set Item}

theorem reached_nil (path : String) : Reached [] path :=
  ⟨covers_nil _, .inr ⟨isPrelude_nil, by simp [isAnchored]⟩⟩

theorem reached_root (h : Path.isRoot path = true) : Reached [root] path := by
  refine ⟨⟨[], [[]], ?_, fun _ => rfl, takeAll_singleton_iff.2 rfl⟩, .inr ⟨?_, fun _ => h⟩⟩
  · exact (Path.components_of_isRoot h).2
  · simp [IsPrelude]

/-- If `done` reach a path, then with a segment that takes a name they reach the `child` of that
name. -/
theorem Reached.child (h : Reached done path) {name : String} (hname : Path.IsName name.toList)
    (htakes : segment.Takes [name.toList]) (hsegment : isAnchored [segment] = false) :
    Reached (done ++ [segment]) (Path.child path name) := by
  have hlast := Path.getLast?_components_child_ne path hname
  refine ⟨?_, .inl hlast⟩
  rw [Path.stem_of_getLast?_ne hlast, Path.components_child path hname]
  exact covers_append_singleton h.covers htakes hsegment

/-- A `**` may stay where it is. -/
theorem Reached.stay (h : Reached done path) : Reached (done ++ [recursive]) path := by
  have hanchored : isAnchored (done ++ [recursive]) = true → isAnchored done = true :=
    fun h => isAnchored_of_append_singleton h rfl
  refine ⟨?_, h.ending.imp_right ?_⟩
  · have hcovers := covers_append_singleton h.covers (show recursive.Takes [] by simp [Takes]) rfl
    rwa [List.append_nil] at hcovers
  · rintro ⟨hprelude, hroot⟩
    exact ⟨isPrelude_append_singleton.2 ⟨hprelude, .inr rfl⟩, fun h => hroot (hanchored h)⟩

/-- A `**` may go on to all directories below, by induction on the way down. -/
theorem Reached.below (h : Reached done path) {last : String}
    (hbelow : Below childItems path last) : Reached (done ++ [recursive]) last := by
  -- along the listings of the walk: each adds one name to what the `**` takes
  induction hbelow with
  | refl => exact h.stay
  | @tail directory _ _ hchild ih =>
    obtain ⟨name, hname, rfl⟩ := hchild
    have hlast := Path.getLast?_components_child_ne directory hname
    refine ⟨?_, .inl hlast⟩
    rw [Path.stem_of_getLast?_ne hlast, Path.components_child directory hname]
    exact ih.covers.append_of_recursive (by simpa [Takes] using hname.1)

/-- The stage of a segment takes paths that `done` reach to paths that these reach with the segment,
where nothing but children is listed. -/
theorem reached_expand (hwf : segment.WellFormed) (hdevice : ∀ letter, segment ≠ device letter)
    (hroot : segment = root → done = []) (h : ∀ item ∈ items, Reached done item.path) :
    ∀ item ∈ segment.expand childItems items, Reached (done ++ [segment]) item.path := by
  intro item hitem
  cases segment with
  | root =>
    rw [hroot rfl]
    exact reached_root hitem.2
  | device letter => exact absurd rfl (hdevice letter)
  | component c =>
    obtain ⟨⟨path, hpath, name, hname, hchild⟩, hmatches⟩ := hitem
    rw [hchild] at hmatches ⊢
    -- the name that is matched is the name of the child
    have haccepts : c.Accepts name.toList :=
      ((Component.matchesPath_iff_of_components hwf (Path.components_child path hname)).1
        hmatches).2
    exact (h _ hpath).child hname ⟨_, rfl, haccepts⟩ rfl
  | anyDirectory =>
    obtain ⟨path, hpath, name, hname, hchild⟩ := hitem
    rw [hchild]
    exact (h _ hpath).child hname ⟨_, rfl, hname.1⟩ rfl
  | recursive =>
    obtain ⟨start, hstart, last, hbelow, rfl⟩ := hitem
    exact (h _ hstart).below hbelow

/-- The items behind all stages are `Reached` by all segments, by induction on the segments. -/
theorem reached_of_mem_foldl (hwf : ∀ segment ∈ segments, segment.WellFormed)
    (hdevice : ∀ letter, device letter ∉ segments) (htail : root ∉ segments.tail)
    (hroot : segments.head? = some root → done = []) (h : ∀ item ∈ items, Reached done item.path) :
    ∀ item ∈ segments.foldl (expand childItems) items, Reached (done ++ segments) item.path := by
  -- along the segments: what is reached by those so far is reached by one more
  induction segments generalizing done items with
  | nil => simpa using h
  | cons segment rest ih =>
    obtain ⟨hsegment, hrest⟩ := List.forall_mem_cons.1 hwf
    have hnext := reached_expand hsegment (fun letter heq => hdevice letter (by simp [heq]))
      (fun heq => hroot (by simp [heq])) h
    rw [List.foldl_cons, List.append_cons]
    -- there is no root but at the start
    refine ih hrest (fun letter hmem => hdevice letter (by simp [hmem])) ?_ ?_ hnext
    · exact fun hmem => htail (List.mem_of_mem_tail hmem)
    · exact fun hhead => absurd (List.mem_of_mem_head? hhead) htail

end Segment

/-- The items that an alternative comes to fit it, where nothing but `childItems` is listed. -/
theorem Alternative.fits_of_mem_items {alternative : Alternative} (hwf : alternative.WellFormed)
    (hdevice : ∀ letter, .device letter ∉ alternative.segments) {bases : List String} {item : Item}
    (hitem : item ∈ (alternative.pipeline bases).items childItems) :
    alternative.Fits item.path := by
  cases alternative with
  | literal text =>
    -- a literal path is the only item, and it is normalized
    obtain rfl : item = .file text := by simpa [pipeline, Pipeline.items] using hitem
    exact hwf
  | steps segments =>
    rw [items_pipeline] at hitem
    have hreached := Segment.reached_of_mem_foldl hwf.2.1 hdevice hwf.2.2 (fun _ => rfl)
      (fun base _ => Segment.reached_nil base.path) item hitem
    rw [List.nil_append] at hreached
    exact Segment.fits_of_covers hwf hdevice hreached.covers hreached.ending

namespace Enumeration

/-- The `paths` that the enumeration of a glob comes to fit one of its alternatives, where nothing
but `childItems` is listed. -/
theorem exists_fits_of_mem_paths {glob : Glob} (hwf : glob.WellFormed)
    (hdevice : ∀ alternative ∈ glob.alternatives,
      ∀ letter, .device letter ∉ alternative.segments)
    {kind : EntityKind} {bases : List String} {path : String}
    (hpath : path ∈ (glob.enumerate kind bases).paths childItems) :
    ∃ alternative ∈ glob.alternatives, alternative.Fits path := by
  rcases hpath with hseen | ⟨item, ⟨pipeline, hpipeline, hitem⟩, -, rfl⟩
  · -- nothing has been seen at first
    exact absurd hseen Std.ExtTreeSet.not_mem_empty
  · obtain ⟨alternative, hmem, rfl⟩ := List.mem_map.1 hpipeline
    exact ⟨alternative, hmem,
      Alternative.fits_of_mem_items (hwf.2 alternative hmem) (hdevice alternative hmem) hitem⟩

/-- Whatever a `Run` of the enumeration of a glob without drives yields is matched by the glob, for
any lister that is `Lawful` and from any bases. The run need not be complete. -/
theorem isMatch_of_mem_results {env : Environment} {text : String} {glob : Glob}
    (hparse : Glob.parse env text = .ok glob)
    (hdevice : ∀ alternative ∈ glob.alternatives,
      ∀ letter, .device letter ∉ alternative.segments)
    (hcompiles : glob.uncheckedRegex.compiles = true) {lister : Lister} (hlawful : lister.Lawful)
    {kind : EntityKind} {bases : List String} {results : List (Except ListingError String)}
    {last : Enumeration} (hrun : Run lister (glob.enumerate kind bases) results last)
    {path : String} (hpath : .ok path ∈ results) : glob.isMatch path = true := by
  have hwf := Glob.wellFormed_of_parse hparse
  rw [Glob.isMatch_iff_exists_fits hwf hcompiles]
  exact exists_fits_of_mem_paths hwf hdevice (mem_paths_of_run hlawful.within hrun hpath)

/-- A lister of directories `src` that go on for ever, each with the next in it. -/
def nestedSources : Lister where
  answer _ request := .endless fun _ => .ok (.directory (Path.child request.directory "src"))

/-- The hypotheses of `isMatch_of_mem_results` hold of `nestedSources`, from a base with a separator
at its end. -/
theorem isMatch_of_nestedSources :
    nestedSources.Lawful ∧
      (∃ last, Run nestedSources (Glob.sourceDirectories.enumerate .directory ["/w/"])
        [.ok "/w/src/src"] last) ∧
      Glob.sourceDirectories.isMatch "/w/src/src" = true := by
  have hparse : Glob.parse .empty "src/*" = .ok Glob.sourceDirectories := by decide +kernel
  have hcompiles : Glob.sourceDirectories.uncheckedRegex.compiles = true := by decide +kernel
  have hdevice : ∀ alternative ∈ Glob.sourceDirectories.alternatives,
      ∀ letter, .device letter ∉ alternative.segments := by
    simp [Glob.sourceDirectories, Alternative.segments]
  have hlawful : nestedSources.Lawful := by
    rintro earlier request item ⟨n, hitem⟩
    exact ⟨"src", by decide, congrArg Item.path (Except.ok.inj hitem).symm⟩
  -- the step to the first directory, its listing, and that of the directory found there
  obtain ⟨last, hlast⟩ : ∃ last,
      (Glob.sourceDirectories.enumerate .directory ["/w/"]).advance nestedSources 10 =
        .result (.ok "/w/src/src") last := ⟨_, rfl⟩
  have hrun := Run.cons hlast (.nil last)
  exact ⟨hlawful, ⟨last, hrun⟩,
    isMatch_of_mem_results hparse hdevice hcompiles hlawful hrun (List.mem_singleton_self _)⟩

end Enumeration

end PathPatterns
