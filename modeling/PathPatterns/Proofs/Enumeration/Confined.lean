import PathPatterns.Proofs.Enumeration.Sound

/-!
# Enumerations that stay among some directories

An enumeration asks for nothing but its bases and what is listed in what it has asked for. So if
listings lead from some directories to none but these, it does not matter what would be listed
elsewhere. In particular a lister need not be lawful for all requests, if it is for those that can
come about.

## Main results

* `Confined.expand`: a stage keeps to the directories.
* `Confined.isMatch`: what is enumerated matches, if the listings that can be reached are lawful.
-/

namespace PathPatterns

/-- Whether the listings of some directories hold nothing but what they may hold, and lead to none
but these directories. -/
structure Confined (lists allowed : Request → Set Item) (directories : Set String) : Prop where
  /-- What is listed in one of the directories may be listed there. -/
  subset : ∀ kind, ∀ path ∈ directories, lists ⟨kind, path⟩ ⊆ allowed ⟨kind, path⟩
  /-- What is listed as a directory is one of them. -/
  closed : ∀ kind, ∀ path ∈ directories, directoryPaths (lists ⟨kind, path⟩) ⊆ directories

namespace Confined

variable {lists allowed : Request → Set Item} {directories : Set String}

section Stages

variable {items others : Set Item} {segment : Segment} {segments : List Segment}

/-- A walk from one of the directories keeps to them, and is a walk through what is `allowed`. -/
theorem below (h : Confined lists allowed directories) {path last : String}
    (hpath : path ∈ directories) (hbelow : Below lists path last) :
    Below allowed path last ∧ last ∈ directories := by
  induction hbelow with
  | refl => exact ⟨.refl, hpath⟩
  | tail _ hchild ih =>
    obtain ⟨hwalk, hmem⟩ := ih
    exact ⟨hwalk.tail (h.subset _ _ hmem hchild), h.closed _ _ hmem hchild⟩

/-- What is `listed` in some of the `directories` is `allowed` there, and the directories in it are
among them. -/
theorem listed (h : Confined lists allowed directories) (kind : EntityKind)
    (hitems : items ⊆ others) (hdirectories : directoryPaths items ⊆ directories) :
    PathPatterns.listed lists kind items ⊆ PathPatterns.listed allowed kind others ∧
      directoryPaths (PathPatterns.listed lists kind items) ⊆ directories := by
  refine ⟨?_, ?_⟩
  · rintro item ⟨path, hpath, hitem⟩
    exact ⟨path, hitems hpath, h.subset kind path (hdirectories hpath) hitem⟩
  · rintro child ⟨path, hpath, hchild⟩
    exact h.closed kind path (hdirectories hpath) hchild

/-- A stage makes nothing of items in the directories but what it makes of them where all that is
`allowed` is listed, and keeps to the directories. -/
theorem expand (h : Confined lists allowed directories)
    (hdevice : ∀ letter, segment ≠ .device letter) (hitems : items ⊆ others)
    (hdirectories : directoryPaths items ⊆ directories) :
    segment.expand lists items ⊆ segment.expand allowed others ∧
      directoryPaths (segment.expand lists items) ⊆ directories := by
  cases segment with
  | root =>
    exact ⟨fun item hitem => ⟨hitems hitem.1, hitem.2⟩, fun path hpath => hdirectories hpath.1⟩
  | device letter => exact absurd rfl (hdevice letter)
  | component c =>
    obtain ⟨hsubset, hclosed⟩ := h.listed .fileOrDirectory hitems hdirectories
    exact ⟨fun item hitem => ⟨hsubset hitem.1, hitem.2⟩, fun path hpath => hclosed hpath.1⟩
  | anyDirectory => exact h.listed .directory hitems hdirectories
  | recursive =>
    -- a walk comes by directories only, and none of them leads out
    refine ⟨?_, ?_⟩
    · rintro item ⟨start, hstart, last, hbelow, rfl⟩
      exact ⟨start, hitems hstart, last, (h.below (hdirectories hstart) hbelow).1, rfl⟩
    · rintro path ⟨start, hstart, last, hbelow, heq⟩
      rw [Item.directory_inj.1 heq]
      exact (h.below (hdirectories hstart) hbelow).2

/-- Stage after stage, nothing is found but where all that is `allowed` is listed. -/
theorem foldl_expand (h : Confined lists allowed directories)
    (hdevice : ∀ letter, .device letter ∉ segments) (hitems : items ⊆ others)
    (hdirectories : directoryPaths items ⊆ directories) :
    segments.foldl (Segment.expand lists) items ⊆
      segments.foldl (Segment.expand allowed) others := by
  -- along the segments, for both kinds of listings at once
  induction segments generalizing items others with
  | nil => exact hitems
  | cons segment rest ih =>
    obtain ⟨hnext, hnextdirectories⟩ :=
      h.expand (fun letter heq => hdevice letter (heq ▸ List.mem_cons_self)) hitems hdirectories
    exact ih (fun letter hmem => hdevice letter (List.mem_cons_of_mem _ hmem)) hnext
      hnextdirectories

end Stages

variable {bases : List String}

/-- From bases among the directories, an alternative comes to nothing but what it comes to where all
that is `allowed` is listed. -/
theorem items_pipeline_subset (h : Confined lists allowed directories) {alternative : Alternative}
    (hdevice : ∀ letter, .device letter ∉ alternative.segments)
    (hbases : ∀ base ∈ bases, base ∈ directories) :
    (alternative.pipeline bases).items lists ⊆ (alternative.pipeline bases).items allowed := by
  cases alternative with
  | literal path => exact subset_rfl
  | steps segments =>
    rw [Alternative.items_pipeline, Alternative.items_pipeline]
    refine h.foldl_expand hdevice subset_rfl ?_
    rintro path ⟨base, hbase, heq⟩
    rw [Item.directory_inj.1 heq]
    exact hbases base hbase

variable {glob : Glob} {kind : EntityKind}

/-- From bases among the directories, no path is to come that would not come where all that is
`allowed` is listed. -/
theorem paths_enumerate_subset (h : Confined lists allowed directories)
    (hdevice : ∀ alternative ∈ glob.alternatives, ∀ letter, .device letter ∉ alternative.segments)
    (hbases : ∀ base ∈ bases, base ∈ directories) :
    (glob.enumerate kind bases).paths lists ⊆ (glob.enumerate kind bases).paths allowed := by
  refine Enumeration.pathsOf_mono ?_
  rintro item ⟨pipeline, hpipeline, hitem⟩
  obtain ⟨alternative, hmem, rfl⟩ := List.mem_map.1 hpipeline
  exact ⟨_, hpipeline, h.items_pipeline_subset (hdevice alternative hmem) hbases hitem⟩

/-- What is enumerated matches, if the listings of some directories hold nothing but children of
them (`childItems`) and lead to none but these directories, and the bases are among them. -/
theorem isMatch (h : Confined lists childItems directories) {lister : Lister}
    (hlister : lister.Within lists) (hwf : glob.WellFormed)
    (hdevice : ∀ alternative ∈ glob.alternatives, ∀ letter, .device letter ∉ alternative.segments)
    (hcompiles : glob.uncheckedRegex.compiles = true) (hbases : ∀ base ∈ bases, base ∈ directories)
    {results : List (Except ListingError String)} {last : Enumeration}
    (hrun : Enumeration.Run lister (glob.enumerate kind bases) results last) {path : String}
    (hpath : .ok path ∈ results) : glob.isMatch path = true := by
  have hcomes := Enumeration.mem_paths_of_run hlister hrun hpath
  rw [Glob.isMatch_iff_exists_fits hwf hcompiles]
  exact Enumeration.exists_fits_of_mem_paths hwf hdevice
    (h.paths_enumerate_subset hdevice hbases hcomes)

end Confined

end PathPatterns
