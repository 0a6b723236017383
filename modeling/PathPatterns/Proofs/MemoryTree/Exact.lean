import PathPatterns.Proofs.Matching.Basic
import PathPatterns.Proofs.Matching.Covers
import PathPatterns.Proofs.MemoryTree.Nodes

/-!
# What is found in a tree

In a regular tree the stages of an alternative lose nothing: behind some segments stand the nodes
that these cover, and behind all of them those that match.

## Main results

* `expand_found`: one more stage finds the nodes that one more segment covers.
* `fits_pathOf_iff`: the path of a node fits exactly if its names are covered.
* `mem_iff_isMatch_of_insertAll`: an enumeration from the root yields exactly what matches.
-/

namespace PathPatterns

namespace MemoryTree

open PathPatterns.Path PathPatterns.Segment

/-- Whether the last of some segments is a component; only then files are found. -/
def EndsInComponent (segments : List Segment) : Prop :=
  ∃ c, segments.getLast? = some (.component c)

/-- The nodes that some segments cover; only a component looks at anything but directories. -/
def found (tree : MemoryTree) (segments : List Segment) : Set Item :=
  {item | ∃ names, item.path = pathOf names ∧ tree.HasNode names item.kind ∧
    Covers segments ([] :: names) ∧ (EndsInComponent segments ∨ item.kind = .directory)}

/-- The items that the listings of a tree hold, by request. -/
abbrev lists (tree : MemoryTree) (request : Request) : Set Item :=
  (tree.listing request).items

variable {tree : MemoryTree} {segments done : List Segment} {segment : Segment}
  {names : List (List Char)} {item : Item}

/-- The directories among the nodes that some segments have `found` are those that they cover. -/
theorem directory_mem_found_iff {path : String} :
    path ∈ directoryPaths (tree.found segments) ↔
      ∃ names, path = pathOf names ∧ tree.HasNode names .directory ∧
        Covers segments ([] :: names) := by
  refine ⟨?_, ?_⟩
  · rintro ⟨names, hpath, hnode, hcovers, -⟩
    exact ⟨names, hpath, hnode, hcovers⟩
  · rintro ⟨names, hpath, hnode, hcovers⟩
    exact ⟨names, hpath, hnode, hcovers, .inr rfl⟩

/-- A segment that takes single names, those with `P`, covers one more name, since it takes no empty
component. -/
theorem covers_name_iff (hne : done ≠ []) {P : List Char → Prop}
    (hsingle : ∀ more, segment.Takes more ↔ ∃ name, more = [name] ∧ P name) (hP : ¬ P []) :
    Covers (done ++ [segment]) ([] :: names) ↔
      ∃ front name, names = front ++ [name] ∧ Covers done ([] :: front) ∧ P name := by
  rw [covers_append_singleton_iff hne]
  simp only [hsingle]
  refine ⟨?_, ?_⟩
  · rintro ⟨front, _, hnames, hcovers, name, rfl, hname⟩
    cases front with
    | nil =>
      -- the name would be the empty component in front of the first separator
      obtain ⟨rfl, -⟩ := List.cons.inj hnames
      exact absurd hname hP
    | cons first front =>
      obtain ⟨rfl, rfl⟩ := List.cons.inj hnames
      exact ⟨front, name, rfl, hcovers, hname⟩
  · rintro ⟨front, name, rfl, hcovers, hname⟩
    exact ⟨[] :: front, [name], rfl, hcovers, name, rfl, hname⟩

/-- A component matches the path of a node if it accepts the last name on it. -/
theorem matchesPath_pathOf_iff {c : Component} (hwf : c.WellFormed) {name : List Char}
    (h : ∀ other ∈ names ++ [name], IsName other) :
    c.matchesPath (pathOf (names ++ [name])) = true ↔ c.Accepts name := by
  have hcomponents : components (pathOf (names ++ [name])).toList = [] :: names ++ [name] := by
    rw [toList_pathOf, components_absolute h]
  rw [Component.matchesPath_iff_of_components hwf hcomponents]
  exact and_iff_right (by simp)

section Regular

variable (htree : tree.Regular)

include htree

/-- The listings of the directories that some segments have `found` hold the nodes one name below
them. -/
theorem mem_listed_found_iff {kind : EntityKind} :
    item ∈ listed tree.lists kind (tree.found done) ↔
      ∃ front name, item.path = pathOf (front ++ [name]) ∧
        tree.HasNode (front ++ [name]) item.kind ∧ kind.accepts item.kind = true ∧
          Covers done ([] :: front) := by
  simp only [listed, directory_mem_found_iff]
  refine ⟨?_, ?_⟩
  · rintro ⟨_, ⟨front, rfl, hnode, hcovers⟩, hitem⟩
    obtain ⟨name, hpath, hchild, haccepts⟩ := (mem_listing_iff htree hnode.1).1 hitem
    exact ⟨front, name, hpath, hchild, haccepts, hcovers⟩
  · rintro ⟨front, name, hpath, hchild, haccepts, hcovers⟩
    have hnode := hchild.parent htree
    exact ⟨_, ⟨front, rfl, hnode, hcovers⟩,
      (mem_listing_iff htree hnode.1).2 ⟨name, hpath, hchild, haccepts⟩⟩

/-- The stage of a component takes what is `found` to the nodes one name below that it accepts. -/
theorem expand_component_found (hne : done ≠ []) {c : Component} (hwf : c.WellFormed)
    (hempty : ¬ c.Accepts []) :
    (component c).expand tree.lists (tree.found done) = tree.found (done ++ [component c]) := by
  have hends : EndsInComponent (done ++ [component c]) := ⟨c, by simp⟩
  ext item
  show item ∈ listed _ _ _ ∧ _ ↔ ∃ names, _
  rw [mem_listed_found_iff htree]
  simp only [covers_name_iff hne (fun _ => Iff.rfl (a := (component c).Takes _)) hempty]
  refine ⟨?_, ?_⟩
  · rintro ⟨⟨front, name, hpath, hnode, -, hcovers⟩, hmatches⟩
    rw [hpath, matchesPath_pathOf_iff hwf hnode.isName] at hmatches
    exact ⟨_, hpath, hnode, ⟨front, name, rfl, hcovers, hmatches⟩, .inl hends⟩
  · rintro ⟨_, hpath, hnode, ⟨front, name, rfl, hcovers, haccepts⟩, -⟩
    refine ⟨⟨front, name, hpath, hnode, rfl, hcovers⟩, ?_⟩
    rwa [hpath, matchesPath_pathOf_iff hwf hnode.isName]

/-- The stage of a `*` finds the directories one name below, and no files. -/
theorem expand_anyDirectory_found (hne : done ≠ []) :
    anyDirectory.expand tree.lists (tree.found done) = tree.found (done ++ [anyDirectory]) := by
  have hkind : ∀ item : Item, EntityKind.directory.accepts item.kind = true ↔
      EndsInComponent (done ++ [anyDirectory]) ∨ item.kind = .directory := by
    intro item
    rw [EntityKind.accepts_iff]
    simp [EndsInComponent, eq_comm]
  ext item
  show item ∈ listed _ _ _ ↔ ∃ names, _
  rw [mem_listed_found_iff htree]
  simp only [covers_name_iff hne (fun _ => Iff.rfl (a := anyDirectory.Takes _)) (by simp), ← hkind]
  refine ⟨?_, ?_⟩
  · rintro ⟨front, name, hpath, hnode, haccepts, hcovers⟩
    have hname := (hnode.isName name (by simp)).1
    exact ⟨_, hpath, hnode, ⟨front, name, rfl, hcovers, hname⟩, haccepts⟩
  · rintro ⟨_, hpath, hnode, ⟨front, name, rfl, hcovers, -⟩, haccepts⟩
    exact ⟨front, name, hpath, hnode, haccepts, hcovers⟩

/-- The stage of a `**` finds the directories below, each by a walk from one in front. -/
theorem expand_recursive_found (hne : done ≠ []) :
    recursive.expand tree.lists (tree.found done) = tree.found (done ++ [recursive]) := by
  have hends : ¬ EndsInComponent (done ++ [recursive]) := by
    simp [EndsInComponent]
  ext item
  show item ∈ walked _ _ ↔ ∃ names, _
  simp only [walked, directory_mem_found_iff, covers_append_singleton_iff hne, or_iff_right hends]
  refine ⟨?_, ?_⟩
  · rintro ⟨_, ⟨front, rfl, hfront, hcovers⟩, path, hbelow, rfl⟩
    obtain ⟨more, rfl, hmore⟩ := (below_iff htree hfront).1 hbelow
    refine ⟨front ++ more, rfl, hmore, ⟨[] :: front, more, rfl, hcovers, ?_⟩, rfl⟩
    exact fun name hname => (hmore.isName name (by simp [hname])).1
  · rintro ⟨names, hpath, hnode, ⟨front, more, hnames, hcovers, htakes⟩, hkind⟩
    obtain ⟨path, kind⟩ := item
    obtain rfl : path = pathOf names := hpath
    obtain rfl : kind = .directory := hkind
    cases front with
    | nil =>
      -- a `**` does not take the empty component in front of the first separator
      exact absurd rfl (htakes [] (by simp [← show [] :: names = more from hnames]))
    | cons first front =>
      obtain ⟨rfl, rfl⟩ := List.cons.inj hnames
      have hfront := hnode.front htree
      have hbelow := (below_iff htree hfront).2 ⟨more, rfl, hnode⟩
      exact ⟨_, ⟨front, rfl, hfront, hcovers⟩, _, hbelow, rfl⟩

/-- One more stage finds the nodes that one more segment covers; a component that accepts an empty
name is left out by `hcomponent`. -/
theorem expand_found (hne : done ≠ []) (hwf : segment.WellFormed) (hroot : segment ≠ root)
    (hdevice : ∀ letter, segment ≠ device letter)
    (hcomponent : ∀ c, segment = component c → ¬ c.Accepts []) :
    segment.expand tree.lists (tree.found done) = tree.found (done ++ [segment]) := by
  cases segment with
  | root => exact absurd rfl hroot
  | device letter => exact absurd rfl (hdevice letter)
  | component c => exact expand_component_found htree hne hwf (hcomponent c rfl)
  | anyDirectory => exact expand_anyDirectory_found htree hne
  | recursive => exact expand_recursive_found htree hne

/-- Behind all stages stands what all segments have `found`, by induction on the segments. -/
theorem foldl_expand_found (hne : done ≠ []) (hwf : ∀ segment ∈ segments, segment.WellFormed)
    (hroot : root ∉ segments) (hdevice : ∀ letter, device letter ∉ segments)
    (hcomponent : ∀ c, component c ∈ segments → ¬ c.Accepts []) :
    segments.foldl (expand tree.lists) (tree.found done) = tree.found (done ++ segments) := by
  -- one stage after the other, as the nodes that are found go over into those of the next
  induction segments generalizing done with
  | nil => simp
  | cons segment segments ih =>
    obtain ⟨hsegment, hrest⟩ := List.forall_mem_cons.1 hwf
    have hfirst := expand_found htree hne hsegment
      (fun heq => hroot (by simp [heq])) (fun letter heq => hdevice letter (by simp [heq]))
      (fun c heq => hcomponent c (by simp [heq]))
    rw [List.foldl_cons, hfirst, ih (by simp) hrest (fun hmem => hroot (by simp [hmem]))
      (fun letter hmem => hdevice letter (by simp [hmem]))
      (fun c hmem => hcomponent c (by simp [hmem])), List.append_assoc, List.singleton_append]

/-- A root or a `**` in front finds what it covers, from the root of the tree. -/
theorem expand_root (hnode : tree.HasNode [] .directory)
    (hsegment : segment = root ∨ segment = recursive) :
    segment.expand tree.lists {.directory (pathOf [])} = tree.found [segment] := by
  have hends : ¬ EndsInComponent [segment] := by
    rintro ⟨c, hc⟩
    rcases hsegment with rfl | rfl <;> simp at hc
  ext item
  simp only [found, or_iff_right hends]
  rcases hsegment with rfl | rfl
  · -- a root keeps the root of the tree
    show item = .directory _ ∧ _ ↔ _
    refine ⟨?_, ?_⟩
    · rintro ⟨rfl, -⟩
      exact ⟨[], rfl, hnode, ⟨[], [[]], rfl, fun _ => rfl, takeAll_singleton_iff.2 rfl⟩, rfl⟩
    · rintro ⟨names, hpath, -, ⟨front, back, hnames, hanchored, htake⟩, hkind⟩
      obtain rfl : front = [] := hanchored rfl
      obtain rfl : back = [[]] := takeAll_singleton_iff.1 htake
      obtain ⟨-, rfl⟩ := List.cons.inj hnames
      obtain ⟨path, kind⟩ := item
      obtain rfl : path = pathOf [] := hpath
      obtain rfl : kind = .directory := hkind
      exact ⟨rfl, rfl⟩
  · -- a `**` covers all names, and a walk from the root reaches them
    show (∃ start ∈ directoryPaths {_}, _) ↔ _
    have hcovers : ∀ names, Covers [recursive] ([] :: names) := fun names =>
      ⟨[] :: names, [], by simp, by simp [isAnchored], takeAll_singleton_iff.2 (by simp [Takes])⟩
    refine ⟨?_, ?_⟩
    · rintro ⟨start, hstart, path, hbelow, rfl⟩
      obtain rfl : start = pathOf [] := Item.directory_inj.1 hstart
      obtain ⟨names, rfl, hnames⟩ := (below_iff htree hnode).1 hbelow
      exact ⟨names, rfl, hnames, hcovers names, rfl⟩
    · rintro ⟨names, hpath, hnames, -, hkind⟩
      obtain ⟨path, kind⟩ := item
      obtain rfl : path = pathOf names := hpath
      obtain rfl : kind = .directory := hkind
      exact ⟨pathOf [], rfl, pathOf names, (below_iff htree hnode).2 ⟨names, rfl, hnames⟩, rfl⟩

end Regular

/-! ## Matching a node -/

/-- The path of `names` fits exactly if they are covered, behind the empty component in front of the
first separator. -/
theorem fits_pathOf_iff (hwf : (Alternative.steps segments).WellFormed)
    (hdevice : ∀ letter, device letter ∉ segments)
    (hcomponent : ∀ c, component c ∈ segments → ¬ c.Accepts [])
    (hnames : ∀ name ∈ names, IsName name) :
    (Alternative.steps segments).Fits (pathOf names) ↔ Covers segments ([] :: names) := by
  have hstem : stem (pathOf names).toList = [] :: names := by
    rw [toList_pathOf, stem_absolute hnames]
  cases names using List.reverseRecOn with
  | nil =>
    have hroot : components (pathOf []).toList = [[], []] := rfl
    refine ⟨fun hfits => covers_of_isPrelude hwf ?_, fun hcovers => ?_⟩
    · by_contra hnot
      -- behind the prelude a name would have to be taken, and there is none
      have hcovers := (fits_iff_covers hwf hdevice hnot).1 hfits
      rw [hroot] at hcovers
      exact hnot (isPrelude_of_covers hdevice hcomponent hcovers (by simp))
    · have hprelude := isPrelude_of_covers hdevice hcomponent hcovers (by simp)
      exact fits_of_covers hwf hdevice (by rwa [hstem]) (.inr ⟨hprelude, fun _ => rfl⟩)
  | append_singleton names name =>
    have hcomponents : components (pathOf (names ++ [name])).toList = [] :: names ++ [name] := by
      rw [toList_pathOf, components_absolute hnames]
    have hlast : (components (pathOf (names ++ [name])).toList).getLast? ≠ some [] := by
      rw [hcomponents, List.getLast?_concat]
      simpa using (hnames name (by simp)).1
    refine ⟨fun hfits => ?_, fun hcovers => ?_⟩
    · rw [← List.cons_append, ← hcomponents]
      exact covers_of_fits hfits hlast
    · exact fits_of_covers hwf hdevice (by rwa [hstem]) (.inl hlast)

/-! ## Enumerating from the root -/

/-- The items that an alternative finds from the root of a `Regular` tree are those that its
segments cover. -/
theorem items_pipeline_root (htree : tree.Regular) (hnode : tree.HasNode [] .directory)
    (hwf : (Alternative.steps segments).WellFormed)
    (hhead : segments.head? = some root ∨ segments.head? = some recursive)
    (hdevice : ∀ letter, device letter ∉ segments)
    (hcomponent : ∀ c, component c ∈ segments → ¬ c.Accepts []) :
    ((Alternative.steps segments).pipeline ["/"]).items tree.lists = tree.found segments := by
  show ((Alternative.steps segments).pipeline [pathOf []]).items tree.lists = _
  have hbase : {item | ∃ base ∈ [pathOf []], item = Item.directory base} =
      ({.directory (pathOf [])} : Set Item) := by
    ext item
    simp
  obtain ⟨-, hwf, htail⟩ := hwf
  rw [Alternative.items_pipeline, hbase]
  cases segments with
  | nil => simp at hhead
  | cons first rest =>
    have hfirst : first = root ∨ first = recursive := by simpa using hhead
    rw [List.foldl_cons, expand_root htree hnode hfirst, foldl_expand_found htree (by simp)
      (List.forall_mem_cons.1 hwf).2 htail (fun letter hmem => hdevice letter (by simp [hmem]))
      (fun c hmem => hcomponent c (by simp [hmem])), List.singleton_append]

/-- The root and the paths that are listed in a `Regular` tree are those of its nodes. -/
theorem exists_node_of_listed (htree : tree.Regular) (hnode : tree.HasNode [] .directory)
    {path : String}
    (h : path = "/" ∨ ∃ key child, tree.HasChild key child ∧ child.path = path) :
    ∃ names kind, path = pathOf names ∧ tree.HasNode names kind := by
  rcases h with rfl | ⟨key, child, hchild, rfl⟩
  · exact ⟨[], .directory, rfl, hnode⟩
  · obtain ⟨names, name, hplain, rfl, hpath⟩ := htree.children key child hchild
    exact ⟨names ++ [name], _, hpath,
      (hasNode_append_singleton_iff htree).2 ⟨hplain, child, hchild, hpath, rfl⟩⟩

/-- A node is `found` exactly if it is covered, and it is a directory or the last segment is a
component. -/
theorem exists_mem_found_iff {kind : EntityKind} (hnode : tree.HasNode names kind) :
    (∃ item ∈ tree.found segments, item.path = pathOf names) ↔
      Covers segments ([] :: names) ∧
        (EndsInComponent segments ∨ tree.isDirectory (pathOf names) = true) := by
  have hdirectory : tree.isDirectory (pathOf names) = true ↔ tree.HasNode names .directory :=
    (hasNode_directory_iff.trans (and_iff_right hnode.1)).symm
  rw [hdirectory]
  refine ⟨?_, ?_⟩
  · rintro ⟨item, ⟨others, hothers, hother, hcovers, hends⟩, hpath⟩
    obtain rfl : others = names :=
      pathOf_injective hother.isName hnode.isName (hothers.symm.trans hpath)
    refine ⟨hcovers, hends.imp_right fun hkind => ?_⟩
    rwa [hkind] at hother
  · rintro ⟨hcovers, hends | hdirectory⟩
    · exact ⟨⟨pathOf names, kind⟩, ⟨names, rfl, hnode, hcovers, .inl hends⟩, rfl⟩
    · exact ⟨.directory (pathOf names), ⟨names, rfl, hdirectory, hcovers, .inr rfl⟩, rfl⟩

section Enumerate

variable {glob : Glob} (hglob : glob.alternatives = [.steps segments]) (htree : tree.Regular)
  (hnode : tree.HasNode [] .directory) (hdevice : ∀ letter, device letter ∉ segments)

include hglob htree hnode hdevice

/-- The enumeration of a `Regular` tree from its root has a complete run without a failure. -/
theorem exists_completes_enumerate :
    ∃ paths : List String,
      Enumeration.Completes tree.lister (glob.enumerate .fileOrDirectory ["/"])
        (paths.map .ok) := by
  obtain ⟨rank, hranked⟩ := exists_finitelyRanked htree
  have hbases : ∀ base ∈ ["/"], ∃ names,
      base = pathOf names ∧ tree.HasNode names .directory :=
    fun base hbase => ⟨[], List.mem_singleton.1 hbase, hnode⟩
  have hpipeline : ((Alternative.steps segments).pipeline ["/"]).Ends tree.listing := by
    refine Pipeline.halts_pipeline hranked (fun letter hmem => ?_) hbases
    exact absurd hmem (hdevice letter)
  have hends : ∀ pipeline ∈ (glob.enumerate .fileOrDirectory ["/"]).stream.pipelines,
      pipeline.Ends tree.listing := by
    rw [Glob.enumerate, hglob]
    simpa using hpipeline
  have hlister : ∀ earlier request,
      tree.lister.answer earlier request = tree.listing request := fun _ _ => rfl
  obtain ⟨paths, -, hcompletes⟩ := Enumeration.exists_completes hlister hends
  exact ⟨paths, hcompletes⟩

/-- What a complete enumeration of a `Regular` tree from its root yields is what stands behind all
stages. -/
theorem mem_iff_mem_found_of_completes (hwf : (Alternative.steps segments).WellFormed)
    (hhead : segments.head? = some root ∨ segments.head? = some recursive)
    (hcomponent : ∀ c, component c ∈ segments → ¬ c.Accepts []) {paths : List String}
    (h : Enumeration.Completes tree.lister (glob.enumerate .fileOrDirectory ["/"])
      (paths.map .ok)) (path : String) :
    path ∈ paths ↔ ∃ item ∈ tree.found segments, item.path = path := by
  have hwithin : tree.lister.Within tree.lists := fun _ _ => subset_rfl
  have hcovers : tree.lister.Covers tree.lists := fun _ _ => subset_rfl
  rw [Glob.enumerate, hglob] at h
  have hexact := Enumeration.mem_paths_iff_of_completes hwithin hcovers rfl h path
  rw [or_iff_left Std.ExtTreeSet.not_mem_empty] at hexact
  rw [← hexact, Enumeration.paths, List.map_singleton, Stream.items_cons, Stream.items_nil,
    Set.union_empty, items_pipeline_root htree hnode hwf hhead hdevice hcomponent]
  simp [Enumeration.pathsOf, EntityKind.accepts]

end Enumerate

/-- The enumeration of files and directories of a tree, from its root, has one complete run, and
this ends without a failure. It yields a path of the tree exactly if `isMatch` holds of it, and it
is a directory or the segments satisfy `EndsInComponent`. The paths that are inserted are `IsClean`,
and the segments start at the root or with `**`, without drives, and with components that do not
match every name. -/
theorem mem_iff_isMatch_of_insertAll {env : Environment} {text : String} {glob : Glob}
    (hparse : Glob.parse env text = .ok glob) (hglob : glob.alternatives = [.steps segments])
    (hhead : segments.head? = some root ∨ segments.head? = some recursive)
    (hdevice : ∀ letter, device letter ∉ segments)
    (hcomponent : ∀ c, component c ∈ segments → ∃ piece ∈ c.pieces, piece ≠ .anyRun)
    (hcompiles : glob.uncheckedRegex.compiles = true) {calls : List (ChildKind × String)}
    (hcalls : calls ≠ []) (hclean : ∀ call ∈ calls, IsClean call.2) :
    ∃ paths : List String,
      (∀ results, Enumeration.Completes (insertAll calls).lister
        (glob.enumerate .fileOrDirectory ["/"]) results ↔ results = paths.map .ok) ∧
      ∀ path,
        (path = "/" ∨ ∃ key child, (insertAll calls).HasChild key child ∧ child.path = path) →
          (path ∈ paths ↔ glob.isMatch path = true ∧
            (EndsInComponent segments ∨ (insertAll calls).isDirectory path = true)) := by
  have hwf := Glob.wellFormed_of_parse hparse
  have hsegments : (Alternative.steps segments).WellFormed := hwf.2 _ (by simp [hglob])
  have hstar : ∀ c, component c ∈ segments → ¬ c.Accepts [] :=
    fun c hmem => Component.not_accepts_nil (hcomponent c hmem)
  have htree := regular_insertAll hclean
  have hnode : (insertAll calls).HasNode [] .directory :=
    ⟨by simp, hasDirectory_root_insertAll hcalls hclean⟩
  obtain ⟨paths, hpaths⟩ := exists_completes_enumerate hglob htree hnode hdevice
  refine ⟨paths, fun results => ⟨fun h => h.unique hpaths, fun h => h ▸ hpaths⟩, ?_⟩
  intro path hpath
  obtain ⟨names, kind, rfl, hnames⟩ := exists_node_of_listed htree hnode hpath
  -- what is yielded is covered, and what is covered matches
  rw [mem_iff_mem_found_of_completes hglob htree hnode hdevice hsegments hhead hstar hpaths,
    exists_mem_found_iff hnames, Glob.isMatch_iff_exists_fits hwf hcompiles, hglob]
  simp only [List.mem_singleton, exists_eq_left]
  rw [fits_pathOf_iff hsegments hdevice hstar hnames.isName]

/-- The files that end in `.rs`, at any depth. -/
def rustSources : Glob where
  text := "**/*.rs"
  alternatives :=
    [.steps [.recursive, .component ⟨"*.rs", [.anyRun, .char '.', .char 'r', .char 's']⟩]]

/-- The hypotheses of `mem_iff_isMatch_of_insertAll` hold of `rustSources` and a tree of one file,
which is enumerated. -/
theorem mem_of_insertAll_rust :
    IsClean "/src/a.rs" ∧
      ∃ paths : List String,
        (∀ results, Enumeration.Completes (insertAll [(.file, "/src/a.rs")]).lister
          (rustSources.enumerate .fileOrDirectory ["/"]) results ↔ results = paths.map .ok) ∧
        "/src/a.rs" ∈ paths := by
  have hparse : Glob.parse .empty "**/*.rs" = .ok rustSources := by decide +kernel
  have hcompiles : rustSources.uncheckedRegex.compiles = true := by decide +kernel
  have hpath : components "/src/a.rs".toList = [[], ['s', 'r', 'c'], ['a', '.', 'r', 's']] := rfl
  have hplain : ∀ name ∈ [['s', 'r', 'c'], ['a', '.', 'r', 's']], IsPlain name := by decide
  have hclean : IsClean "/src/a.rs" := ⟨_, by simp, hpath, hplain⟩
  have hcalls : ∀ call ∈ [(ChildKind.file, "/src/a.rs")], IsClean call.2 := by
    simpa using hclean
  have hchild : (empty.insert .file "/src/a.rs").HasChild "/src" ⟨"/src/a.rs", .file⟩ :=
    (hasChild_insert_iff hpath hplain).2 (.inr ⟨[['s', 'r', 'c']], _, [], rfl, rfl, rfl⟩)
  obtain ⟨paths, hpaths, hmem⟩ := mem_iff_isMatch_of_insertAll hparse rfl (.inr rfl) (by simp)
    (by simp) hcompiles (List.cons_ne_nil _ _) hcalls
  exact ⟨hclean, paths, hpaths,
    (hmem _ (.inr ⟨_, _, hchild, rfl⟩)).2 ⟨by decide +kernel, .inl ⟨_, rfl⟩⟩⟩

end MemoryTree

end PathPatterns
