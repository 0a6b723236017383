import PathPatterns.Proofs.Enumeration.Sound

/-!
# Enumerating a drive

The stage of a drive adds the root of the drive to the candidates and keeps those that were there.
What is found below the root of a drive is found in the same way below `/`, with `/` in place of the
name of the drive, so it is matched. What is found below the bases is yielded too, and nobody asks
whether it is on the drive. This is told of a drive at the head of an alternative with no further
drive behind it; of several drives each adds its root, and what is below any of them is yielded.

## Main results

* `fits_device_cons_iff`: a path fits behind a drive as another fits behind the root.
* `exists_parallel_of_mem_foldl`: what is found below a drive is found below the root.
* `mem_foldl_expand_iff_exists`: what is found is found below one of the candidates.
* `isMatch_or_exists_base`: whatever is yielded is matched, or was found below a base, if no further
  drive follows.
-/

namespace PathPatterns

namespace Path

/-- Whether a path is the root of a drive, however its letter and its separator are written. -/
def IsDriveRoot (letter : Char) (path : String) : Prop :=
  ∃ written c, (written = letter ∨ written = letter.toLower) ∧ isSeparator c = true ∧
    path.toList = [written, ':', c]

/-- Whether the same follows `start` in a path as follows `/` in another. -/
def Parallel (start path other : String) : Prop :=
  ∃ after, path.toList = start.toList ++ after ∧ other.toList = '/' :: after

variable {letter : Char} {start path other : String}

/-- The `child` of a directory has its name at its end, behind a separator of its own or that of the
directory. -/
theorem toList_child (directory name : String) :
    (child directory name).toList = directory.toList ++
      if directory.toList.getLast?.any isSeparator then name.toList else '/' :: name.toList := by
  unfold child
  split
  · rw [String.toList_append]
  · simp

theorem parallel_self (start : String) : Parallel start start "/" :=
  ⟨[], by simp, rfl⟩

/-- Going on to a child adds the same to both paths, if `start` ends in a separator. -/
theorem Parallel.child (hstart : start.toList.getLast?.any isSeparator = true)
    (h : Parallel start path other) (name : String) :
    Parallel start (child path name) (child other name) := by
  obtain ⟨after, hpath, hother⟩ := h
  -- with nothing behind the start both end in a separator, else both end in what is behind it
  have hlast : path.toList.getLast?.any isSeparator = other.toList.getLast?.any isSeparator := by
    rw [hpath, hother]
    cases after using List.reverseRecOn with
    | nil =>
      rw [List.append_nil, hstart]
      rfl
    | append_singleton after c =>
      rw [← List.append_assoc, ← List.cons_append, List.getLast?_concat, List.getLast?_concat]
  rw [Parallel, toList_child, toList_child, hlast, hpath, hother]
  exact ⟨_, List.append_assoc _ _ _, rfl⟩

/-- The path beside has a component, the empty one in front of `/`. -/
theorem Parallel.stem_ne_nil (h : Parallel start path other) : stem other.toList ≠ [] := by
  obtain ⟨after, -, hother⟩ := h
  rw [stem, hother, components_cons_of_separator rfl]
  split
  · rw [List.dropLast_cons_of_ne_nil (components_ne_nil after)]
    simp
  · simp

/-- The root of a drive ends in a separator, so a `child` of it needs none of its own. -/
theorem IsDriveRoot.ends (h : IsDriveRoot letter start) :
    start.toList.getLast?.any isSeparator = true := by
  obtain ⟨written, c, -, hc, hstart⟩ := h
  simp [hstart, hc]

/-- The first of the `components` of a path on a drive is the name of the drive, and the others are
those behind it. -/
theorem IsDriveRoot.components_append (hletter : letter.isUpper = true)
    (h : IsDriveRoot letter start) (after : List Char) :
    ∃ name, (Segment.device letter).Takes [name] ∧
      components (start.toList ++ after) = name :: components after := by
  obtain ⟨written, c, hwritten, hc, hstart⟩ := h
  have htakes : (Segment.device letter).Takes [[written, ':']] := by
    simpa [Segment.Takes] using hwritten
  refine ⟨[written, ':'], htakes, ?_⟩
  have hname := Segment.not_separator_of_takes_device hletter htakes
  rw [hstart, show [written, ':', c] ++ after = [written, ':'] ++ c :: after from rfl,
    Path.components_append_cons hc, components_of_forall_not hname]
  rfl

theorem isDriveRoot_driveRoot (letter : Char) : IsDriveRoot letter (Segment.driveRoot letter) :=
  ⟨letter, separator, .inl rfl, rfl, by simp [Segment.driveRoot]⟩

end Path

namespace Alternative

open PathPatterns.Path Segment

variable {letter : Char} {segments : List Segment} {start path other : String}

/-- A path `Fits` behind a drive as the path that is `Parallel` to it fits behind the root. -/
theorem fits_device_cons_iff (hletter : letter.isUpper = true) (hstart : IsDriveRoot letter start)
    (h : Parallel start path other) :
    (steps (device letter :: segments)).Fits path ↔ (steps (root :: segments)).Fits other := by
  obtain ⟨after, hpath, hother⟩ := h
  obtain ⟨name, htakes, hcomponents⟩ := hstart.components_append hletter after
  -- the drive takes its name, the root the empty name, and the same components follow
  rw [Fits, if_pos (show isAnchored (device letter :: segments) = true from rfl), hpath,
    hcomponents, Fits, if_pos (show isAnchored (root :: segments) = true from rfl), hother,
    components_cons_of_separator rfl,
    takeToEnd_cons_iff_of_single (P := fun name => (device letter).Takes [name])
      (fun _ => takes_device_iff) (by simp),
    takeToEnd_cons_iff_of_single (P := fun name => name = []) (by simp [Takes]) (by simp)]
  simp [leavesOpen, htakes]

/-- Nothing but its root, in any spelling, fits a drive alone: the paths of which `IsDriveRoot`
holds. -/
theorem fits_device_iff (hletter : letter.isUpper = true) :
    (steps [device letter]).Fits path ↔ IsDriveRoot letter path := by
  rw [Fits, if_pos (show isAnchored [device letter] = true from rfl),
    takeToEnd_cons_iff_of_single (P := fun name => (device letter).Takes [name])
      (fun _ => takes_device_iff) (by simp)]
  simp only [takeToEnd_nil_iff, leavesOpen, if_true]
  refine ⟨?_, fun h => ?_⟩
  · rintro ⟨name, _, hpath, htakes, rfl⟩
    obtain ⟨rest, hname, -, hrest⟩ := components_eq_cons_iff.1 hpath
    -- behind the name stands a separator, and nothing behind that
    cases rest with
    | nil => cases hrest
    | cons c rest =>
      obtain ⟨hc, hnil⟩ := hrest
      obtain ⟨rest, rfl, -, hfollows⟩ := components_eq_cons_iff.1 hnil.symm
      cases rest with
      | cons d rest => exact absurd hfollows.2.symm (components_ne_nil rest)
      | nil =>
        rcases htakes with htakes | htakes
        · obtain rfl : name = _ := List.singleton_inj.1 htakes
          exact ⟨letter, c, .inl rfl, hc, hname⟩
        · obtain rfl : name = _ := List.singleton_inj.1 htakes
          exact ⟨letter.toLower, c, .inr rfl, hc, hname⟩
  · obtain ⟨name, htakes, hcomponents⟩ := h.components_append hletter []
    rw [List.append_nil] at hcomponents
    exact ⟨name, _, hcomponents, htakes, rfl⟩

end Alternative

/-! ## What is found below a drive -/

/-- Whether an item is found below `start` where another of the same kind is found below `/`. -/
def Item.Parallel (start : String) (item other : Item) : Prop :=
  other.kind = item.kind ∧ Path.Parallel start item.path other.path

namespace Segment

open PathPatterns.Path

variable {lists : Request → Set Item} {start : String} {items others : Set Item} {item : Item}
  {kind : EntityKind} {segment : Segment} {segments : List Segment}

section Parallel

variable (hlists : ∀ request, lists request ⊆ childItems request)
  (hstart : start.toList.getLast?.any isSeparator = true)

include hlists hstart

/-- What is `listed` in a directory has a name that might be listed in a parallel one. -/
theorem exists_name_of_mem_listed (hitem : item ∈ listed lists kind items)
    (h : ∀ item ∈ items, ∃ other ∈ others, item.Parallel start other) :
    ∃ path other name, .directory other ∈ others ∧ Path.Parallel start path other ∧
      IsName name.toList ∧ item.path = child path name ∧
      item.Parallel start ⟨child other name, item.kind⟩ := by
  obtain ⟨path, hpath, hitem⟩ := hitem
  obtain ⟨name, hname, hchild⟩ := hlists _ hitem
  -- the directory itself has a parallel one
  obtain ⟨⟨other, otherKind⟩, hother, hkind, hparallel⟩ := h _ hpath
  obtain rfl : otherKind = .directory := hkind
  refine ⟨path, other, name, hother, hparallel, hname, hchild, rfl, ?_⟩
  rw [hchild]
  exact hparallel.child hstart name

/-- A walk from `path` comes to directories that are `Parallel` to those of a walk from `other`
where all children may be listed. -/
theorem exists_parallel_of_below {path other last : String} (hbelow : Below lists path last)
    (h : Path.Parallel start path other) :
    ∃ otherLast, Below childItems other otherLast ∧ Path.Parallel start last otherLast := by
  induction hbelow with
  | refl => exact ⟨other, .refl, h⟩
  | tail _ hchild ih =>
    obtain ⟨directory, hdirectory, hparallel⟩ := ih
    obtain ⟨name, hname, rfl⟩ := hlists _ hchild
    exact ⟨child directory name, hdirectory.tail ⟨name, hname, rfl⟩, hparallel.child hstart name⟩

/-- If the items in front of a stage are `Parallel` to some of the others, so are those behind it,
where all children may be listed. -/
theorem exists_parallel_of_mem_expand (hwf : segment.WellFormed)
    (hdevice : ∀ letter, segment ≠ device letter) (hroot : segment ≠ root)
    (h : ∀ item ∈ items, ∃ other ∈ others, item.Parallel start other) :
    ∀ item ∈ segment.expand lists items,
      ∃ other ∈ segment.expand childItems others, item.Parallel start other := by
  intro item hitem
  cases segment with
  | root => exact absurd rfl hroot
  | device letter => exact absurd rfl (hdevice letter)
  | component c =>
    obtain ⟨hlisted, hmatches⟩ := hitem
    obtain ⟨path, other, name, hother, hparallel, hname, hpath, hitem⟩ :=
      exists_name_of_mem_listed hlists hstart hlisted h
    refine ⟨_, ⟨⟨other, hother, name, hname, rfl⟩, ?_⟩, hitem⟩
    -- the name is the same, and something stands in front of it
    rw [hpath, Component.matchesPath_iff_of_components hwf (components_child path hname)]
      at hmatches
    refine (Component.matchesPath_iff_of_components hwf (components_child other hname)).2
      ⟨hparallel.stem_ne_nil, hmatches.2⟩
  | anyDirectory =>
    obtain ⟨path, other, name, hother, -, hname, -, hitem⟩ :=
      exists_name_of_mem_listed hlists hstart hitem h
    exact ⟨_, ⟨other, hother, name, hname, rfl⟩, hitem⟩
  | recursive =>
    obtain ⟨path, hpath, last, hbelow, rfl⟩ := hitem
    obtain ⟨⟨other, otherKind⟩, hother, hkind, hparallel⟩ := h _ hpath
    obtain rfl : otherKind = .directory := hkind
    obtain ⟨otherLast, hlast, hitem⟩ := exists_parallel_of_below hlists hstart hbelow hparallel
    exact ⟨.directory otherLast, ⟨other, hother, otherLast, hlast, rfl⟩, rfl, hitem⟩

/-- Stage after stage, what is found is `Parallel` to what is found where all children may be
listed. -/
theorem exists_parallel_of_mem_foldl (hwf : ∀ segment ∈ segments, segment.WellFormed)
    (hdevice : ∀ letter, device letter ∉ segments) (hroot : root ∉ segments)
    (h : ∀ item ∈ items, ∃ other ∈ others, item.Parallel start other) :
    ∀ item ∈ segments.foldl (expand lists) items,
      ∃ other ∈ segments.foldl (expand childItems) others, item.Parallel start other := by
  induction segments generalizing items others with
  | nil => exact h
  | cons segment rest ih =>
    obtain ⟨hsegment, hrest⟩ := List.forall_mem_cons.1 hwf
    rw [List.mem_cons, not_or] at hroot
    refine ih hrest (fun letter hmem => hdevice letter (by simp [hmem])) hroot.2 ?_
    exact exists_parallel_of_mem_expand hlists hstart hsegment
      (fun letter heq => hdevice letter (by simp [heq])) (Ne.symm hroot.1) h

end Parallel

/-! ## What is found below the bases -/

/-- What is `listed` for some items is listed for one of them. -/
theorem mem_listed_iff_exists :
    item ∈ listed lists kind items ↔
      ∃ candidate ∈ items, item ∈ listed lists kind {candidate} := by
  simp [listed, directoryPaths]

/-- Unless it adds a drive (`hdevice`), a stage finds what it finds for one of the candidates. -/
theorem mem_expand_iff_exists (hdevice : ∀ letter, segment ≠ device letter) :
    item ∈ segment.expand lists items ↔
      ∃ candidate ∈ items, item ∈ segment.expand lists {candidate} := by
  cases segment with
  | root => simp [expand]
  | device letter => exact absurd rfl (hdevice letter)
  | component c =>
    simp only [expand, Set.mem_ofPred_eq]
    rw [mem_listed_iff_exists]
    simp only [← exists_and_right, and_assoc]
  | anyDirectory => exact mem_listed_iff_exists
  | recursive => simp [expand, walked, directoryPaths]

/-- Unless some stage adds a drive (`hdevice`), what is found is found below one of the
candidates. -/
theorem mem_foldl_expand_iff_exists (hdevice : ∀ letter, device letter ∉ segments) :
    item ∈ segments.foldl (expand lists) items ↔
      ∃ candidate ∈ items, item ∈ segments.foldl (expand lists) {candidate} := by
  induction segments generalizing items with
  | nil => simp
  | cons segment rest ih =>
    have hsegment : ∀ letter, segment ≠ device letter := fun letter heq =>
      hdevice letter (by simp [heq])
    have hrest : ∀ letter, device letter ∉ rest := fun letter hmem =>
      hdevice letter (by simp [hmem])
    refine ⟨fun h => ?_, ?_⟩
    · obtain ⟨middle, hmiddle, hitem⟩ := (ih hrest).1 h
      obtain ⟨candidate, hcandidate, hmiddle⟩ := (mem_expand_iff_exists hsegment).1 hmiddle
      exact ⟨candidate, hcandidate, (ih hrest).2 ⟨middle, hmiddle, hitem⟩⟩
    · rintro ⟨candidate, hcandidate, h⟩
      obtain ⟨middle, hmiddle, hitem⟩ := (ih hrest).1 h
      refine (ih hrest).2 ⟨middle, ?_, hitem⟩
      exact (mem_expand_iff_exists hsegment).2 ⟨candidate, hcandidate, hmiddle⟩

end Segment

/-- What a lister ever lists for a request, after whichever requests. -/
def Lister.everLists (lister : Lister) (request : Request) : Set Item :=
  {item | ∃ earlier, item ∈ (lister.answer earlier request).items}

theorem Lister.within_everLists (lister : Lister) : lister.Within lister.everLists :=
  fun earlier _ _ hitem => ⟨earlier, hitem⟩

/-- What a lister that is `Lawful` ever lists are children of the directory that is asked for. -/
theorem Lister.Lawful.everLists_subset {lister : Lister} (h : lister.Lawful) (request : Request) :
    lister.everLists request ⊆ childItems request := by
  rintro item ⟨earlier, hitem⟩
  exact h earlier request item hitem

namespace Alternative

open PathPatterns.Path Segment

variable {lists : Request → Set Item} {letter : Char} {segments : List Segment}

/-- What is found below `start`, the root of a drive, fits the drive with the `segments` behind
it. -/
theorem fits_of_mem_foldl_driveRoot (hwf : (steps (device letter :: segments)).WellFormed)
    (hdevice : ∀ other, device other ∉ segments) {start : String}
    (hstart : IsDriveRoot letter start)
    (hlists : ∀ request, lists request ⊆ childItems request) {item : Item}
    (hitem : item ∈ segments.foldl (expand lists) {.directory start}) :
    (steps (device letter :: segments)).Fits item.path := by
  obtain ⟨-, hsegments, htail⟩ := hwf
  obtain ⟨hletter, hsegments⟩ := List.forall_mem_cons.1 hsegments
  rw [List.tail_cons] at htail
  -- the same is found below `/`, where it is reached
  have hbase : ∀ item ∈ ({.directory start} : Set Item),
      ∃ other ∈ ({.directory "/"} : Set Item), item.Parallel start other := by
    rintro _ rfl
    exact ⟨_, rfl, rfl, parallel_self start⟩
  obtain ⟨other, hother, -, hparallel⟩ :=
    exists_parallel_of_mem_foldl hlists hstart.ends hsegments hdevice htail hbase item hitem
  have hreached : Reached ([root] ++ segments) other.path := by
    refine reached_of_mem_foldl hsegments hdevice (fun hmem => htail (List.mem_of_mem_tail hmem))
      (fun hhead => absurd (List.mem_of_mem_head? hhead) htail) ?_ other hother
    rintro _ rfl
    exact reached_root rfl
  rw [fits_device_cons_iff hletter hstart hparallel]
  refine fits_of_covers ⟨by simp, List.forall_mem_cons.2 ⟨trivial, hsegments⟩, htail⟩ ?_
    hreached.covers hreached.ending
  simpa using hdevice

end Alternative

namespace Enumeration

open PathPatterns.Path

/-- Let the alternative of `glob` start with the drive `letter`, and let no further drive follow in
`rest` (`hdevice`). Then whatever an enumeration with a lawful lister yields is matched, or was
found below one of the `bases` that is not the root of the drive. Such a base need not be on the
drive: the glob of the drive alone (`rest = []`) yields each base, and matches none of them but the
root of the drive.

Where a further drive follows, its root is a candidate beside the others, and the expression asks
for one drive behind the other. So `C:/D:/*.txt` yields what is below the root of `D:` too, such as
`D:/b.txt`, which is not below a base; and neither this nor `C:/b.txt` is matched. -/
theorem isMatch_or_exists_base {env : Environment} {text : String} {glob : Glob}
    (hparse : Glob.parse env text = .ok glob) {letter : Char} {rest : List Segment}
    (halternatives : glob.alternatives = [.steps (.device letter :: rest)])
    (hdevice : ∀ other, .device other ∉ rest) (hcompiles : glob.uncheckedRegex.compiles = true)
    {lister : Lister} (hlawful : lister.Lawful) :
    (∀ kind bases results last, Run lister (glob.enumerate kind bases) results last →
      ∀ path, .ok path ∈ results → glob.isMatch path = true ∨
        ∃ base ∈ bases, ¬ IsDriveRoot letter base ∧
          ∃ item ∈ rest.foldl (Segment.expand lister.everLists) {.directory base},
            item.path = path) ∧
    (rest = [] → ∀ base,
      (∃ last, Run lister (glob.enumerate .directory [base]) [.ok base] last) ∧
        (glob.isMatch base = true ↔ IsDriveRoot letter base)) := by
  have hglob := Glob.wellFormed_of_parse hparse
  have hwf : (Alternative.steps (.device letter :: rest)).WellFormed :=
    hglob.2 _ (by simp [halternatives])
  have hmatch : ∀ path, glob.isMatch path = true ↔
      (Alternative.steps (.device letter :: rest)).Fits path := by
    intro path
    rw [Glob.isMatch_iff_exists_fits hglob hcompiles, halternatives]
    simp
  refine ⟨fun kind bases results last hrun path hpath => ?_, ?_⟩
  · rw [hmatch]
    rcases mem_paths_of_run lister.within_everLists hrun hpath with
      hseen | ⟨item, ⟨pipeline, hpipeline, hitem⟩, -, rfl⟩
    · exact absurd hseen Std.ExtTreeSet.not_mem_empty
    · obtain rfl : pipeline = (Alternative.steps (.device letter :: rest)).pipeline bases := by
        simpa [Glob.enumerate, halternatives] using hpipeline
      rw [Alternative.items_pipeline, List.foldl_cons,
        Segment.mem_foldl_expand_iff_exists hdevice] at hitem
      -- behind the stage of the drive, the candidates are its root and the bases
      obtain ⟨candidate, rfl | ⟨base, hbase, rfl⟩, hitem⟩ := hitem
      · exact .inl (Alternative.fits_of_mem_foldl_driveRoot hwf hdevice
          (isDriveRoot_driveRoot letter) hlawful.everLists_subset hitem)
      · by_cases hroot : IsDriveRoot letter base
        · exact .inl (Alternative.fits_of_mem_foldl_driveRoot hwf hdevice hroot
            hlawful.everLists_subset hitem)
        · exact .inr ⟨base, hbase, hroot, item, hitem, rfl⟩
  · rintro rfl base
    have hletter : letter.isUpper = true := hwf.2.1 (.device letter) (by simp)
    refine ⟨?_, (hmatch base).trans (Alternative.fits_device_iff hletter)⟩
    obtain ⟨text, alternatives⟩ := glob
    obtain rfl : alternatives = [.steps [.device letter]] := halternatives
    -- nothing stands behind the stage of the drive, so the base comes first
    exact ⟨_, @Run.cons _ _ _ _ 1 _ _ (by rfl) (.nil _)⟩

/-- A lister of directories with one file, which has the same name in all of them. -/
def textInside : Lister where
  answer _ request := .finite [.ok (.file (Path.child request.directory "b.txt"))]

/-- `textInside` lists nothing but children. -/
theorem lawful_textInside : textInside.Lawful := by
  rintro earlier request item hitem
  obtain rfl : item = _ := by simpa [textInside, Listing.items] using hitem
  exact ⟨"b.txt", by decide, rfl⟩

/-- The texts in the root of a drive. -/
def driveTexts : Glob where
  text := "C:/*.txt"
  alternatives := [.steps [.device 'C',
    .component ⟨"*.txt", [.anyRun, .char '.', .char 't', .char 'x', .char 't']⟩]]

/-- The hypotheses of `isMatch_or_exists_base` hold of `driveTexts` and `textInside`: below the root
of the drive, in another spelling, a file is yielded and matched. -/
theorem isMatch_driveTexts :
    Glob.parse .empty "C:/*.txt" = .ok driveTexts ∧ textInside.Lawful ∧
      (∃ last, Run textInside (driveTexts.enumerate .file ["c:\\"]) [.ok "c:\\b.txt"] last) ∧
      driveTexts.isMatch "c:\\b.txt" = true := by
  have hparse : Glob.parse .empty "C:/*.txt" = .ok driveTexts := by decide +kernel
  have hcompiles : driveTexts.uncheckedRegex.compiles = true := by decide +kernel
  obtain ⟨last, hlast⟩ : ∃ last, (driveTexts.enumerate .file ["c:\\"]).advance textInside 10 =
      .result (.ok "c:\\b.txt") last := ⟨_, rfl⟩
  have hrun := Run.cons hlast (.nil last)
  obtain ⟨hyields, -⟩ :=
    isMatch_or_exists_base hparse rfl (by simp) hcompiles lawful_textInside
  refine ⟨hparse, lawful_textInside, ⟨last, hrun⟩, ?_⟩
  -- the base is the root of the drive
  refine (hyields .file _ _ last hrun _ (List.mem_singleton_self _)).resolve_right ?_
  rintro ⟨base, hbase, hroot, -⟩
  obtain rfl := List.mem_singleton.1 hbase
  exact hroot ⟨'c', '\\', .inr rfl, rfl, rfl⟩

/-- From a base that is not on the drive, `driveTexts` yields a file that it does not match. -/
theorem not_isMatch_of_base :
    Glob.parse .empty "C:/*.txt" = .ok driveTexts ∧
      driveTexts.uncheckedRegex.compiles = true ∧ textInside.Lawful ∧
      (∃ last, Run textInside (driveTexts.enumerate .file ["/a"]) [.ok "/a/b.txt"] last) ∧
      driveTexts.isMatch "/a/b.txt" = false := by
  obtain ⟨last, hlast⟩ : ∃ last, (driveTexts.enumerate .file ["/a"]).advance textInside 10 =
      .result (.ok "/a/b.txt") last := ⟨_, rfl⟩
  exact ⟨by decide +kernel, by decide +kernel, lawful_textInside,
    ⟨last, .cons hlast (.nil last)⟩, by decide +kernel⟩

end Enumeration

end PathPatterns
