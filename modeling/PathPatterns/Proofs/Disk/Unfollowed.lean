import PathPatterns.Proofs.Disk.Follow
import PathPatterns.Proofs.Enumeration.Ends
import PathPatterns.Proofs.Enumeration.Requests

/-!
# Enumerations on a disk that do not follow links

Links may lead in a circle or up, and nothing but the disk bounds a `**`. If links are not followed,
none is listed as a directory. So an enumeration goes down from its bases by real directories alone.
Their real paths grow from level to level, and a disk holds finitely many of them.

## Main definitions

* `Descends`: names lead down from a base by directories alone.
* `below`: some bases and what is below them in this way.

## Main results

* `directoryPaths_entries_subset`: listings lead from what is below the bases to nothing else.
* `finitelyRanked_entries`: real paths grow on the way down, up to a bound.
* `stays_below_bases`: an enumeration ends, and lists nothing but its bases and real directories
  below them.
-/

namespace PathPatterns

namespace Disk

variable {disk : Disk} {options : Options} {real : List DiskName} {names : List String}
  {base path child name : String} {bases : List String}

/-- The real path to which `names` lead from the real path `real`, if there are no links on the way.
-/
def downFrom (real : List DiskName) (names : List String) : List DiskName :=
  real ++ names.map fun name => DiskName.ofText name.toList

/-- Whether some names lead down from a base by directories alone, none of them a link; the base
itself leads to the directory `real`, whatever links there are on the way to it. -/
structure Descends (disk : Disk) (base : String) (real : List DiskName) (names : List String) :
    Prop where
  /-- The base leads to a directory. -/
  start : disk.resolveDirectory base = .ok real
  /-- There is a directory at each step below the base. -/
  directory : ∀ front, front <+: names → disk.node? (downFrom real front) = some .directory
  /-- The whole path leads to the last of these directories, if it can be followed. -/
  leads : ∀ last, disk.resolveDirectory (names.foldl Path.join base) = .ok last →
    last = downFrom real names

/-- The paths in `bases`, and those that lead down from one of them by directories alone
(`Descends`). -/
def below (disk : Disk) (bases : List String) : Set String :=
  {path | ∃ base ∈ bases, path = base ∨
    ∃ real names, path = names.foldl Path.join base ∧ disk.Descends base real names}

/-! ## On the way down -/

/-- A base that leads to a directory is the start of a way down from it, without a name. -/
theorem descends_nil (h : disk.resolveDirectory base = .ok real) :
    disk.Descends base real [] where
  start := h
  directory := by
    intro front hfront
    rw [List.prefix_nil.1 hfront, downFrom, List.map_nil, List.append_nil]
    exact (resolveDirectory_eq_ok_iff.1 h).2
  leads := by
    intro last hlast
    rw [List.foldl_nil, h] at hlast
    rw [← Except.ok.inj hlast, downFrom, List.map_nil, List.append_nil]

/-- If `names` lead down to a directory that holds another one under `name`, then `name` is one more
step down. -/
theorem Descends.concat (h : disk.Descends base real names) (hwf : disk.WellFormed)
    (hleads : disk.resolveDirectory (names.foldl Path.join base) = .ok (downFrom real names))
    (hmem : (downFrom real names ++ [DiskName.ofText name.toList], .directory) ∈ disk.nodes) :
    disk.Descends base real (names ++ [name]) := by
  have hnode := hwf.node?_eq (by simp) hmem
  have hconcat : downFrom real (names ++ [name]) =
      downFrom real names ++ [DiskName.ofText name.toList] := by
    simp [downFrom]
  refine ⟨h.start, fun front hfront => ?_, fun last hlast => ?_⟩
  -- a front of all names is either all of them or one of the names before
  · rcases List.prefix_concat_iff.1 hfront with rfl | hfront
    · rwa [hconcat]
    · exact h.directory front hfront
  · rw [List.foldl_append] at hlast
    rw [hconcat]
    exact resolveDirectory_join (hwf.isName _ hmem _ (by simp)) hnode hleads hlast

/-- If links are not followed, listings lead from what is `below` the bases to nothing else,
whatever `kind` is asked for. -/
theorem directoryPaths_entries_subset (hwf : disk.WellFormed)
    (hoptions : options.followLinks = false) (kind : EntityKind) (hpath : path ∈ disk.below bases) :
    directoryPaths (Listing.finite (disk.entries options ⟨kind, path⟩)).items ⊆
      disk.below bases := by
  intro child hchild
  obtain ⟨here, name, hhere, hmem, rfl⟩ := exists_of_directory_mem_entries hoptions hchild
  obtain ⟨base, hbase, hbelow⟩ := hpath
  -- something is listed, so that a base leads to a directory and is no step below itself
  obtain ⟨real, names, rfl, hdescends⟩ :
      ∃ real names, path = names.foldl Path.join base ∧ disk.Descends base real names := by
    rcases hbelow with rfl | hdown
    · exact ⟨here, [], rfl, descends_nil hhere⟩
    · exact hdown
  obtain rfl := hdescends.leads here hhere
  refine ⟨base, hbase, .inr ⟨real, names ++ [name], ?_, hdescends.concat hwf hhere hmem⟩⟩
  rw [List.foldl_append]
  rfl

/-! ## Ends -/

/-- How much a disk whose paths have at most `bound` names may still hold below `path`: what leads
nowhere has nothing below it. -/
def depthBelow (disk : Disk) (bound : Nat) (path : String) : Nat :=
  match disk.resolveDirectory path with
  | .ok real => bound + 1 - real.length
  | .error _ => 0

/-- `depthBelow` counts down along the real path of a directory. -/
theorem depthBelow_of_resolveDirectory (h : disk.resolveDirectory path = .ok real) (bound : Nat) :
    disk.depthBelow bound path = bound + 1 - real.length := by
  simp only [depthBelow, h]

/-- If links are not followed, real paths grow on the way down, up to the length of the longest path
in `nodes`. So `depthBelow` is a rank for all paths. -/
theorem finitelyRanked_entries (hwf : disk.WellFormed) (hoptions : options.followLinks = false) :
    ∃ rank, Pipeline.FinitelyRanked True (fun request => .finite (disk.entries options request))
      (fun _ => True) rank := by
  obtain ⟨bound, hbound⟩ := ((List.finite_toSet disk.nodes).image fun entry =>
    entry.1.length).bddAbove
  refine ⟨disk.depthBelow bound, ?_, ?_, ?_⟩
  · exact fun _ _ _ _ => ⟨_, rfl, fun _ _ => trivial⟩
  · exact fun _ _ _ _ _ _ => trivial
  · intro path child _ hchild
    obtain ⟨real, name, hreal, hmem, rfl⟩ := exists_of_directory_mem_entries hoptions hchild
    have hlength : real.length + 1 ≤ bound := by
      simpa using hbound ⟨_, hmem, rfl⟩
    rw [depthBelow_of_resolveDirectory hreal]
    cases hjoined : disk.resolveDirectory (Path.join path name) with
    | error failure =>
      -- the path has become too long to be followed, which ends the walk as well
      simp only [depthBelow, hjoined]
      omega
    | ok joined =>
      have hnode := hwf.node?_eq (by simp) hmem
      rw [depthBelow_of_resolveDirectory hjoined,
        resolveDirectory_join (hwf.isName _ hmem _ (by simp)) hnode hreal hjoined,
        List.length_append, List.length_singleton]
      omega

/-- If links are not followed (`hoptions`), an enumeration on a well-formed disk comes to an end,
wherever links lead and wherever the disk is read from: it has a complete run from all `bases`, also
from paths relative to the working directory `Disk.start`. If moreover the glob names no drive
(`hdevice`), each directory that is asked for is one of the bases, or is below one of them by
directories alone (`below`). -/
theorem stays_below_bases (hwf : disk.WellFormed) (hoptions : options.followLinks = false)
    {glob : Glob}
    (hdevice : ∀ alternative ∈ glob.alternatives, ∀ letter, .device letter ∉ alternative.segments)
    (kind : EntityKind) (bases : List String) :
    (∃ results,
      Enumeration.Completes (disk.lister options) (glob.enumerate kind bases) results) ∧
    ∀ state, (glob.enumerate kind bases).Later (disk.lister options) state →
      ∀ request ∈ state.stream.requests, request.directory ∈ disk.below bases := by
  constructor
  · -- every path is safe to start from, so that nothing is asked of the bases
    obtain ⟨rank, hranked⟩ := finitelyRanked_entries hwf hoptions
    have hhalts : ∀ pipeline ∈ (glob.enumerate kind bases).stream.pipelines,
        pipeline.Halts True fun request => .finite (disk.entries options request) := by
      intro pipeline hpipeline
      obtain ⟨alternative, -, rfl⟩ := List.mem_map.1 hpipeline
      exact Pipeline.halts_pipeline hranked (fun _ _ => trivial) fun _ _ => trivial
    exact Enumeration.exists_completes_of_halts (fun _ _ => rfl) hhalts
  · intro state hstate
    have htraced := (hstate.isTraced (Enumeration.isTraced_enumerate _ glob kind bases)).requests
    refine htraced.directory_mem ?_ fun _ kind path hpath =>
      directoryPaths_entries_subset hwf hoptions kind hpath
    rintro path (hbase | ⟨alternative, hmem, letter, hletter, -⟩)
    · exact ⟨path, hbase, .inl rfl⟩
    · exact absurd hletter (hdevice alternative hmem letter)

/-- `/a/b` holds a link to `/a`, one that leads above it, and one to itself. -/
def linkedBack : Disk where
  nodes := [([[0x61]], .directory), ([[0x61], [0x62]], .directory),
    ([[0x61], [0x62], [0x78]], .link "/a"), ([[0x61], [0x62], [0x79]], .link "../.."),
    ([[0x61], [0x62], [0x7a]], .link "z")]

/-- The hypotheses of `stays_below_bases` hold of `linkedBack`, and `**` lists `/a` and `/a/b` and
follows none of the links back. -/
theorem stays_below_linkedBack :
    ∃ results state,
      Enumeration.Completes (linkedBack.lister {}) (allDirectories.enumerate .file ["/a"]) results ∧
      (allDirectories.enumerate .file ["/a"]).Later (linkedBack.lister {}) state ∧
      state.stream.requests = [⟨.directory, "/a/b"⟩, ⟨.directory, "/a"⟩] ∧
      ∀ request ∈ state.stream.requests, request.directory ∈ linkedBack.below ["/a"] := by
  have hwf : linkedBack.WellFormed := by decide
  have hoptions : ({} : Options).followLinks = false := rfl
  have hdevice : ∀ alternative ∈ allDirectories.alternatives, ∀ letter,
      .device letter ∉ alternative.segments := by
    simp [allDirectories, Alternative.segments]
  obtain ⟨⟨results, hcompletes⟩, hbelow⟩ := stays_below_bases hwf hoptions hdevice .file ["/a"]
  have hreal : linkedBack.resolveDirectory "/a" = .ok [[0x61]] := by
    have hfollow : linkedBack.follow linkLimit [] [[], [0x61]] = .ok [[0x61]] := by
      simp [follow, linkedBack, node?, selfName, parentName, nameLimit]
    exact resolveDirectory_eq_ok_iff.2 ⟨hfollow, rfl⟩
  have hentries : linkedBack.entries {} ⟨.directory, "/a"⟩ = [.ok (.directory "/a/b")] := by
    simp only [entries, entriesAt, hreal]
    rfl
  -- the walk has listed `/a`, and comes to `/a/b` next
  have hlisted : (allDirectories.enumerate .file ["/a"]).Later (linkedBack.lister {})
      ⟨.file, ⟨[.walking (some "/a") (.finite [.ok (.directory "/a/b")]) .empty],
        [⟨.directory, "/a"⟩]⟩, ∅, false⟩ := by
    rw [← hentries]
    exact .advance .refl 3
  have hlater := hlisted.advance 3
  exact ⟨results, _, hcompletes, hlater, rfl, hbelow _ hlater⟩

end Disk

end PathPatterns
