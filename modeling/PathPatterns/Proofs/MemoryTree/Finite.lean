import Mathlib.Data.Set.Finite.Lattice
import Mathlib.Data.Set.Finite.List
import PathPatterns.Proofs.Enumeration.Ends
import PathPatterns.Proofs.MemoryTree.Lawful
import PathPatterns.Proofs.MemoryTree.Nodes
import PathPatterns.Proofs.Path.Keys

/-!
# Enumerations in a tree end

A child is listed under one text and looked up under another, its key, so that the children of a
tree might lead in a circle. They do not: whatever is inserted, a child stands under the parent of
its path, and the key of a path has more bytes than its parent. There are finitely many children, so
no walk goes down for ever. A directory that is listed and not found ends an enumeration as well,
by a failure.

## Main results

* `parent?_of_hasChild`: a child is listed in the parent of its path.
* `finitelyRanked_insertAll`: keys grow on the way down, up to a bound.
* `advances_in_insertAll`: every advance comes to a result or to the end, and after finitely many of
  them it is the end.
-/

namespace PathPatterns

namespace MemoryTree

open PathPatterns.Path

variable {kind : ChildKind} {k : String} {child : Child} {calls : List (ChildKind × String)}

/-- In `links`, the path and each path on the way up is listed in its parent. -/
theorem parent?_of_mem_links {own : List Char}
    (h : (k, child) ∈ links kind own (Key.ancestors own)) :
    Key.parent? child.path.toList = some k.toList := by
  generalize habove : Key.ancestors own = parents at h
  -- on the ancestors; each is the next path to be listed
  induction parents generalizing kind own with
  | nil => simp [links] at h
  | cons parent above ih =>
    have hparent : Key.parent? own = some parent ∧ Key.ancestors parent = above := by
      cases hown : Key.parent? own with
      | none => simp [Key.ancestors_of_parent?_eq_none hown] at habove
      | some nearest =>
        rw [Key.ancestors_of_parent? hown] at habove
        obtain ⟨rfl, rfl⟩ := List.cons.inj habove
        exact ⟨rfl, rfl⟩
    rcases List.mem_cons.1 h with heq | hrest
    · obtain ⟨rfl, rfl⟩ := Prod.mk.inj heq
      simpa using hparent.1
    · exact ih hparent.2 hrest

/-- Whatever is inserted by `calls`, a child is listed in the parent of its path and in no other
directory. -/
theorem parent?_of_hasChild (h : (insertAll calls).HasChild k child) :
    Key.parent? child.path.toList = some k.toList := by
  obtain ⟨call, -, hlink⟩ := hasChild_insertAll.1 h
  exact parent?_of_mem_links hlink

/-- There is a longest key of a child, as there are finitely many. -/
theorem exists_bound_insertAll (calls : List (ChildKind × String)) :
    ∃ bound, ∀ k child, (insertAll calls).HasChild k child →
      byteCount (Key.ofPath child.path.toList) ≤ bound := by
  -- the links of all insertions make one list
  let all := calls.flatMap fun call =>
    links call.1 (Key.ofPath call.2.toList) (Key.ancestors (Key.ofPath call.2.toList))
  obtain ⟨bound, hbound⟩ := ((List.finite_toSet all).image fun link : String × Child =>
    byteCount (Key.ofPath link.2.path.toList)).bddAbove
  refine ⟨bound, fun k child hchild => ?_⟩
  have hmem : (k, child) ∈ all := List.mem_flatMap.2 (hasChild_insertAll.1 hchild)
  exact hbound ⟨_, hmem, rfl⟩

/-- The directories of a tree are `FinitelyRanked`: keys grow on the way down, up to a bound, from
wherever one starts. -/
theorem finitelyRanked_insertAll (calls : List (ChildKind × String)) :
    ∃ rank, Pipeline.FinitelyRanked True (insertAll calls).listing (fun _ => True) rank := by
  obtain ⟨bound, hbound⟩ := exists_bound_insertAll calls
  refine ⟨fun path => bound - byteCount (Key.ofPath path.toList), ?_, ?_, ?_⟩
  · exact fun _ _ _ _ => ⟨_, rfl, fun _ _ => trivial⟩
  · exact fun _ _ _ _ _ _ => trivial
  · intro path child _ hlisted
    obtain ⟨entry, hentry, hitem, -⟩ := mem_entries_iff.1 hlisted
    obtain rfl : child = entry.path := congrArg Item.path hitem
    -- the directory is looked up under the parent of what it lists
    have hparent := parent?_of_hasChild hentry
    rw [key, String.toList_ofList] at hparent
    have hlt : byteCount (Key.ofPath path.toList) < byteCount (Key.ofPath entry.path.toList) :=
      Key.byteCount_lt_ofPath hparent
    exact Nat.sub_lt_sub_left (Nat.lt_of_lt_of_le hlt (hbound _ entry hentry)) hlt

/-- An enumeration in a tree has finitely many results, whatever has been inserted, and every
`advance` of it comes to an end in some number of steps: it gives the next of the results, whichever
have been taken before, or the end when all have been taken. -/
theorem advances_in_insertAll (calls : List (ChildKind × String)) (glob : Glob) (kind : EntityKind)
    (bases : List String) :
    ∃ results,
      Enumeration.Completes (insertAll calls).lister (glob.enumerate kind bases) results ∧
      ∀ taken last,
        Enumeration.Run (insertAll calls).lister (glob.enumerate kind bases) taken last →
          ∃ steps rest,
            (∃ result, taken ++ [result] <+: results ∧
              last.advance (insertAll calls).lister steps = .result result rest) ∨
            (taken = results ∧ last.advance (insertAll calls).lister steps = .finished rest) := by
  obtain ⟨rank, hranked⟩ := finitelyRanked_insertAll calls
  -- every directory is safe, so that bases and roots of drives are
  have hhalts : ∀ pipeline ∈ (glob.enumerate kind bases).stream.pipelines,
      pipeline.Halts True (insertAll calls).listing := by
    intro pipeline hpipeline
    obtain ⟨alternative, -, rfl⟩ := List.mem_map.1 hpipeline
    exact Pipeline.halts_pipeline hranked (fun _ _ => trivial) fun _ _ => trivial
  obtain ⟨results, hcompletes⟩ : ∃ results,
      Enumeration.Completes (insertAll calls).lister (glob.enumerate kind bases) results :=
    Enumeration.exists_completes_of_halts (fun _ _ => rfl) hhalts
  refine ⟨results, hcompletes, fun taken last hrun => ?_⟩
  -- what is left of the complete run says what the next advance gives
  obtain ⟨more, rfl, hmore⟩ := hcompletes.exists_append hrun
  obtain ⟨steps, rest, hadvance⟩ := hmore.exists_advance
  cases more with
  | nil => exact ⟨steps, rest, .inr ⟨by simp, hadvance⟩⟩
  | cons result more => exact ⟨steps, rest, .inl ⟨result, by simp, hadvance⟩⟩

/-- A tree that lists a directory and does not find it, next to a file. -/
def lostDirectory : List (ChildKind × String) :=
  [(.file, "/a//b.c"), (.file, "/x.c")]

/-- In the tree of `lostDirectory`, the enumeration from the root has a run with the result `/x.c`,
and another advance ends as `advances_in_insertAll` says. -/
theorem advances_in_lostDirectory :
    ∃ results last,
      Enumeration.Completes (insertAll lostDirectory).lister
        (Glob.anything.enumerate .file ["/"]) results ∧
      Enumeration.Run (insertAll lostDirectory).lister (Glob.anything.enumerate .file ["/"])
        [.ok "/x.c"] last ∧
      ∃ steps rest,
        (∃ result, [.ok "/x.c", result] <+: results ∧
          last.advance (insertAll lostDirectory).lister steps = .result result rest) ∨
        ([.ok "/x.c"] = results ∧
          last.advance (insertAll lostDirectory).lister steps = .finished rest) := by
  have hyielded : yielded? ((Glob.anything.enumerate .file ["/"]).advance
      (insertAll lostDirectory).lister 20) = some "/x.c" := by
    decide +kernel
  obtain ⟨last, hrun⟩ := exists_run_of_yielded? hyielded
  obtain ⟨results, hcompletes, hadvances⟩ :=
    advances_in_insertAll lostDirectory .anything .file ["/"]
  exact ⟨results, last, hcompletes, hrun, hadvances _ last hrun⟩

end MemoryTree

end PathPatterns
