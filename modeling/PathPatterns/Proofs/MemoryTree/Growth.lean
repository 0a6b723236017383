import Mathlib.Data.List.Sort
import PathPatterns.Proofs.MemoryTree.Regular

/-!
# How trees grow

Insertions only add to a tree, and what they add does not depend on what is there already: the
directories on the way up from a path, and the children that make it known in them. The tree that
they make is therefore the same in whatever order, and however often, they come.

## Main results

* `eq_of_forall_iff`: a tree is determined by its directories and their children.
* `Grows.sublist_entries`: a listing goes on to hold what it held, in the same order.
* `insertMany_of_same_calls`: only which insertions are made matters to a tree, and none of them
  takes anything away.
-/

namespace PathPatterns

namespace MemoryTree

variable {tree larger other : MemoryTree} {calls : List (ChildKind × String)} {kind : ChildKind}
  {path k : String} {child : Child}

/-! ## What a tree has -/

theorem exists_getElem?_of_hasDirectory (h : tree.HasDirectory k) :
    ∃ children, tree.directories[k]? = some children :=
  Option.isSome_iff_exists.1 (Std.ExtTreeMap.mem_iff_isSome_getElem?.1 h)

theorem getElem?_of_not_hasDirectory (h : ¬ tree.HasDirectory k) :
    tree.directories[k]? = none :=
  Std.ExtTreeMap.getElem?_eq_none h

/-- The children under a key that is known are those of which `HasChild` holds. -/
theorem mem_iff_hasChild {children : Std.ExtTreeSet Child}
    (h : tree.directories[k]? = some children) : child ∈ children ↔ tree.HasChild k child := by
  simp [HasChild, h]

/-- A tree is determined by `HasDirectory` and `HasChild`. -/
theorem eq_of_forall_iff (hdirectories : ∀ k, tree.HasDirectory k ↔ other.HasDirectory k)
    (hchildren : ∀ k child, tree.HasChild k child ↔ other.HasChild k child) : tree = other := by
  obtain ⟨directories⟩ := tree
  obtain ⟨others⟩ := other
  rw [MemoryTree.mk.injEq]
  -- a directory without children is not the same as none, so these are two cases
  refine Std.ExtTreeMap.ext_getElem? fun k => ?_
  by_cases hk : HasDirectory ⟨directories⟩ k
  · obtain ⟨children, hchildrenAt⟩ := exists_getElem?_of_hasDirectory hk
    obtain ⟨more, hmoreAt⟩ := exists_getElem?_of_hasDirectory ((hdirectories k).1 hk)
    have hsame : children = more := Std.ExtTreeSet.ext_mem fun child => by
      rw [mem_iff_hasChild hchildrenAt, mem_iff_hasChild hmoreAt, hchildren]
    exact hchildrenAt.trans (hsame ▸ hmoreAt.symm)
  · have hother := (hdirectories k).not.1 hk
    exact (getElem?_of_not_hasDirectory hk).trans (getElem?_of_not_hasDirectory hother).symm

/-! ## Growth -/

/-- Whether a tree has everything that another one has: its directories and the children in them. -/
structure Grows (tree larger : MemoryTree) : Prop where
  /-- No directory is lost. -/
  directories : ∀ k, tree.HasDirectory k → larger.HasDirectory k
  /-- No child is lost. -/
  children : ∀ k child, tree.HasChild k child → larger.HasChild k child

/-- By `insert` a tree `Grows`: nothing is taken away, neither directories nor children. -/
theorem grows_insert : tree.Grows (tree.insert kind path) where
  directories _ h := hasDirectory_insert.2 (.inl h)
  children _ _ h := hasChild_insert.2 (.inl h)

/-- Children are listed in one order, so those that are listed among others stand as before. -/
theorem sublist_toList {children more : Std.ExtTreeSet Child}
    (h : ∀ child ∈ children, child ∈ more) : children.toList.Sublist more.toList := by
  have hirrefl : Std.Irrefl fun a b : Child => compare a b = .lt :=
    ⟨fun a h => by simp at h⟩
  have hantisymm : Std.Antisymm fun a b : Child => compare a b = .lt :=
    ⟨fun a b hab hba => absurd (Std.TransCmp.lt_trans hab hba) (by simp)⟩
  have hordered : ∀ listed : Std.ExtTreeSet Child,
      listed.toList.Pairwise fun a b => compare a b = .lt := fun _ => Std.ExtTreeSet.ordered_toList
  have hsub : children.toList.Subperm more.toList :=
    List.subperm_of_subset (hordered children).nodup fun child hchild =>
      Std.ExtTreeSet.mem_toList.2 (h child (Std.ExtTreeSet.mem_toList.1 hchild))
  -- lists without repeats that are ordered alike differ in nothing but what is left out
  exact List.sublist_of_subperm_of_pairwise hsub (hordered children) (hordered more)

/-- If a tree `Grows`, the listing of a directory goes on to hold what it held, in the same
order. -/
theorem Grows.sublist_entries (h : tree.Grows larger) {request : Request}
    (hdirectory : tree.isDirectory request.directory = true) :
    (tree.entries request).Sublist (larger.entries request) := by
  have hknown := (isDirectory_iff tree _).1 hdirectory
  obtain ⟨children, hchildren⟩ := exists_getElem?_of_hasDirectory hknown
  obtain ⟨more, hmore⟩ := exists_getElem?_of_hasDirectory (h.directories _ hknown)
  have hsub : ∀ child ∈ children, child ∈ more := fun child hchild =>
    (mem_iff_hasChild hmore).2 (h.children _ _ ((mem_iff_hasChild hchildren).1 hchild))
  simp only [entries, hchildren, hmore]
  exact (((sublist_toList hsub).map _).filter _).map _

/-! ## Many insertions -/

/-- The directories after `insertMany` are those before and those that the insertions make. -/
theorem hasDirectory_insertMany_iff :
    (tree.insertMany calls).HasDirectory k ↔ tree.HasDirectory k ∨
      ∃ call ∈ calls, (call.1 = .directory ∧ k = key call.2) ∨
        ∃ above ∈ Key.ancestors (Key.ofPath call.2.toList), k = String.ofList above :=
  insertMany_iff_exists (P := fun tree => tree.HasDirectory k) fun _ _ _ => hasDirectory_insert

/-- The children after `insertMany` are those before and those that the insertions make. -/
theorem hasChild_insertMany_iff :
    (tree.insertMany calls).HasChild k child ↔ tree.HasChild k child ∨
      ∃ call ∈ calls, (k, child) ∈
        links call.1 (Key.ofPath call.2.toList) (Key.ancestors (Key.ofPath call.2.toList)) :=
  insertMany_iff_exists (P := fun tree => tree.HasChild k child) fun _ _ _ => hasChild_insert

/-- Only which insertions are made matters to `insertMany`: neither their order nor how often each
of them comes. By an insertion a tree `Grows`: it keeps all directories and children, and a
directory that could be listed is listed with all its entries, in the same order, possibly among
others. -/
theorem insertMany_of_same_calls (tree : MemoryTree) :
    (∀ first second : List (ChildKind × String), (∀ call, call ∈ first ↔ call ∈ second) →
      tree.insertMany first = tree.insertMany second) ∧
    ∀ kind path, tree.Grows (tree.insert kind path) ∧
      ∀ request : Request, tree.isDirectory request.directory = true →
        (tree.insert kind path).isDirectory request.directory = true ∧
          (tree.entries request).Sublist ((tree.insert kind path).entries request) := by
  refine ⟨fun first second hsame => ?_, fun kind path => ⟨grows_insert, fun request hknown => ?_⟩⟩
  · refine eq_of_forall_iff (fun k => ?_) fun k child => ?_
    · simp only [hasDirectory_insertMany_iff, hsame]
    · simp only [hasChild_insertMany_iff, hsame]
  · refine ⟨?_, grows_insert.sublist_entries hknown⟩
    rw [isDirectory_iff] at hknown ⊢
    exact grows_insert.directories _ hknown

/-- Insertions of paths with doubled separators, colons and drives come to the same in another order
with a repeat, as `insertMany_of_same_calls` says, and a listing that is there stays in a longer
one. -/
theorem insertMany_oddPaths :
    (insertAll [(.directory, "C:\\x\\")]).insertMany
        [(.file, "/a//b:/c"), (.directory, "/a/"), (.file, "C:x")] =
      (insertAll [(.directory, "C:\\x\\")]).insertMany
        [(.file, "C:x"), (.directory, "/a/"), (.file, "/a//b:/c"), (.directory, "/a/")] ∧
    ((insertAll [(.directory, "C:\\x\\")]).entries ⟨.fileOrDirectory, "C:"⟩).Sublist
      (((insertAll [(.directory, "C:\\x\\")]).insert .file "C:/x").entries
        ⟨.fileOrDirectory, "C:"⟩) := by
  obtain ⟨hsame, hkeeps⟩ := insertMany_of_same_calls (insertAll [(.directory, "C:\\x\\")])
  refine ⟨hsame _ _ fun call => ?_, ((hkeeps .file "C:/x").2 _ (by decide +kernel)).2⟩
  simp only [List.mem_cons, List.not_mem_nil, or_false]
  tauto

end MemoryTree

end PathPatterns
