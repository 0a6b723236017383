import PathPatterns.Proofs.Enumeration.Ends
import PathPatterns.Proofs.MemoryTree.Regular

/-!
# Walking through a tree

A regular tree is seen as its nodes: the names on the way from the root, with a kind. Listings lead
from a node to those one name below, so walks reach exactly the directories below a directory, and
they end, since no path is longer than the longest in the tree.

## Main results

* `mem_listing_iff`: the listing of a directory holds the nodes one name below it.
* `below_iff`: the directories that a walk reaches.
* `exists_finitelyRanked`: walks through the tree end.
-/

namespace PathPatterns

namespace MemoryTree

open PathPatterns.Path

/-- Whether plain names lead from the root to an entity of a kind. -/
def HasNode (tree : MemoryTree) (names : List (List Char)) (kind : EntityKind) : Prop :=
  (∀ name ∈ names, IsPlain name) ∧
    match kind with
    | .directory => tree.HasDirectory (pathOf names)
    | .file =>
      ∃ front name, names = front ++ [name] ∧ tree.HasChild (pathOf front) ⟨pathOf names, .file⟩
    | .fileOrDirectory => False

/-- The listing that answers a request, always a finite one. -/
def listing (tree : MemoryTree) (request : Request) : Listing :=
  .finite (tree.entries request)

variable {tree : MemoryTree} {names more : List (List Char)} {name : List Char}
  {kind : EntityKind} {item : Item} {path : String}

/-- A directory with a child in it is a directory. -/
theorem hasDirectory_of_hasChild {key : String} {child : Child} (h : tree.HasChild key child) :
    tree.HasDirectory key := by
  obtain ⟨children, hget, -⟩ := h
  exact Std.ExtTreeMap.mem_iff_isSome_getElem?.2 (by simp [hget])

/-- A directory among the nodes is one that `isDirectory` finds. -/
theorem hasNode_directory_iff :
    tree.HasNode names .directory ↔
      (∀ name ∈ names, IsPlain name) ∧ tree.isDirectory (pathOf names) = true := by
  refine and_congr_right fun hplain => ?_
  rw [isDirectory_iff, key_pathOf hplain]

theorem HasNode.isDirectory (h : tree.HasNode names .directory) :
    tree.isDirectory (pathOf names) = true :=
  (hasNode_directory_iff.1 h).2

theorem HasNode.isName (h : tree.HasNode names kind) : ∀ name ∈ names, IsName name :=
  fun name hname => (h.1 name hname).1

section Regular

variable (htree : tree.Regular)

include htree

/-- `HasNode` holds below the root exactly of what is listed in its parent. -/
theorem hasNode_append_singleton_iff :
    tree.HasNode (names ++ [name]) kind ↔
      (∀ other ∈ names ++ [name], IsPlain other) ∧
        ∃ child, tree.HasChild (pathOf names) child ∧
          child.path = pathOf (names ++ [name]) ∧ child.kind.entityKind = kind := by
  refine and_congr_right fun hplain => ?_
  cases kind with
  | directory =>
    -- a directory is listed as one, and what is listed as one is one
    refine ⟨fun h => ⟨_, htree.listed names name hplain h, rfl, rfl⟩, ?_⟩
    rintro ⟨⟨path, _ | _⟩, hchild, rfl, hkind⟩
    · exact htree.known _ _ hchild
    · simp [ChildKind.entityKind] at hkind
  | file =>
    refine ⟨?_, ?_⟩
    · rintro ⟨front, other, heq, hchild⟩
      obtain ⟨rfl, -⟩ := List.append_inj' heq rfl
      exact ⟨_, hchild, rfl, rfl⟩
    · rintro ⟨⟨path, _ | _⟩, hchild, rfl, hkind⟩
      · simp [ChildKind.entityKind] at hkind
      · exact ⟨names, name, rfl, hchild⟩
  | fileOrDirectory =>
    -- no entity is of both kinds
    apply iff_of_false id
    rintro ⟨⟨path, _ | _⟩, hchild, rfl, hkind⟩
    · simp [ChildKind.entityKind] at hkind
    · simp [ChildKind.entityKind] at hkind

/-- What lies above a node is a directory, in a `Regular` tree. -/
theorem HasNode.parent (h : tree.HasNode (names ++ [name]) kind) :
    tree.HasNode names .directory := by
  obtain ⟨hplain, child, hchild, -⟩ := (hasNode_append_singleton_iff htree).1 h
  exact ⟨fun other hother => hplain other (by simp [hother]), hasDirectory_of_hasChild hchild⟩

/-- What lies on the way to a directory is a directory, by `HasNode.parent` and induction on the
names behind it. -/
theorem HasNode.front (h : tree.HasNode (names ++ more) .directory) :
    tree.HasNode names .directory := by
  induction more using List.reverseRecOn with
  | nil => simpa using h
  | append_singleton more name ih =>
    rw [← List.append_assoc] at h
    exact ih (h.parent htree)

/-- The `listing` of a directory holds the nodes one name below it, of the kind that is asked
for. -/
theorem mem_listing_iff (hplain : ∀ name ∈ names, IsPlain name) {request : EntityKind} :
    item ∈ (tree.listing ⟨request, pathOf names⟩).items ↔
      ∃ name, item.path = pathOf (names ++ [name]) ∧ tree.HasNode (names ++ [name]) item.kind ∧
        request.accepts item.kind = true := by
  show .ok item ∈ tree.entries ⟨request, pathOf names⟩ ↔ _
  rw [mem_entries_iff, key_pathOf hplain]
  simp only [hasNode_append_singleton_iff htree]
  refine ⟨?_, ?_⟩
  · rintro ⟨child, hchild, rfl, haccepts⟩
    obtain ⟨front, name, hnames, hkey, hpath⟩ := htree.children _ child hchild
    -- the names on the path of the directory are known from the path
    obtain rfl : names = front := by
      refine pathOf_injective (fun other hother => (hplain other hother).1) ?_ hkey
      exact fun other hother => (hnames other (by simp [hother])).1
    exact ⟨name, hpath, ⟨hnames, child, hchild, hpath, rfl⟩, haccepts⟩
  · rintro ⟨name, hpath, ⟨-, child, hchild, hchildpath, hkind⟩, haccepts⟩
    refine ⟨child, hchild, ?_, haccepts⟩
    obtain ⟨path, kind⟩ := item
    rw [Child.item, Item.mk.injEq]
    exact ⟨hpath.trans hchildpath.symm, hkind.symm⟩

/-- The directories `Below` a directory are those with its names in front of theirs. -/
theorem below_iff (hnode : tree.HasNode names .directory) :
    Below (fun request => (tree.listing request).items) (pathOf names) path ↔
      ∃ more, path = pathOf (names ++ more) ∧ tree.HasNode (names ++ more) .directory := by
  refine ⟨fun h => ?_, ?_⟩
  · -- each listing of the walk adds a name
    induction h with
    | refl => exact ⟨[], by simp, by simpa using hnode⟩
    | tail _ hchild ih =>
      obtain ⟨more, rfl, hmore⟩ := ih
      obtain ⟨name, hpath, hchild, -⟩ := (mem_listing_iff htree hmore.1).1 hchild
      rw [List.append_assoc] at hpath hchild
      exact ⟨more ++ [name], hpath, hchild⟩
  · rintro ⟨more, rfl, hmore⟩
    -- each name is listed in the directory in front of it, to which the walk has come
    induction more using List.reverseRecOn with
    | nil =>
      rw [List.append_nil]
      exact .refl
    | append_singleton more name ih =>
      rw [← List.append_assoc] at hmore ⊢
      have hparent := hmore.parent htree
      apply Relation.ReflTransGen.tail (ih hparent)
      exact (mem_listing_iff htree hparent.1).2 ⟨name, rfl, hmore, rfl⟩

/-- The directories of a `Regular` tree are `FinitelyRanked`: paths grow on the way down, and there
is a longest. -/
theorem exists_finitelyRanked : ∃ rank, Pipeline.FinitelyRanked False tree.listing
    (fun path => ∃ names, path = pathOf names ∧ tree.HasNode names .directory) rank := by
  obtain ⟨bound, hbound⟩ := htree.bounded
  refine ⟨fun path => bound - path.toList.length, ?_, ?_, ?_⟩
  · rintro kind _ - ⟨names, rfl, hnode⟩
    obtain ⟨items, hitems⟩ := exists_entries_of_isDirectory hnode.isDirectory
    exact ⟨_, congrArg Listing.finite hitems, by simp⟩
  · rintro kind _ child - ⟨names, rfl, hnode⟩ hchild
    obtain ⟨name, hpath, hchild, -⟩ := (mem_listing_iff htree hnode.1).1 hchild
    exact ⟨_, hpath, hchild⟩
  · rintro _ child ⟨names, rfl, hnode⟩ hchild
    obtain ⟨name, hpath, hchild, -⟩ := (mem_listing_iff htree hnode.1).1 hchild
    obtain rfl : child = pathOf (names ++ [name]) := hpath
    obtain ⟨-, entry, hentry, hpath, -⟩ := (hasNode_append_singleton_iff htree).1 hchild
    -- the path is longer by a name, and not longer than the bound
    have hle := hbound _ entry hentry
    have hlt := length_absolute_lt names (hchild.isName name (by simp)).1
    rw [hpath, toList_pathOf] at hle
    rw [toList_pathOf, toList_pathOf]
    omega

end Regular

end MemoryTree

end PathPatterns
