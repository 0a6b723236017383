import Std.Data.ExtTreeMap
import PathPatterns.Lister
import PathPatterns.MemoryTree.Child
import PathPatterns.MemoryTree.Key

/-!
# Trees in memory

A tree in memory maps the keys of its directories to their children. Inserting a path makes all
directories above it, so a tree may be described by its files alone. Trees are equal when they
have the same directories and these the same children.

## Main definitions

* `MemoryTree.insert`: the operation `insert`, with `insert_file` and `insert_directory` as
  `insertFile` and `insertDirectory`; `ofPaths` makes a tree as `from_files` does.
* `MemoryTree.isDirectory`: the operation `is_directory`.
* `MemoryTree.lister`: the operation `enumerate` of a tree.

## Main results

* `hasDirectory_addDirectory`, `hasDirectory_addChild`: what the two elementary insertions do to
  the directories.
* `hasChild_addDirectory`, `hasChild_addChild`: what they do to the children.
-/

namespace PathPatterns

/-- A tree of directories in memory: which directories there are, and what is in each. -/
structure MemoryTree where
  /-- The children of each directory, by the key of the directory. -/
  directories : Std.ExtTreeMap String (Std.ExtTreeSet Child)
deriving DecidableEq

namespace MemoryTree

/-- The tree without directories. -/
def empty : MemoryTree := ⟨∅⟩

/-- The key of a path, `Key.ofPath` on strings. -/
def key (path : String) : String :=
  String.ofList (Key.ofPath path.toList)

/-- Whether the tree has a directory under a key. -/
def HasDirectory (tree : MemoryTree) (key : String) : Prop :=
  key ∈ tree.directories

/-- Whether the tree has a child in the directory under a key. -/
def HasChild (tree : MemoryTree) (key : String) (child : Child) : Prop :=
  ∃ children, tree.directories[key]? = some children ∧ child ∈ children

/-- Whether a path, in any spelling with the same key, is a directory of the tree. -/
def isDirectory (tree : MemoryTree) (path : String) : Bool :=
  tree.directories.contains (key path)

/-- The children of the directory under a key; none if there is no such directory. -/
def childrenAt (tree : MemoryTree) (key : String) : Std.ExtTreeSet Child :=
  tree.directories.getD key ∅

/-- Makes a directory under a key; the children that it has stay. -/
def addDirectory (tree : MemoryTree) (key : String) : MemoryTree :=
  ⟨tree.directories.insert key (tree.childrenAt key)⟩

/-- Makes a directory under a key, and a child in it. -/
def addChild (tree : MemoryTree) (key : String) (child : Child) : MemoryTree :=
  ⟨tree.directories.insert key ((tree.childrenAt key).insert child)⟩

/-- The children that make a path known in the directories above it, each with the key of its
directory: the path itself in its parent, as an entity of the given kind, and every directory
above it in its own parent. `parents` lists the directories above the path, nearest first. -/
def links (kind : ChildKind) (path : List Char) : (parents : List (List Char)) →
    List (String × Child)
  | [] => []
  | parent :: above =>
    (String.ofList parent, ⟨String.ofList path, kind⟩) :: links .directory parent above

/-- Makes a path known: a directory under its own key, any path in the directories above it. -/
def insert (tree : MemoryTree) (kind : ChildKind) (path : String) : MemoryTree :=
  let own := Key.ofPath path.toList
  -- a directory is known even if nothing is above it and nothing in it
  let tree :=
    match kind with
    | .directory => tree.addDirectory (String.ofList own)
    | .file => tree
  (links kind own (Key.ancestors own)).foldl (fun tree link => tree.addChild link.1 link.2) tree

/-- Inserts a file and the directories above it. -/
def insertFile (tree : MemoryTree) (path : String) : MemoryTree :=
  tree.insert .file path

/-- Inserts a directory and the directories above it. -/
def insertDirectory (tree : MemoryTree) (path : String) : MemoryTree :=
  tree.insert .directory path

/-- The tree of some files and directories. -/
def ofPaths (files directories : List String) : MemoryTree :=
  directories.foldl insertDirectory (files.foldl insertFile empty)

/-- The entries of a directory that satisfy a request, in the order of its children; a failure if
there is no such directory. -/
def entries (tree : MemoryTree) (request : Request) : List Entry :=
  match tree.directories[key request.directory]? with
  | none =>
    [.error ⟨.notFound, "directory '" ++ request.directory ++ "' does not exist"⟩]
  | some children =>
    ((children.toList.map Child.item).filter fun item => request.kind.accepts item.kind).map .ok

/-- The lister that reads a tree; what was asked for before makes no difference. -/
def lister (tree : MemoryTree) : Lister :=
  .ofFunction tree.entries

/-- A path is a directory of the tree if there is one under its `key`. -/
theorem isDirectory_iff (tree : MemoryTree) (path : String) :
    tree.isDirectory path = true ↔ tree.HasDirectory (key path) :=
  Std.ExtTreeMap.contains_iff_mem

/-- `addDirectory` makes one directory and keeps the others. -/
@[simp]
theorem hasDirectory_addDirectory (tree : MemoryTree) (key other : String) :
    (tree.addDirectory key).HasDirectory other ↔ key = other ∨ tree.HasDirectory other := by
  simp [HasDirectory, addDirectory]

/-- `addChild` makes the directory of the child if it is not there, and no other. -/
@[simp]
theorem hasDirectory_addChild (tree : MemoryTree) (key other : String) (child : Child) :
    (tree.addChild key child).HasDirectory other ↔ key = other ∨ tree.HasDirectory other := by
  simp [HasDirectory, addChild]

/-- The children under a key are those that `HasChild` speaks of. -/
theorem mem_childrenAt (tree : MemoryTree) (key : String) (child : Child) :
    child ∈ tree.childrenAt key ↔ tree.HasChild key child := by
  rw [childrenAt, Std.ExtTreeMap.getD_eq_getD_getElem?, HasChild]
  cases tree.directories[key]? <;> simp

/-- `addDirectory` brings no children, neither to the new directory nor to others. -/
@[simp]
theorem hasChild_addDirectory (tree : MemoryTree) (key other : String) (child : Child) :
    (tree.addDirectory key).HasChild other child ↔ tree.HasChild other child := by
  rw [HasChild, addDirectory, Std.ExtTreeMap.getElem?_insert]
  split
  · rename_i h
    rw [Std.LawfulEqOrd.compare_eq_iff_eq] at h
    subst h
    simp [mem_childrenAt]
  · rfl

/-- The new child of `addChild` is in its directory, and nothing else changes. -/
@[simp]
theorem hasChild_addChild (tree : MemoryTree) (key other : String) (child otherChild : Child) :
    (tree.addChild key child).HasChild other otherChild ↔
      (key = other ∧ child = otherChild) ∨ tree.HasChild other otherChild := by
  rw [HasChild, addChild, Std.ExtTreeMap.getElem?_insert]
  split
  · rename_i h
    rw [Std.LawfulEqOrd.compare_eq_iff_eq] at h
    subst h
    simp [mem_childrenAt]
  · rename_i h
    rw [Std.LawfulEqOrd.compare_eq_iff_eq] at h
    simp [h, HasChild]

end MemoryTree

end PathPatterns
