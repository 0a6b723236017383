import PathPatterns.Proofs.MemoryTree.Regular
import PathPatterns.Proofs.Path.Spelling

/-!
# The climb of an insertion

An insertion lists a path in its parent, then the parent in the parent of that, and so on until
there is nothing above. Each parent has fewer bytes than the path, whatever stands in it: separators
side by side, and colons in front of them, of which one separator comes back in the parent. So the
climb ends. From the key of a path through plain names it leads through the paths of the names in
front, each of which is a key.

## Main definitions

* `IsWayUp`: the parents of a path, one above the other.
* `Climbs`: the loop of an insertion, one parent after the other.
* `pathsAbove`: the paths of the names in front.

## Main results

* `isWayUp_key_iff`: the way up from the key of a path through plain names.
* `climbs_key_iff`: a climb ends, and with the tree that the insertion makes.
* `climbs_from_key`: keys, their parents, and the way up from them.
-/

namespace PathPatterns

namespace MemoryTree

open PathPatterns.Path

variable {tree last : MemoryTree} {kind : ChildKind} {path : String} {above : List String}
  {names : List (List Char)}

/-- The parent of a path, `Key.parent?` on strings. -/
def parent? (path : String) : Option String :=
  (Key.parent? path.toList).map String.ofList

/-- Whether a list is the parent of a path, the parent of that, and so on, up to a path that has
none. -/
inductive IsWayUp : (path : String) → (above : List String) → Prop
  /-- There is nothing above the path. -/
  | top {path : String} (h : parent? path = none) : IsWayUp path []
  /-- The way up leads through the parent. -/
  | step {path parent : String} {above : List String} (h : parent? path = some parent)
      (rest : IsWayUp parent above) : IsWayUp path (parent :: above)

/-- Whether an insertion that is to list `path` as an entity of a kind ends with the tree `last`: as
long as there is a parent, the path is listed in it, and the parent is listed next, as a
directory. -/
inductive Climbs : (tree : MemoryTree) → (kind : ChildKind) → (path : String) →
    (last : MemoryTree) → Prop
  /-- There is nothing above the path. -/
  | top {tree : MemoryTree} {kind : ChildKind} {path : String} (h : parent? path = none) :
      Climbs tree kind path tree
  /-- The path is listed in its parent, and the climb goes on from there. -/
  | step {tree last : MemoryTree} {kind : ChildKind} {path parent : String}
      (h : parent? path = some parent)
      (rest : Climbs (tree.addChild parent ⟨path, kind⟩) .directory parent last) :
      Climbs tree kind path last

/-- The tree from which the climb of an insertion starts: a directory is known under its own key
already. -/
def beforeClimb (tree : MemoryTree) (kind : ChildKind) (path : String) : MemoryTree :=
  match kind with
  | .directory => tree.addDirectory (key path)
  | .file => tree

/-- The paths of the names in front of the last name, of those in front of the last but one, and so
on, down to the root. -/
def pathsAbove (names : List (List Char)) : List String :=
  (List.range names.length).reverse.map fun count => pathOf (names.take count)

@[simp]
theorem parent?_ofList (path : List Char) :
    parent? (String.ofList path) = (Key.parent? path).map String.ofList := by
  rw [parent?, String.toList_ofList]

/-- The way up from a path leads through its `Key.ancestors`, so there is exactly one. -/
theorem isWayUp_iff : IsWayUp path above ↔
    above = (Key.ancestors path.toList).map String.ofList := by
  refine ⟨fun h => ?_, ?_⟩
  · induction h with
    | top h =>
      rw [Key.ancestors_of_parent?_eq_none (Option.map_eq_none_iff.1 h), List.map_nil]
    | step h _ ih =>
      obtain ⟨parent, hparent, rfl⟩ := Option.map_eq_some_iff.1 h
      rw [Key.ancestors_of_parent? hparent, List.map_cons, ih, String.toList_ofList]
  · rintro rfl
    -- the ancestors are found in the characters, so the induction goes along these
    rw [← String.ofList_toList (s := path), String.toList_ofList]
    generalize path.toList = text
    fun_induction Key.ancestors text with
    | case1 text h => exact .top (by simp [h])
    | case2 text parent h ih => exact .step (by simp [h]) ih

/-- A climb ends with the tree in which each path on the way up has been added as a child of the one
above it. -/
theorem climbs_iff : Climbs tree kind path last ↔
    last = (links kind path.toList (Key.ancestors path.toList)).foldl
      (fun tree link => tree.addChild link.1 link.2) tree := by
  refine ⟨fun h => ?_, ?_⟩
  · induction h with
    | top h =>
      rw [Key.ancestors_of_parent?_eq_none (Option.map_eq_none_iff.1 h)]
      rfl
    | step h _ ih =>
      obtain ⟨parent, hparent, rfl⟩ := Option.map_eq_some_iff.1 h
      rw [Key.ancestors_of_parent? hparent, links, List.foldl_cons, ih, String.toList_ofList,
        String.ofList_toList]
  · rintro rfl
    rw [← String.ofList_toList (s := path), String.toList_ofList]
    generalize path.toList = text
    -- a step changes the tree and the kind, the rest of the climb starts from those
    fun_induction Key.ancestors text generalizing tree kind with
    | case1 text h => exact .top (by simp [h])
    | case2 text parent h ih => exact .step (by simp [h]) ih

/-- The climb from the key of a path, after `beforeClimb`, ends with the tree that `insert` makes,
and with no other. -/
theorem climbs_key_iff :
    Climbs (tree.beforeClimb kind path) kind (key path) last ↔ last = tree.insert kind path := by
  rw [climbs_iff, key, String.toList_ofList]
  rfl

/-- The way up from the key of a path that `Spells` some names leads through the paths of the names
in front. -/
theorem isWayUp_key_iff (h : Spells path.toList names) :
    IsWayUp (key path) above ↔ above = pathsAbove names := by
  rw [isWayUp_iff, key, String.toList_ofList, h.ofPath, ancestors_absolute_eq_take h.1,
    List.map_map]
  rfl

/-- Keys, parents and the way up. A `key` is its own key, and separators at the end of a path do not
change it. A `parent?` has fewer bytes than the path and than its key, so that the climb of an
insertion ends, whatever is inserted; it ends with the tree that `insert` makes. From a path that
`Spells` plain names the way up leads through `pathsAbove` these names, down to the root, and all of
them are keys. -/
theorem climbs_from_key (path : String) :
    key (key path) = key path ∧
    (∀ back : String, (∀ c ∈ back.toList, isSeparator c = true) →
      key (path ++ back) = key path) ∧
    (∀ parent, parent? path = some parent →
      (bytes parent).length < (bytes path).length ∧
        (bytes parent).length < (bytes (key path)).length) ∧
    (∃ above, IsWayUp (key path) above ∧ above.length ≤ (bytes (key path)).length) ∧
    (∀ tree kind last,
      Climbs (beforeClimb tree kind path) kind (key path) last ↔ last = tree.insert kind path) ∧
    ∀ names, Spells path.toList names →
      (∀ above, IsWayUp (key path) above ↔ above = pathsAbove names) ∧
        ∀ ancestor ∈ pathsAbove names, key ancestor = ancestor := by
  refine ⟨?_, fun back hback => ?_, fun parent hparent => ?_, ?_, fun _ _ _ => climbs_key_iff,
    fun names hnames => ⟨fun _ => isWayUp_key_iff hnames, fun ancestor hancestor => ?_⟩⟩
  · simp [key]
  · rw [key, String.toList_append, Key.ofPath_append_of_forall hback, key]
  · -- a parent is shorter by the name that is cut off
    obtain ⟨text, htext, rfl⟩ := Option.map_eq_some_iff.1 hparent
    have hpath := Key.byteCount_lt_of_parent? htext
    rw [byteCount_toList] at hpath
    exact ⟨hpath, Key.byteCount_lt_ofPath htext⟩
  · refine ⟨_, isWayUp_iff.2 rfl, ?_⟩
    rw [List.length_map, ← byteCount_toList]
    exact Key.length_ancestors_le _
  · obtain ⟨count, -, rfl⟩ := List.mem_map.1 hancestor
    exact key_pathOf fun name hname => hnames.1 name (List.mem_of_mem_take hname)

/-- A spelling with both separators and some at its end, and a path on which a colon ends a
component: the way up from the key of either, as `climbs_from_key` tells it. -/
theorem climbs_from_spelling :
    (∀ c ∈ "\\/".toList, isSeparator c = true) ∧ key ("\\a/bé//" ++ "\\/") = "/a/bé" ∧
      Spells "\\a/bé//".toList [['a'], ['b', 'é']] ∧ IsWayUp "/a/bé" ["/a", "/"] ∧
      key "/a" = "/a" ∧
      parent? "é:/\\a" = some "é:/" ∧ (bytes "é:/").length < (bytes (key "é:/\\a")).length ∧
      Climbs empty .file (key "é:/\\a") (empty.insertFile "é:/\\a") := by
  have hseparators : ∀ c ∈ "\\/".toList, isSeparator c = true := by
    have htext : "\\/".toList = ['\\', '/'] := rfl
    simp [htext, isSeparator]
  have hspells : Spells "\\a/bé//".toList [['a'], ['b', 'é']] := ⟨by decide, 2, by decide, rfl⟩
  have hparent : parent? "é:/\\a" = some "é:/" := by decide
  have hkey : key "\\a/bé//" = "/a/bé" := by decide
  obtain ⟨-, hback, -, -, -, hup⟩ := climbs_from_key "\\a/bé//"
  obtain ⟨-, -, hbytes, -, hclimbs, -⟩ := climbs_from_key "é:/\\a"
  obtain ⟨hway, hkeys⟩ := hup _ hspells
  refine ⟨hseparators, (hback _ hseparators).trans hkey, hspells, hkey ▸ (hway _).2 (by decide),
    hkeys _ (by decide), hparent, (hbytes _ hparent).2, (hclimbs empty .file _).2 rfl⟩

end MemoryTree

end PathPatterns
