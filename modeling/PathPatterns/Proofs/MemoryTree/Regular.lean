import PathPatterns.MemoryTree.Basic
import PathPatterns.Proofs.Path.Absolute

/-!
# What insertions make of a tree

Inserting a path makes the directories on it, each listed in its parent. Trees that are made by
inserting paths from the root stay regular: every entry lies one name below its directory, and the
directories are the root and what is listed as a directory.

## Main results

* `hasDirectory_insert`, `hasChild_insert`: what an insertion adds, whatever the path.
* `hasDirectory_insert_of_key`, `hasChild_insert_of_key`: what it adds, name by name.
* `insertAll_induction`, `insertAll_iff_exists`: from one insertion to all of them.
* `regular_insert`: an insertion keeps a tree regular.
* `mem_entries_iff`: the entries of a directory are its children.
-/

namespace PathPatterns

namespace Path

/-- The path from the root through some names, `absolute` as a string. -/
def pathOf (names : List (List Char)) : String :=
  String.ofList (absolute names)

@[simp]
theorem toList_pathOf (names : List (List Char)) : (pathOf names).toList = absolute names := by
  simp [pathOf]

/-- Paths through different names are different: `pathOf` is injective on names. -/
theorem pathOf_injective {names other : List (List Char)} (h : ∀ name ∈ names, IsName name)
    (hother : ∀ name ∈ other, IsName name) (heq : pathOf names = pathOf other) : names = other := by
  apply absolute_injective h hother
  rw [← toList_pathOf, heq, toList_pathOf]

end Path

namespace MemoryTree

open PathPatterns.Path

variable {tree : MemoryTree} {names front back : List (List Char)} {name : List Char}

/-- The path of plain names is its own key, as strings. -/
@[simp]
theorem key_pathOf (h : ∀ name ∈ names, IsPlain name) : key (pathOf names) = pathOf names := by
  rw [key, toList_pathOf, ofPath_absolute h, pathOf]

/-- Whether a path leads from the root through plain names, at least one, with single separators. -/
def IsClean (path : String) : Prop :=
  ∃ names, names ≠ [] ∧ components path.toList = [] :: names ∧ ∀ name ∈ names, IsPlain name

/-! ## Insertions -/

section Insertions

variable {kind : ChildKind} {path k : String} {child : Child}

/-- `addChild`, again and again, makes the directories in which the children are listed, and no
others. -/
theorem hasDirectory_foldl_addChild (links : List (String × Child)) :
    (links.foldl (fun tree link => tree.addChild link.1 link.2) tree).HasDirectory k ↔
      tree.HasDirectory k ∨ ∃ child, (k, child) ∈ links := by
  induction links generalizing tree with
  | nil => simp
  | cons link links ih =>
    obtain ⟨other, added⟩ := link
    rw [List.foldl_cons, ih, hasDirectory_addChild]
    simp only [List.mem_cons, Prod.mk.injEq, exists_or, exists_and_left, exists_eq, and_true]
    rw [eq_comm, or_comm (a := k = other), or_assoc]

/-- `addChild`, again and again, adds the children that are given, and no others. -/
theorem hasChild_foldl_addChild (links : List (String × Child)) :
    (links.foldl (fun tree link => tree.addChild link.1 link.2) tree).HasChild k child ↔
      tree.HasChild k child ∨ (k, child) ∈ links := by
  induction links generalizing tree with
  | nil => simp
  | cons link links ih =>
    obtain ⟨other, added⟩ := link
    rw [List.foldl_cons, ih, hasChild_addChild]
    simp only [List.mem_cons, Prod.mk.injEq]
    rw [eq_comm (a := other), eq_comm (a := added), or_comm (a := k = other ∧ child = added),
      or_assoc]

theorem not_hasDirectory_empty : ¬ empty.HasDirectory k := by
  simp [HasDirectory, empty]

theorem not_hasChild_empty : ¬ empty.HasChild k child := by
  simp [HasChild, empty]

/-- The directories in which `links` list something are those above the path. -/
theorem exists_mem_links_iff_mem {own : List Char} {parents : List (List Char)} :
    (∃ child, (k, child) ∈ links kind own parents) ↔
      ∃ above ∈ parents, k = String.ofList above := by
  induction parents generalizing kind own with
  | nil => simp [links]
  | cons parent above ih =>
    simp only [links, List.mem_cons, exists_or, ih, Prod.mk.injEq, exists_and_left, exists_eq,
      and_true, exists_eq_or_imp]

/-- `insert` makes the directories above a path, and the path itself if it is one. -/
theorem hasDirectory_insert :
    (tree.insert kind path).HasDirectory k ↔ tree.HasDirectory k ∨
      (kind = .directory ∧ k = key path) ∨
        ∃ above ∈ Key.ancestors (Key.ofPath path.toList), k = String.ofList above := by
  simp only [insert, hasDirectory_foldl_addChild, exists_mem_links_iff_mem]
  rw [← or_assoc]
  apply or_congr_left
  cases kind with
  | directory =>
    rw [hasDirectory_addDirectory, or_comm, eq_comm]
    simp [key]
  | file => simp

/-- An insertion lists the path and what is above it, as `links` say, and nothing else. -/
theorem hasChild_insert :
    (tree.insert kind path).HasChild k child ↔ tree.HasChild k child ∨ (k, child) ∈
      links kind (Key.ofPath path.toList) (Key.ancestors (Key.ofPath path.toList)) := by
  simp only [insert, hasChild_foldl_addChild]
  apply or_congr_left
  cases kind with
  | directory => exact hasChild_addDirectory tree _ _ _
  | file => rfl

/-- By `links` a path becomes known name by name: each is listed in the directory of the names in
front, as a directory unless it is the last. -/
theorem mem_links_iff (h : ∀ name ∈ names, IsPlain name) :
    (k, child) ∈ links kind (absolute names) (Key.ancestors (absolute names)) ↔
      ∃ front name back, names = front ++ name :: back ∧ k = pathOf front ∧
        child = ⟨pathOf (front ++ [name]), if back = [] then kind else .directory⟩ := by
  -- from the last name on: it is listed in the path in front, which is a directory
  induction names using List.reverseRecOn generalizing kind with
  | nil =>
    rw [ancestors_absolute_nil]
    simp [links]
  | append_singleton names last ih =>
    rw [ancestors_absolute h, links, List.mem_cons, ih fun name hname => h name (by simp [hname])]
    simp only [ite_self]
    refine ⟨?_, ?_⟩
    · rintro (heq | ⟨front, name, back, rfl, hkey, hchild⟩)
      · obtain ⟨rfl, rfl⟩ := Prod.mk.inj heq
        exact ⟨names, last, [], rfl, rfl, rfl⟩
      · exact ⟨front, name, back ++ [last], by simp, hkey, by simpa using hchild⟩
    · rintro ⟨front, name, back, hnames, hkey, hchild⟩
      cases back using List.reverseRecOn with
      | nil =>
        obtain ⟨rfl, hlast⟩ := List.append_inj' hnames rfl
        obtain rfl : last = name := by simpa using hlast
        exact .inl (Prod.ext hkey hchild)
      | append_singleton back other =>
        rw [← List.cons_append, ← List.append_assoc] at hnames
        obtain ⟨rfl, -⟩ := List.append_inj' hnames rfl
        exact .inr ⟨front, name, back, rfl, hkey, by simpa using hchild⟩

/-- The ancestors of an `absolute` path are what stands in front of a name on it. -/
theorem exists_mem_ancestors_iff (h : ∀ name ∈ names, IsPlain name) :
    (∃ above ∈ Key.ancestors (absolute names), k = String.ofList above) ↔
      ∃ front name back, names = front ++ name :: back ∧ k = pathOf front := by
  have hlinks := @exists_mem_links_iff_mem .file k (absolute names) (Key.ancestors (absolute names))
  simp only [← hlinks, mem_links_iff h]
  refine ⟨?_, ?_⟩
  · rintro ⟨child, front, name, back, hnames, hkey, -⟩
    exact ⟨front, name, back, hnames, hkey⟩
  · rintro ⟨front, name, back, hnames, hkey⟩
    exact ⟨_, front, name, back, hnames, hkey, rfl⟩

/-- The directories that an insertion makes are those in front of a name on the path, and the path
itself if it is one; this is the same as all front parts of the names but for a file. -/
theorem exists_front_iff :
    (∃ front back, names = front ++ back ∧ (back = [] → kind = .directory) ∧ k = pathOf front) ↔
      (kind = .directory ∧ k = pathOf names) ∨
        ∃ front name back, names = front ++ name :: back ∧ k = pathOf front := by
  refine ⟨?_, ?_⟩
  · rintro ⟨front, back, rfl, hkind, hkey⟩
    cases back with
    | nil => exact .inl ⟨hkind rfl, by simpa using hkey⟩
    | cons name back => exact .inr ⟨front, name, back, rfl, hkey⟩
  · rintro (⟨hkind, hkey⟩ | ⟨front, name, back, hnames, hkey⟩)
    · exact ⟨names, [], by simp, fun _ => hkind, hkey⟩
    · exact ⟨front, name :: back, hnames, by simp, hkey⟩

/-- An insertion of a path whose key is `absolute` makes the directories on the path, and the path
itself if it is one. -/
theorem hasDirectory_insert_of_key (hpath : Key.ofPath path.toList = absolute names)
    (h : ∀ name ∈ names, IsPlain name) :
    (tree.insert kind path).HasDirectory k ↔ tree.HasDirectory k ∨
      ∃ front back, names = front ++ back ∧ (back = [] → kind = .directory) ∧
        k = pathOf front := by
  rw [hasDirectory_insert, key, hpath, exists_front_iff, exists_mem_ancestors_iff h]
  rfl

/-- An insertion of a path whose key is `absolute` lists each name on it in the directory of the
names in front. -/
theorem hasChild_insert_of_key (hpath : Key.ofPath path.toList = absolute names)
    (h : ∀ name ∈ names, IsPlain name) :
    (tree.insert kind path).HasChild k child ↔ tree.HasChild k child ∨
      ∃ front name back, names = front ++ name :: back ∧ k = pathOf front ∧
        child = ⟨pathOf (front ++ [name]), if back = [] then kind else .directory⟩ := by
  rw [hasChild_insert, hpath, mem_links_iff h]

/-- The components of a path without a separator at its end determine its key, and so the
directories that inserting it makes. -/
theorem hasDirectory_insert_iff (hpath : components path.toList = [] :: names)
    (h : ∀ name ∈ names, IsPlain name) :
    (tree.insert kind path).HasDirectory k ↔ tree.HasDirectory k ∨
      ∃ front back, names = front ++ back ∧ (back = [] → kind = .directory) ∧
        k = pathOf front :=
  hasDirectory_insert_of_key (ofPath_eq_absolute hpath h) h

/-- The components of a path without a separator at its end determine the children that inserting it
adds. -/
theorem hasChild_insert_iff (hpath : components path.toList = [] :: names)
    (h : ∀ name ∈ names, IsPlain name) :
    (tree.insert kind path).HasChild k child ↔ tree.HasChild k child ∨
      ∃ front name back, names = front ++ name :: back ∧ k = pathOf front ∧
        child = ⟨pathOf (front ++ [name]), if back = [] then kind else .directory⟩ :=
  hasChild_insert_of_key (ofPath_eq_absolute hpath h) h

end Insertions

/-! ## Regular trees -/

/-- A tree in which every entry lies one name below its directory, and the directories are the root
and what is listed as a directory. -/
structure Regular (tree : MemoryTree) : Prop where
  /-- Directories are known by the paths of plain names. -/
  directories : ∀ key, tree.HasDirectory key →
    ∃ names, (∀ name ∈ names, IsPlain name) ∧ key = pathOf names
  /-- The path of a child is that of its directory and one more name. -/
  children : ∀ key child, tree.HasChild key child →
    ∃ names name, (∀ other ∈ names ++ [name], IsPlain other) ∧ key = pathOf names ∧
      child.path = pathOf (names ++ [name])
  /-- A directory is listed in its parent. -/
  listed : ∀ names name, (∀ other ∈ names ++ [name], IsPlain other) →
    tree.HasDirectory (pathOf (names ++ [name])) →
      tree.HasChild (pathOf names) ⟨pathOf (names ++ [name]), .directory⟩
  /-- What is listed as a directory is one. -/
  known : ∀ key path, tree.HasChild key ⟨path, .directory⟩ → tree.HasDirectory path
  /-- The paths of children are bounded in length. -/
  bounded : ∃ bound, ∀ key child, tree.HasChild key child → child.path.toList.length ≤ bound

/-- The tree without directories is regular. -/
theorem regular_empty : empty.Regular where
  directories _ h := absurd h not_hasDirectory_empty
  children _ _ h := absurd h not_hasChild_empty
  listed _ _ _ h := absurd h not_hasDirectory_empty
  known _ _ h := absurd h not_hasChild_empty
  bounded := ⟨0, fun _ _ h => absurd h not_hasChild_empty⟩

theorem length_absolute_le (front : List (List Char)) (name : List Char) (back : List (List Char)) :
    (absolute (front ++ [name])).length ≤ (absolute (front ++ name :: back)).length := by
  rw [absolute_append_singleton, absolute, if_neg (by simp)]
  simp

/-- An insertion of a path whose key is `absolute`, through plain names, keeps a tree regular. -/
theorem regular_insert (htree : tree.Regular) {kind : ChildKind} {path : String}
    (hpath : Key.ofPath path.toList = absolute names) (h : ∀ name ∈ names, IsPlain name) :
    (tree.insert kind path).Regular where
  directories := by
    intro key hkey
    rcases (hasDirectory_insert_of_key hpath h).1 hkey with hkey | ⟨front, back, rfl, -, hkey⟩
    · exact htree.directories key hkey
    · exact ⟨front, fun name hname => h name (by simp [hname]), hkey⟩
  children := by
    intro key child hchild
    rcases (hasChild_insert_of_key hpath h).1 hchild with
      hchild | ⟨front, name, back, rfl, hkey, rfl⟩
    · exact htree.children key child hchild
    · refine ⟨front, name, fun other hother => h other ?_, hkey, rfl⟩
      rcases List.mem_append.1 hother with hother | hother
      · simp [hother]
      · simp [List.mem_singleton.1 hother]
  listed := by
    intro front name hfront hdirectory
    rw [hasChild_insert_of_key hpath h]
    rcases (hasDirectory_insert_of_key hpath h).1 hdirectory with
      hold | ⟨_, back, hnames, hkind, heq⟩
    · exact .inl (htree.listed front name hfront hold)
    · -- a directory that is made is on the path, where each name is listed
      obtain rfl := pathOf_injective (fun other hother => (hfront other hother).1)
        (fun other hother => (h other (by simp [hnames, hother])).1) heq
      refine .inr ⟨front, name, back, by simp [hnames], rfl, ?_⟩
      by_cases hback : back = []
      · rw [if_pos hback, hkind hback]
      · rw [if_neg hback]
  known := by
    intro key path' hchild
    rw [hasDirectory_insert_of_key hpath h]
    rcases (hasChild_insert_of_key hpath h).1 hchild with hold | ⟨front, name, back, hnames, -, heq⟩
    · exact .inl (htree.known key path' hold)
    · -- a name on the path that is listed as a directory is not the last, or the path is one
      obtain ⟨rfl, hkind⟩ := Child.mk.inj heq
      refine .inr ⟨front ++ [name], back, by simp [hnames], fun hback => ?_, rfl⟩
      rw [if_pos hback] at hkind
      exact hkind.symm
  bounded := by
    obtain ⟨bound, hbound⟩ := htree.bounded
    refine ⟨max bound (absolute names).length, fun key child hchild => ?_⟩
    rcases (hasChild_insert_of_key hpath h).1 hchild with hold | ⟨front, name, back, rfl, -, rfl⟩
    · exact Nat.le_trans (hbound key child hold) (Nat.le_max_left _ _)
    · rw [toList_pathOf]
      exact Nat.le_trans (length_absolute_le front name back) (Nat.le_max_right _ _)

/-- A tree after some more insertions, each of a file or a directory. -/
def insertMany (tree : MemoryTree) (calls : List (ChildKind × String)) : MemoryTree :=
  calls.foldl (fun tree call => tree.insert call.1 call.2) tree

/-- What each insertion may add by `Q`, a tree has after all of them if it had it before or one of
them adds it. -/
theorem insertMany_iff_exists {P : MemoryTree → Prop} {Q : ChildKind × String → Prop}
    {calls : List (ChildKind × String)}
    (hinsert : ∀ tree : MemoryTree, ∀ call ∈ calls,
      P (tree.insert call.1 call.2) ↔ P tree ∨ Q call) :
    P (tree.insertMany calls) ↔ P tree ∨ ∃ call ∈ calls, Q call := by
  induction calls generalizing tree with
  | nil => simp [insertMany]
  | cons call calls ih =>
    have hfirst := hinsert tree call List.mem_cons_self
    have hothers := @ih (tree.insert call.1 call.2) fun tree other hother =>
      hinsert tree other (List.mem_cons_of_mem _ hother)
    rw [hfirst] at hothers
    exact hothers.trans (by simp [or_assoc])

/-- The tree of some insertions, each of a file or a directory, in order. -/
def insertAll (calls : List (ChildKind × String)) : MemoryTree :=
  calls.foldl (fun tree call => tree.insert call.1 call.2) empty

/-- What `empty` has and each insertion keeps, a tree has after all of them. -/
theorem insertAll_induction {P : MemoryTree → Prop} {calls : List (ChildKind × String)}
    (hempty : P empty)
    (hinsert : ∀ tree : MemoryTree, ∀ call ∈ calls, P tree → P (tree.insert call.1 call.2)) :
    P (insertAll calls) := by
  induction calls using List.reverseRecOn with
  | nil => exact hempty
  | append_singleton calls call ih =>
    rw [insertAll, List.foldl_append]
    have hbefore := ih fun tree other hother => hinsert tree other (by simp [hother])
    exact hinsert _ call (by simp) hbefore

/-- What the empty tree does not have and each insertion may add by `Q`, a tree has if one of them
adds it. -/
theorem insertAll_iff_exists {P : MemoryTree → Prop} {Q : ChildKind × String → Prop}
    {calls : List (ChildKind × String)} (hempty : ¬ P empty)
    (hinsert : ∀ tree : MemoryTree, ∀ call ∈ calls,
      P (tree.insert call.1 call.2) ↔ P tree ∨ Q call) :
    P (insertAll calls) ↔ ∃ call ∈ calls, Q call := by
  rw [← or_iff_right (b := ∃ call ∈ calls, Q call) hempty]
  exact insertMany_iff_exists hinsert

/-- The directories of `insertAll` are the keys that are inserted as directories, and what is above
an inserted path. -/
theorem hasDirectory_insertAll {calls : List (ChildKind × String)} {k : String} :
    (insertAll calls).HasDirectory k ↔ ∃ call ∈ calls, (call.1 = .directory ∧ k = key call.2) ∨
      ∃ above ∈ Key.ancestors (Key.ofPath call.2.toList), k = String.ofList above :=
  insertAll_iff_exists (P := fun tree => tree.HasDirectory k) not_hasDirectory_empty
    fun _ _ _ => hasDirectory_insert

/-- The children in a tree are those that the `links` of an inserted path list. -/
theorem hasChild_insertAll {calls : List (ChildKind × String)} {k : String} {child : Child} :
    (insertAll calls).HasChild k child ↔ ∃ call ∈ calls, (k, child) ∈
      links call.1 (Key.ofPath call.2.toList) (Key.ancestors (Key.ofPath call.2.toList)) :=
  insertAll_iff_exists (P := fun tree => tree.HasChild k child) not_hasChild_empty
    fun _ _ _ => hasChild_insert

/-- The tree of insertions of paths of which `IsClean` holds is regular. -/
theorem regular_insertAll {calls : List (ChildKind × String)}
    (h : ∀ call ∈ calls, IsClean call.2) : (insertAll calls).Regular := by
  refine insertAll_induction regular_empty fun tree call hcall htree => ?_
  obtain ⟨names, -, hpath, hnames⟩ := h call hcall
  exact regular_insert htree (ofPath_eq_absolute hpath hnames) hnames

/-- A tree with something in it has a root, as every clean path has it above itself. -/
theorem hasDirectory_root_insertAll {calls : List (ChildKind × String)} (hne : calls ≠ [])
    (h : ∀ call ∈ calls, IsClean call.2) : (insertAll calls).HasDirectory (pathOf []) := by
  cases calls using List.reverseRecOn with
  | nil => exact absurd rfl hne
  | append_singleton calls call =>
    obtain ⟨names, hnonempty, hpath, hnames⟩ := h call (by simp)
    rw [insertAll, List.foldl_append]
    exact (hasDirectory_insert_iff hpath hnames).2
      (.inr ⟨[], names, rfl, fun hnil => absurd hnil hnonempty, rfl⟩)

/-! ## Entries -/

variable {kind : EntityKind} {item : Item}

/-- The `entries` of a directory are its children of the kind that is asked for. -/
theorem mem_entries_iff {request : Request} :
    .ok item ∈ tree.entries request ↔
      ∃ child, tree.HasChild (key request.directory) child ∧ item = child.item ∧
        request.kind.accepts item.kind = true := by
  simp only [entries, HasChild]
  cases tree.directories[key request.directory]? with
  | none => simp
  | some children =>
    simp only [List.mem_map, List.mem_filter, Except.ok.injEq, exists_eq_right,
      Std.ExtTreeSet.mem_toList, Option.some.injEq, exists_eq_left']
    refine ⟨?_, ?_⟩
    · rintro ⟨⟨child, hchild, rfl⟩, haccepts⟩
      exact ⟨child, hchild, rfl, haccepts⟩
    · rintro ⟨child, hchild, rfl, haccepts⟩
      exact ⟨⟨child, hchild, rfl⟩, haccepts⟩

/-- A directory of the tree is listed without a failure, for every kind. -/
theorem exists_entries_of_isDirectory {path : String} (h : tree.isDirectory path = true) :
    ∃ items : List Item, tree.entries ⟨kind, path⟩ = items.map .ok := by
  rw [isDirectory_iff] at h
  simp only [entries]
  cases hget : tree.directories[key path]? with
  | none =>
    have hsome := Std.ExtTreeMap.mem_iff_isSome_getElem?.1 h
    simp [hget] at hsome
  | some children => exact ⟨_, rfl⟩

end MemoryTree

end PathPatterns
