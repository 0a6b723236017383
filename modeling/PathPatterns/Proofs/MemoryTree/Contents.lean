import PathPatterns.Proofs.MemoryTree.Nodes
import PathPatterns.Proofs.Path.ByteOrder
import PathPatterns.Proofs.Path.Spelling

/-!
# What a tree holds

A tree holds what was inserted and nothing else, however the paths were spelled: its directories are
those that were inserted and those above an inserted path, and its files are those that were
inserted. The listing of a directory gives its children of the kind that is asked for, in the order
of the bytes of their paths, and the directory first where a path is both.

## Main results

* `hasDirectory_insertAll_iff`, `hasChild_file_insertAll_iff`: what some insertions make.
* `exists_ordered_entries`: listings are in order.
* `holds_insertAll`: a tree holds exactly what was inserted.
-/

namespace PathPatterns

/-- The order of listings: by the bytes of the paths, and a directory before a file of the same
path. -/
def Item.Before (first second : Item) : Prop :=
  Path.bytes first.path < Path.bytes second.path ∨
    first.path = second.path ∧ first.kind = .directory ∧ second.kind = .file

/-- What stands before an item is another one, so listings in order have no repeats. -/
theorem Item.Before.ne {first second : Item} (h : first.Before second) : first ≠ second := by
  rintro rfl
  rcases h with hlt | ⟨-, hdirectory, hfile⟩
  · exact List.lt_irrefl _ hlt
  · rw [hdirectory] at hfile
    exact nomatch hfile

/-- The items of children stand in the order of the children: bytes are compared as characters
are. -/
theorem Child.before_of_compare {first second : Child} (h : compare first second = .lt) :
    first.item.Before second.item := by
  rw [compare_eq, Ordering.then_eq_lt] at h
  rcases h with hpath | ⟨hpath, hkind⟩
  · exact .inl (Path.bytes_lt_bytes_iff.2 (compareOfLessAndEq_eq_lt.1 hpath))
  · refine .inr ⟨Std.LawfulEqOrd.eq_of_compare hpath, ?_⟩
    -- of two different kinds the directory is the first
    obtain ⟨_, _ | _⟩ := first <;> obtain ⟨_, _ | _⟩ := second
    · exact nomatch hkind
    · exact ⟨rfl, rfl⟩
    · exact nomatch hkind
    · exact nomatch hkind

namespace MemoryTree

open PathPatterns.Path

variable {tree : MemoryTree} {names others : List (List Char)} {name : List Char}
  {call : ChildKind × String} {calls : List (ChildKind × String)}

/-! ## What insertions make -/

/-- Whether an insertion makes the path through some names a directory: it is the directory that is
inserted, or lies above the path that is. -/
def MakesDirectory (call : ChildKind × String) (names : List (List Char)) : Prop :=
  (call.1 = .directory ∧ Spells call.2.toList names) ∨
    ∃ more, more ≠ [] ∧ Spells call.2.toList (names ++ more)

/-- Whether an insertion makes the path through some names a file. -/
def MakesFile (call : ChildKind × String) (names : List (List Char)) : Prop :=
  call.1 = .file ∧ Spells call.2.toList names

/-- The directories of which an insertion `MakesDirectory` are those of the first names on its path,
and all of them if it is a directory. -/
theorem makesDirectory_iff (hcall : Spells call.2.toList others)
    (h : ∀ name ∈ names, IsPlain name) :
    MakesDirectory call names ↔
      ∃ front back, others = front ++ back ∧ (back = [] → call.1 = .directory) ∧
        pathOf names = pathOf front := by
  refine ⟨?_, ?_⟩
  · rintro (⟨hkind, hspells⟩ | ⟨more, hmore, hspells⟩)
    · exact ⟨names, [], by simp [hcall.unique hspells], fun _ => hkind, rfl⟩
    · exact ⟨names, more, hcall.unique hspells, fun hnil => absurd hnil hmore, rfl⟩
  · rintro ⟨front, back, rfl, hkind, hpath⟩
    have hfront : ∀ name ∈ front, IsName name :=
      fun name hname => hcall.isName name (by simp [hname])
    obtain rfl := pathOf_injective (fun name hname => (h name hname).1) hfront hpath
    -- either the path itself is meant, or something below it is inserted
    by_cases hback : back = []
    · rw [hback, List.append_nil] at hcall
      exact .inl ⟨hkind hback, hcall⟩
    · exact .inr ⟨back, hback, hcall⟩

/-- The directories of a tree are those of which one of the insertions `MakesDirectory`. -/
theorem hasDirectory_insertAll_iff (hcalls : ∀ call ∈ calls, ∃ names, Spells call.2.toList names)
    (h : ∀ name ∈ names, IsPlain name) :
    (insertAll calls).HasDirectory (pathOf names) ↔ ∃ call ∈ calls, MakesDirectory call names := by
  refine insertAll_iff_exists (P := fun tree => tree.HasDirectory (pathOf names))
    not_hasDirectory_empty fun tree call hcall => ?_
  obtain ⟨others, hothers⟩ := hcalls call hcall
  rw [hasDirectory_insert_of_key hothers.ofPath hothers.1, makesDirectory_iff hothers h]

/-- An insertion `MakesFile` of its path if it is one, and lists it in the directory of the names in
front. -/
theorem makesFile_iff (hcall : Spells call.2.toList others)
    (h : ∀ other ∈ names ++ [name], IsPlain other) :
    MakesFile call (names ++ [name]) ↔
      ∃ front last back, others = front ++ last :: back ∧ pathOf names = pathOf front ∧
        (⟨pathOf (names ++ [name]), .file⟩ : Child) =
          ⟨pathOf (front ++ [last]), if back = [] then call.1 else .directory⟩ := by
  refine ⟨?_, ?_⟩
  · rintro ⟨hkind, hspells⟩
    exact ⟨names, name, [], hcall.unique hspells, rfl, by rw [if_pos rfl, hkind]⟩
  · rintro ⟨front, last, back, rfl, -, hchild⟩
    obtain ⟨hpath, hkind⟩ := Child.mk.inj hchild
    -- a name that is not the last on the path is listed as a directory
    by_cases hback : back = []
    · rw [if_pos hback] at hkind
      rw [hback] at hcall
      obtain heq := pathOf_injective (fun other hother => (h other hother).1) hcall.isName hpath
      exact ⟨hkind.symm, heq ▸ hcall⟩
    · rw [if_neg hback] at hkind
      exact nomatch hkind

/-- The files of a tree are those of which one of the insertions `MakesFile`. -/
theorem hasChild_file_insertAll_iff
    (hcalls : ∀ call ∈ calls, ∃ names, Spells call.2.toList names)
    (h : ∀ other ∈ names ++ [name], IsPlain other) :
    (insertAll calls).HasChild (pathOf names) ⟨pathOf (names ++ [name]), .file⟩ ↔
      ∃ call ∈ calls, MakesFile call (names ++ [name]) := by
  refine insertAll_iff_exists (P := fun tree => tree.HasChild _ _) not_hasChild_empty
    fun tree call hcall => ?_
  obtain ⟨others, hothers⟩ := hcalls call hcall
  rw [hasChild_insert_of_key hothers.ofPath hothers.1, makesFile_iff hothers h]

/-- Insertions of paths that are spelled from the root through plain names keep a tree `Regular`. -/
theorem regular_insertAll_of_spells (hcalls : ∀ call ∈ calls, ∃ names, Spells call.2.toList names) :
    (insertAll calls).Regular := by
  refine insertAll_induction regular_empty fun tree call hcall htree => ?_
  obtain ⟨names, hnames⟩ := hcalls call hcall
  exact regular_insert htree hnames.ofPath hnames.1

/-- A tree `HasNode` of some names and a kind exactly if it is a directory there or one of the
insertions `MakesFile` of it. -/
theorem hasNode_insertAll_iff (hcalls : ∀ call ∈ calls, ∃ names, Spells call.2.toList names)
    (h : ∀ name ∈ names, IsPlain name) {kind : EntityKind} :
    (insertAll calls).HasNode (names ++ [name]) kind ↔ IsPlain name ∧
      (kind = .directory ∧ (insertAll calls).isDirectory (pathOf (names ++ [name])) = true ∨
        kind = .file ∧ ∃ call ∈ calls, MakesFile call (names ++ [name])) := by
  have hplain : (∀ other ∈ names ++ [name], IsPlain other) ↔ IsPlain name := by
    rw [List.forall_mem_append, and_iff_right h, List.forall_mem_singleton]
  cases kind with
  | directory =>
    rw [hasNode_directory_iff, hplain]
    simp
  | file =>
    rw [HasNode, hplain]
    refine and_congr_right fun hname => ?_
    rw [← hasChild_file_insertAll_iff hcalls (hplain.2 hname)]
    -- the directory in which a file is listed is that of the names in front
    simp
  | fileOrDirectory =>
    rw [HasNode]
    simp

/-! ## Listings -/

/-- What is no directory is not listed: a single failure names the path as it was asked for. -/
theorem entries_of_isDirectory_eq_false {kind : EntityKind} {directory : String}
    (h : tree.isDirectory directory = false) :
    tree.entries ⟨kind, directory⟩ =
      [.error ⟨.notFound, "directory '" ++ directory ++ "' does not exist"⟩] := by
  have hnone : tree.directories[key directory]? = none :=
    Std.ExtTreeMap.getElem?_eq_none_of_contains_eq_false h
  rw [entries, hnone]

/-- A directory is listed without a failure, in the order of `Item.Before`. -/
theorem exists_ordered_entries {kind : EntityKind} {directory : String}
    (h : tree.isDirectory directory = true) :
    ∃ items : List Item, tree.entries ⟨kind, directory⟩ = items.map .ok ∧
      items.Pairwise Item.Before := by
  rw [isDirectory_iff] at h
  obtain ⟨children, hchildren⟩ : ∃ children, tree.directories[key directory]? = some children :=
    Option.isSome_iff_exists.1 (Std.ExtTreeMap.mem_iff_isSome_getElem?.1 h)
  refine ⟨_, by rw [entries, hchildren], ?_⟩
  -- the children are kept in order, and leaving some out keeps it
  refine List.Pairwise.filter _ (List.Pairwise.map _ (fun _ _ => Child.before_of_compare) ?_)
  exact Std.ExtTreeSet.ordered_toList

/-- Where paths were spelled from the root (`hcalls`), the children of a directory have one name
more, and are the directories and files of that path. -/
theorem mem_entries_iff_made (hcalls : ∀ call ∈ calls, ∃ names, Spells call.2.toList names)
    {directory : String} (hdirectory : Spells directory.toList names) {kind : EntityKind}
    {item : Item} :
    .ok item ∈ (insertAll calls).entries ⟨kind, directory⟩ ↔
      kind.accepts item.kind = true ∧
        ∃ name, IsPlain name ∧ item.path = pathOf (names ++ [name]) ∧
          (item.kind = .directory ∧ (insertAll calls).isDirectory item.path = true ∨
            item.kind = .file ∧ ∃ call ∈ calls, MakesFile call (names ++ [name])) := by
  have htree := regular_insertAll_of_spells hcalls
  -- the directory is listed as what it spells
  have hkey : key directory = key (pathOf names) := by
    rw [key_pathOf hdirectory.1, key, hdirectory.ofPath, pathOf]
  have hlisting : .ok item ∈ (insertAll calls).entries ⟨kind, directory⟩ ↔
      .ok item ∈ (insertAll calls).entries ⟨kind, pathOf names⟩ := by
    rw [mem_entries_iff, mem_entries_iff, hkey]
  refine hlisting.trans ((mem_listing_iff htree hdirectory.1).trans ?_)
  simp only [hasNode_insertAll_iff hcalls hdirectory.1]
  refine ⟨?_, ?_⟩
  · rintro ⟨name, hpath, ⟨hname, hkind⟩, haccepts⟩
    exact ⟨haccepts, name, hname, hpath, hpath ▸ hkind⟩
  · rintro ⟨haccepts, name, hname, hpath, hkind⟩
    exact ⟨name, hpath, ⟨hname, hpath ▸ hkind⟩, haccepts⟩

/-- After insertions of paths that are spelled from the root through plain names, a path is a
directory exactly if an insertion `MakesDirectory` of it: it was inserted as one or lies above an
inserted path. What is none is not listed, and the listing of a directory gives, in the order of
`Item.Before` and each once, its direct children of the kind that is asked for: those that are
directories and those of which an insertion `MakesFile`. -/
theorem holds_insertAll (hcalls : ∀ call ∈ calls, ∃ names, Spells call.2.toList names)
    {directory : String} (hdirectory : Spells directory.toList names) :
    ((insertAll calls).isDirectory directory = true ↔ ∃ call ∈ calls, MakesDirectory call names) ∧
    ∀ kind : EntityKind,
      ((insertAll calls).isDirectory directory = false →
        (insertAll calls).entries ⟨kind, directory⟩ =
          [.error ⟨.notFound, "directory '" ++ directory ++ "' does not exist"⟩]) ∧
      ((insertAll calls).isDirectory directory = true →
        ∃ items : List Item, (insertAll calls).entries ⟨kind, directory⟩ = items.map .ok ∧
          items.Pairwise Item.Before ∧ items.Nodup ∧
          ∀ item, item ∈ items ↔ kind.accepts item.kind = true ∧
            ∃ name, IsPlain name ∧ item.path = pathOf (names ++ [name]) ∧
              (item.kind = .directory ∧ (insertAll calls).isDirectory item.path = true ∨
                item.kind = .file ∧ ∃ call ∈ calls, MakesFile call (names ++ [name]))) := by
  refine ⟨?_, fun kind => ⟨entries_of_isDirectory_eq_false, fun hknown => ?_⟩⟩
  · have hkey : key directory = pathOf names := by
      rw [key, hdirectory.ofPath, pathOf]
    rw [isDirectory_iff, hkey, hasDirectory_insertAll_iff hcalls hdirectory.1]
  · -- the order rules out that an item comes twice
    obtain ⟨items, hitems, hordered⟩ := @exists_ordered_entries _ kind _ hknown
    refine ⟨items, hitems, hordered, hordered.imp Item.Before.ne, fun item => ?_⟩
    rw [← mem_entries_iff_made hcalls hdirectory, hitems]
    simp

/-- A path that is inserted as a file and, spelled otherwise, as a directory. -/
def fileAndDirectory : List (ChildKind × String) :=
  [(.directory, "/"), (.file, "/a/b"), (.directory, "\\a/b//")]

/-- The hypotheses of `holds_insertAll` hold of `fileAndDirectory`, and the listing of `/a`, spelled
with `\`, has both a directory and a file of one path. -/
theorem holds_fileAndDirectory :
    (∀ call ∈ fileAndDirectory, ∃ names, Spells call.2.toList names) ∧
      Spells "\\a/".toList [['a']] ∧ (insertAll fileAndDirectory).isDirectory "\\a/" = true ∧
      ∃ items : List Item,
        (insertAll fileAndDirectory).entries ⟨.fileOrDirectory, "\\a/"⟩ = items.map .ok ∧
          items.Pairwise Item.Before ∧ .directory "/a/b" ∈ items ∧ .file "/a/b" ∈ items := by
  have hroot : Spells "/".toList [] := ⟨by decide, 1, by decide, rfl⟩
  have hfile : Spells "/a/b".toList [['a'], ['b']] := ⟨by decide, 0, by decide, rfl⟩
  have hb : Spells "\\a/b//".toList [['a'], ['b']] := ⟨by decide, 2, by decide, rfl⟩
  have ha : Spells "\\a/".toList [['a']] := ⟨by decide, 1, by decide, rfl⟩
  have hcalls : ∀ call ∈ fileAndDirectory, ∃ names, Spells call.2.toList names := by
    simpa [fileAndDirectory] using ⟨⟨_, hroot⟩, ⟨_, hfile⟩, ⟨_, hb⟩⟩
  -- the upper directory lies above both, and the lower is inserted
  have hupper : MakesDirectory (.file, "/a/b") [['a']] := .inr ⟨[['b']], by simp, hfile⟩
  have hlower : MakesDirectory (.directory, "\\a/b//") [['a'], ['b']] := .inl ⟨rfl, hb⟩
  have hknown := (holds_insertAll hcalls ha).1.2 ⟨_, by simp [fileAndDirectory], hupper⟩
  have hdirectory := (holds_insertAll hcalls hfile).1.2 ⟨_, by simp [fileAndDirectory], hlower⟩
  obtain ⟨items, hitems, hordered, -, hmem⟩ :=
    ((holds_insertAll hcalls ha).2 .fileOrDirectory).2 hknown
  refine ⟨hcalls, ha, hknown, items, hitems, hordered, (hmem _).2 ?_, (hmem _).2 ?_⟩
  · exact ⟨rfl, ['b'], by decide, rfl, .inl ⟨rfl, hdirectory⟩⟩
  · refine ⟨rfl, ['b'], by decide, rfl, .inr ⟨rfl, (.file, "/a/b"), ?_, rfl, hfile⟩⟩
    simp [fileAndDirectory]

end MemoryTree

end PathPatterns
