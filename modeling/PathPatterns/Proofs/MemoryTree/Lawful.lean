import PathPatterns.Proofs.Enumeration.Confined
import PathPatterns.Proofs.MemoryTree.Contents
import PathPatterns.Proofs.MemoryTree.Exact
import PathPatterns.Proofs.Registry.Coherent

/-!
# Trees as lawful listers

What a lawful lister lists has the path of the directory with one name more. A tree of tidy paths
does that in all its listings, and so whatever a glob enumerates from its root matches, as long as
no component of a path ends in a colon. Such a component is taken for a drive wherever it stands,
and listed with the separator of a root at its end, which no child has.

## Main results

* `exists_child_of_mem_entries`: a regular tree lists children.
* `confined_lists`: its listings lead from paths of plain names to such paths.
* `mem_links_of_parent?`: every path on the way up is listed in its parent.
* `lists_children_of_isTidy`: trees of tidy paths are lawful exactly as long as there is no colon at
  the end of a component.
-/

namespace PathPatterns

namespace MemoryTree

open PathPatterns.Path

variable {tree : MemoryTree} {names : List (List Char)} {name : List Char} {item : Item}
  {calls : List (ChildKind × String)}

/-! ## Regular trees -/

/-- The path of one name more is that of a `Path.child`. -/
theorem child_pathOf (h : ∀ name ∈ names, IsName name) (name : List Char) :
    Path.child (pathOf names) (String.ofList name) = pathOf (names ++ [name]) := by
  apply String.toList_inj.1
  rw [toList_pathOf, absolute_append_singleton, spine_append, Path.child, toList_pathOf]
  cases names using List.reverseRecOn with
  | nil =>
    rw [if_pos (by rfl), String.toList_append, toList_pathOf, String.toList_ofList]
    simp [absolute]
  | append_singleton names last =>
    have hlast := h last (by simp)
    rw [absolute_append_singleton, getLast?_spine hlast.1, if_neg]
    · rw [String.toList_append, String.toList_append, toList_pathOf, String.toList_ofList,
        absolute_append_singleton]
      simp [separator]
    · -- the last name does not end in a separator
      intro hany
      obtain ⟨c, hc, hsep⟩ := (Option.any_eq_true _ _).1 hany
      rw [hlast.2 c (List.mem_of_getLast? hc)] at hsep
      exact absurd hsep Bool.false_ne_true

/-- A `Regular` tree lists children of the directory that is asked for, in the spelling of its
key. -/
theorem exists_child_of_mem_entries (htree : tree.Regular) {request : Request}
    (hitem : .ok item ∈ tree.entries request) :
    ∃ name : String, IsName name.toList ∧
      item.path = Path.child (key request.directory) name := by
  obtain ⟨child, hchild, rfl, -⟩ := mem_entries_iff.1 hitem
  obtain ⟨names, name, hnames, hkey, hpath⟩ := htree.children _ _ hchild
  have hname : ∀ other ∈ names ++ [name], IsName other :=
    fun other hother => (hnames other hother).1
  refine ⟨String.ofList name, by simpa using hname name (by simp), ?_⟩
  rw [hkey, child_pathOf fun other hother => hname other (by simp [hother])]
  exact hpath

/-- The listings of a `Regular` tree lead from paths of plain names to such paths. -/
theorem confined_lists (htree : tree.Regular) :
    Confined tree.lists childItems
      {path | ∃ names, (∀ name ∈ names, IsPlain name) ∧ path = pathOf names} where
  subset := by
    rintro kind _ ⟨names, hnames, rfl⟩ item hitem
    obtain ⟨name, hname, hpath⟩ := exists_child_of_mem_entries htree hitem
    rw [key_pathOf hnames] at hpath
    exact ⟨name, hname, hpath⟩
  closed := by
    rintro kind _ ⟨names, hnames, rfl⟩ child hchild
    obtain ⟨name, hpath, hnode, -⟩ := (mem_listing_iff htree hnames).1 hchild
    exact ⟨names ++ [name], hnode.1, hpath⟩

/-! ## The way up -/

/-- Every path on the way up, the inserted one included, is in `links` as a child of its parent. -/
theorem mem_links_of_parent? {kind : ChildKind} {own here parent : List Char}
    (hhere : here ∈ own :: Key.ancestors own) (hparent : Key.parent? here = some parent) :
    ∃ kind', (String.ofList parent, ⟨String.ofList here, kind'⟩) ∈
      links kind own (Key.ancestors own) := by
  induction own using Key.ancestors.induct generalizing kind with
  | case1 own hnone =>
    rw [Key.ancestors_of_parent?_eq_none hnone, List.mem_singleton] at hhere
    rw [hhere, hnone] at hparent
    exact nomatch hparent
  | case2 own above habove ih =>
    rw [Key.ancestors_of_parent? habove] at hhere ⊢
    rcases List.mem_cons.1 hhere with rfl | hhere
    · obtain rfl := Option.some.inj (habove.symm.trans hparent)
      exact ⟨kind, List.mem_cons_self⟩
    · -- from the parent on, the path is that of a directory
      exact (ih hhere).imp fun _ hmem => List.mem_cons_of_mem _ hmem

/-- Where a component of a path that `IsTidy` ends in a colon, an entry ends in a separator, as the
root of a drive does. -/
theorem exists_entry_of_colon {call : ChildKind × String} (hcall : call ∈ calls)
    (htidy : IsTidy call.2.toList) {name : List Char} (hname : name ∈ components call.2.toList)
    (hcolon : name.getLast? = some ':') :
    ∃ request item, .ok item ∈ (insertAll calls).entries request ∧
      item.path.toList.getLast? = some separator := by
  obtain ⟨here, parent, hhere, hlast, hparent⟩ := htidy.exists_driveRoot hname hcolon
  obtain ⟨kind, hmem⟩ := mem_links_of_parent? hhere hparent
  have hchild : (insertAll calls).HasChild (String.ofList parent) ⟨String.ofList here, kind⟩ :=
    hasChild_insertAll.2 ⟨call, hcall, hmem⟩
  -- the parent is found under its key, as no separators are doubled
  have hkey : key (String.ofList parent) = String.ofList parent := by
    obtain ⟨above, habove, heq⟩ := exists_mem_links_iff_mem.1 ⟨_, hmem⟩
    rw [String.ofList_injective heq, key, String.toList_ofList,
      Key.ofPath_of_mem_ancestors htidy.spaced habove]
  rw [← hkey] at hchild
  refine ⟨⟨.fileOrDirectory, String.ofList parent⟩, Child.item ⟨String.ofList here, kind⟩,
    mem_entries_iff.2 ⟨_, hchild, rfl, rfl⟩, ?_⟩
  rw [Child.item, String.toList_ofList, hlast]

/-! ## Trees of tidy paths -/

/-- A tree of paths that satisfy `IsTidy`, none of which has a component that ends in a colon, lists
nothing but children of directories, and what a glob without drives enumerates from its root
matches. Any component that ends in a colon makes the tree list something that ends in a
separator. -/
theorem lists_children_of_isTidy (htidy : ∀ call ∈ calls, IsTidy call.2.toList) :
    ((∀ call ∈ calls, ∀ name ∈ components call.2.toList, name.getLast? ≠ some ':') →
      (∀ request item, .ok item ∈ (insertAll calls).entries request →
        ∃ name : String, IsName name.toList ∧
          item.path = Path.child (key request.directory) name) ∧
      ∀ (registry : Registry) (slot : String) (handle : Handle), Registry.Arises registry →
        registry.get? slot = some handle →
        (∀ alternative ∈ handle.glob.alternatives,
          ∀ letter, .device letter ∉ alternative.segments) →
        handle.glob.uncheckedRegex.compiles = true →
        ∀ kind results last, Enumeration.Run (insertAll calls).lister
          (handle.glob.enumerate kind ["/"]) results last →
        ∀ path, .ok path ∈ results → handle.glob.isMatch path = true) ∧
    ∀ call ∈ calls, ∀ name ∈ components call.2.toList, name.getLast? = some ':' →
      ∃ request item, .ok item ∈ (insertAll calls).entries request ∧
        item.path.toList.getLast? = some separator := by
  refine ⟨fun hcolon => ?_, fun call hcall name hname hlast =>
    exists_entry_of_colon hcall (htidy call hcall) hname hlast⟩
  -- without colons at the end of components each path spells plain names
  have htree : (insertAll calls).Regular := regular_insertAll_of_spells fun call hcall =>
    (htidy call hcall).exists_spells (hcolon call hcall)
  refine ⟨fun request item hitem => exists_child_of_mem_entries htree hitem, ?_⟩
  intro registry slot handle harises hget hdevice hcompiles kind results last hrun path hpath
  refine (confined_lists htree).isMatch (fun _ _ => subset_rfl) (harises.wellFormed hget) hdevice
    hcompiles ?_ hrun hpath
  exact fun base hbase => ⟨[], by simp, List.mem_singleton.1 hbase⟩

/-- The path that an advance yields, if it does. -/
def yielded? : Enumeration.Advance → Option String
  | .result (.ok path) _ => some path
  | _ => none

/-- An enumeration whose advance yields a path has a `Run` with this path as its result. -/
theorem exists_run_of_yielded? {lister : Lister} {enumeration : Enumeration} {steps : Nat}
    {path : String} (h : yielded? (enumeration.advance lister steps) = some path) :
    ∃ last, Enumeration.Run lister enumeration [.ok path] last := by
  cases hadvance : enumeration.advance lister steps with
  | result result last =>
    cases result with
    | ok other =>
      rw [hadvance, yielded?, Option.some_inj] at h
      rw [h] at hadvance
      exact ⟨last, .cons hadvance (.nil last)⟩
    | error failure => simp [hadvance, yielded?] at h
  | finished rest => simp [hadvance, yielded?] at h
  | unfinished rest => simp [hadvance, yielded?] at h

/-- The hypotheses of `lists_children_of_isTidy` hold of a tree of one file, which the universal
glob enumerates from the root and matches. -/
theorem isMatch_of_insertAll_source :
    IsTidy "\\src/a.rs".toList ∧
      (∃ last, Enumeration.Run (insertAll [(.file, "\\src/a.rs")]).lister
        (Glob.anything.enumerate .file ["/"]) [.ok "/src/a.rs"] last) ∧
      Glob.anything.isMatch "/src/a.rs" = true := by
  have htidy : IsTidy "\\src/a.rs".toList := ⟨⟨_, _, rfl, rfl⟩, by decide⟩
  have hcolon : ∀ call ∈ [(ChildKind.file, "\\src/a.rs")], ∀ name ∈ components call.2.toList,
      name.getLast? ≠ some ':' := by decide
  have hcompiles : Glob.anything.uncheckedRegex.compiles = true := by decide +kernel
  have hdevice : ∀ alternative ∈ Glob.anything.alternatives,
      ∀ letter, .device letter ∉ alternative.segments := by
    simp [Glob.anything, Alternative.segments]
  -- the run is computed up to its first path
  have hyielded : yielded? ((Glob.anything.enumerate .file ["/"]).advance
      (insertAll [(.file, "\\src/a.rs")]).lister 20) = some "/src/a.rs" := by
    decide +kernel
  obtain ⟨last, hrun⟩ := exists_run_of_yielded? hyielded
  have hget : (Registry.empty.anything "all").get? "all" = some .anything := by
    rw [Registry.anything, Registry.get?_put, if_pos rfl]
  have htree := (lists_children_of_isTidy (by simpa using htidy)).1 hcolon
  exact ⟨htidy, ⟨last, hrun⟩, htree.2 _ "all" .anything (.anything "all" .empty) hget hdevice
    hcompiles .file _ last hrun _ (List.mem_singleton_self _)⟩

/-- The directories in the root. -/
def rootDirectories : Glob where
  text := "/*"
  alternatives := [.steps [.root, .anyDirectory]]

/-- The tree of `/a:/b` lists a drive in its root, which `rootDirectories` enumerates and does not
match. -/
theorem lists_driveRoot_of_colon :
    .ok (.directory "/a:/") ∈ (insertAll [(.file, "/a:/b")]).entries ⟨.directory, "/"⟩ ∧
      Glob.parse .empty "/*" = .ok rootDirectories ∧
      (∃ last, Enumeration.Run (insertAll [(.file, "/a:/b")]).lister
        (rootDirectories.enumerate .directory ["/"]) [.ok "/a:/"] last) ∧
      rootDirectories.isMatch "/a:/" = false := by
  have hyielded : yielded? ((rootDirectories.enumerate .directory ["/"]).advance
      (insertAll [(.file, "/a:/b")]).lister 20) = some "/a:/" := by
    decide +kernel
  exact ⟨by decide +kernel, by decide +kernel, exists_run_of_yielded? hyielded, by decide +kernel⟩

end MemoryTree

end PathPatterns
