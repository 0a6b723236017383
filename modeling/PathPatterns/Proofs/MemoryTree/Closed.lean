import PathPatterns.Proofs.MemoryTree.Regular
import PathPatterns.Proofs.Path.Keys

/-!
# Going down and up in a tree

Whatever is inserted, what is listed as a directory is known under its path. A path is looked for
under its key, though, and that is another where separators are doubled: the directory in front of
the second separator is then known under a text that no look-up reaches. From what spaced paths make
one can go on to all that is listed, and all that is above them is a directory.

## Main results

* `listsKnown_insertAll`: what is listed as a directory is known.
* `descends_insertAll_of_spaced`: trees of spaced paths are closed under going down and up, and any
  other path leaves something above it out.
* `not_descends_of_doubled_separator`: a tree that lists a directory and does not find it.
-/

namespace PathPatterns

namespace MemoryTree

open PathPatterns.Path

variable {tree : MemoryTree} {kind : ChildKind} {path k : String} {child : Child}
  {calls : List (ChildKind × String)}

/-! ## What holds of all trees -/

/-- What `links` list as a directory is the path, if it is inserted as one, or above it. -/
theorem eq_or_mem_of_mem_links {own : List Char} {parents : List (List Char)}
    (h : (k, ⟨path, .directory⟩) ∈ links kind own parents) :
    (kind = .directory ∧ path = String.ofList own) ∨
      ∃ above ∈ parents, path = String.ofList above := by
  induction parents generalizing kind own with
  | nil => simp [links] at h
  | cons parent above ih =>
    rcases List.mem_cons.1 h with heq | hrest
    · obtain ⟨rfl, rfl⟩ := Child.mk.inj (Prod.mk.inj heq).2
      exact .inl ⟨rfl, rfl⟩
    · rcases ih hrest with ⟨-, rfl⟩ | ⟨other, hother, rfl⟩
      · exact .inr ⟨parent, List.mem_cons_self, rfl⟩
      · exact .inr ⟨other, List.mem_cons_of_mem _ hother, rfl⟩

/-- Whether what is listed as a directory is known under its path, which need not be its key. -/
def ListsKnown (tree : MemoryTree) : Prop :=
  ∀ k path, tree.HasChild k ⟨path, .directory⟩ → tree.HasDirectory path

/-- An insertion keeps `ListsKnown`: it makes a directory of each path that it lists as one. -/
theorem listsKnown_insert (h : tree.ListsKnown) : (tree.insert kind path).ListsKnown := by
  intro k listed hlisted
  rw [hasDirectory_insert]
  rcases hasChild_insert.1 hlisted with hold | hnew
  · exact .inl (h k listed hold)
  · exact .inr (eq_or_mem_of_mem_links hnew)

/-- Whatever is inserted, what is listed as a directory is known under its path. -/
theorem listsKnown_insertAll (calls : List (ChildKind × String)) : (insertAll calls).ListsKnown :=
  insertAll_induction (fun _ _ h => absurd h not_hasChild_empty) fun _ _ _ => listsKnown_insert

/-! ## Trees of spaced paths -/

/-- Whether all directories of a tree are found under their keys: each is its own key. -/
def KnowsKeys (tree : MemoryTree) : Prop :=
  ∀ k, tree.HasDirectory k → key k = k

/-- The directories that insertions of `Key.Spaced` paths make are found under their keys. -/
theorem knowsKeys_insertAll (h : ∀ call ∈ calls, Key.Spaced call.2.toList) :
    (insertAll calls).KnowsKeys := by
  intro k hk
  obtain ⟨call, hcall, ⟨-, rfl⟩ | ⟨above, habove, rfl⟩⟩ := hasDirectory_insertAll.1 hk
  · simp [key]
  · rw [key, String.toList_ofList, Key.ofPath_of_mem_ancestors (h call hcall) habove]

/-- Whether everything that is listed as a directory is a directory of the tree, so that it can be
listed in turn. -/
def Descends (tree : MemoryTree) : Prop :=
  ∀ request item, .ok item ∈ tree.entries request → item.kind = .directory →
    tree.isDirectory item.path = true ∧
      ∀ kind, ∃ items : List Item, tree.entries ⟨kind, item.path⟩ = items.map .ok

/-- Whether `front` is what stands in front of a separator of a path, where more than separators
follow. -/
def IsAbove (front path : String) : Prop :=
  ∃ c back, path.toList = front.toList ++ c :: back ∧ isSeparator c = true ∧
    ∃ d ∈ back, isSeparator d = false

/-- Whether everything above a path is a directory of the tree. -/
def KnowsAbove (tree : MemoryTree) (path : String) : Prop :=
  ∀ front, IsAbove front path → tree.isDirectory front = true

/-- Where directories are known under their keys (`KnowsKeys`), what is listed as one is found. -/
theorem descends_of_knowsKeys (hlists : tree.ListsKnown) (hkeys : tree.KnowsKeys) :
    tree.Descends := by
  intro request item hitem hkind
  obtain ⟨⟨path, kind⟩, hchild, rfl, -⟩ := mem_entries_iff.1 hitem
  obtain rfl : kind = .directory := by
    cases kind with
    | directory => rfl
    | file => simp [Child.item, ChildKind.entityKind] at hkind
  have hknown := hlists _ _ hchild
  have hdirectory : tree.isDirectory path = true := by
    rw [isDirectory_iff, hkeys path hknown]
    exact hknown
  exact ⟨hdirectory, fun kind => exists_entries_of_isDirectory hdirectory⟩

/-- What is above a `Key.Spaced` path is a directory once the path has been inserted, whatever else
has been. -/
theorem knowsAbove_insertAll {call : ChildKind × String} (hcall : call ∈ calls)
    (h : Key.Spaced call.2.toList) : (insertAll calls).KnowsAbove call.2 := by
  rintro front ⟨c, back, hpath, hc, hback⟩
  rw [hpath] at h
  have hmem := Key.ofPath_mem_ancestors h hc hback
  rw [← hpath] at hmem
  exact (isDirectory_iff _ _).2 (hasDirectory_insertAll.2 ⟨call, hcall, .inr ⟨_, hmem, rfl⟩⟩)

/-- What is in front of a path has another key than the path, as a name follows. -/
theorem key_ne_of_isAbove {front : String} (h : IsAbove front path) : key front ≠ key path := by
  obtain ⟨c, back, hpath, -, hback⟩ := h
  intro heq
  have hkeys := congrArg trimEnd (String.ofList_injective heq)
  -- behind what is in front stand at least the separator and a name
  rw [Key.trimEnd_ofPath, Key.trimEnd_ofPath, hpath, List.append_cons,
    trimEnd_append_of_exists hback] at hkeys
  have hlength := congrArg List.length hkeys
  have hle := Key.length_trimEnd_le front.toList
  simp only [List.length_map, List.length_append, List.length_singleton] at hlength
  omega

/-- Where a path is not `Key.Spaced`, something above it is left out when it is inserted. -/
theorem not_knowsAbove_of_not_spaced (h : ¬ Key.Spaced path.toList) :
    ¬ (insertAll [(kind, path)]).KnowsAbove path := by
  intro hknows
  obtain ⟨front, c, back, hpath, hc, hback, hnot⟩ := Key.exists_not_mem_ancestors h
  have habove : IsAbove (String.ofList front) path := ⟨c, back, by simpa using hpath, hc, hback⟩
  have hdirectory := (isDirectory_iff _ _).1 (hknows _ habove)
  obtain ⟨_, hcall, hmade⟩ := hasDirectory_insertAll.1 hdirectory
  obtain rfl := List.mem_singleton.1 hcall
  rcases hmade with ⟨-, heq⟩ | ⟨above, hmem, heq⟩
  · exact key_ne_of_isAbove habove heq
  · rw [key, String.toList_ofList] at heq
    rw [← String.ofList_injective heq] at hmem
    exact hnot hmem

/-- Trees of `Key.Spaced` paths, and others. From what such paths have made one can go on to
everything that is listed as a directory, and everything above such a path is a directory once the
path has been inserted, whatever else has been. Above any other path something is left out. -/
theorem descends_insertAll_of_spaced (calls : List (ChildKind × String)) :
    ((∀ call ∈ calls, Key.Spaced call.2.toList) → (insertAll calls).Descends) ∧
    (∀ call ∈ calls, Key.Spaced call.2.toList → (insertAll calls).KnowsAbove call.2) ∧
    ∀ kind path, ¬ Key.Spaced path.toList → ¬ (insertAll [(kind, path)]).KnowsAbove path :=
  ⟨fun h => descends_of_knowsKeys (listsKnown_insertAll calls) (knowsKeys_insertAll h),
    fun _ hcall h => knowsAbove_insertAll hcall h, fun _ _ h => not_knowsAbove_of_not_spaced h⟩

/-- A doubled separator behind a drive is `Key.Spaced`, and `descends_insertAll_of_spaced` applies;
one behind a name is not, and something above the path is left out. -/
theorem descends_insertAll_drive :
    Key.Spaced "C:\\\\b".toList ∧ (insertAll [(.file, "C:\\\\b")]).Descends ∧
      (insertAll [(.file, "C:\\\\b")]).isDirectory "C:" = true ∧
      ¬ (insertAll [(.directory, "/a//b")]).KnowsAbove "/a//b" := by
  have hspaced : Key.Spaced "C:\\\\b".toList := by
    intro front c d e back h hc hd he
    have hchars : ['C', ':', '\\', '\\', 'b'] = front ++ c :: d :: e :: back := h
    -- the two separators stand behind the colon, since what comes before is too short or none
    rcases front with _ | ⟨x, _ | ⟨y, _ | ⟨z, front⟩⟩⟩
    · exact .inl rfl
    · obtain ⟨rfl, rfl, -⟩ : 'C' = x ∧ ':' = c ∧ _ := by simpa using hchars
      exact nomatch hc
    · obtain ⟨-, rfl, -⟩ : 'C' = x ∧ ':' = y ∧ _ := by simpa using hchars
      exact .inr rfl
    · have hlength := congrArg List.length hchars
      simp at hlength
      omega
  obtain ⟨hdescends, habove, hnot⟩ := descends_insertAll_of_spaced [(.file, "C:\\\\b")]
  refine ⟨hspaced, hdescends (by simpa using hspaced), ?_, hnot _ _ fun h => ?_⟩
  · exact habove (.file, "C:\\\\b") (by simp) hspaced _
      ⟨'\\', ['\\', 'b'], rfl, rfl, 'b', by simp, rfl⟩
  · simpa using h ['/', 'a'] '/' '/' 'b' [] rfl rfl rfl rfl

/-- The path `/a//b` makes a directory `/a/` that is listed in the root and not found, not even
without its separator. -/
theorem not_descends_of_doubled_separator :
    .ok (.directory "/a/") ∈ (insertAll [(.file, "/a//b")]).entries ⟨.directory, "/"⟩ ∧
      (insertAll [(.file, "/a//b")]).isDirectory "/a/" = false ∧
      (insertAll [(.file, "/a//b")]).isDirectory "/a" = false := by
  decide +kernel

end MemoryTree

end PathPatterns
