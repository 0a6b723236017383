import PathPatterns.Proofs.Enumeration.Outcome.Alike
import PathPatterns.Proofs.MemoryTree.Finite

/-!
# Separators at the end of a base

A tree looks a directory up under its key, and separators at the end of a path do not matter for the
key. So a base may be written with any of them at its end. The base itself is yielded as it is
written, and a failure to find it repeats it in its message; entries do not show it.

## Main results

* `aliases_trailed`: paths that differ in the separators at their ends are listed alike.
* `completes_trailed`: an enumeration that looks for entries below its bases gives the same
  results, however these are written.
-/

namespace PathPatterns

namespace Path

/-- A path goes on behind another one with nothing but separators, unless that one has nothing but
separators itself. -/
def Trailed (path other : String) : Prop :=
  ∃ separators : List Char, (∀ c ∈ separators, isSeparator c = true) ∧
    other.toList = path.toList ++ separators ∧
    (separators ≠ [] → ∃ c ∈ path.toList, isSeparator c = false)

theorem Trailed.refl (path : String) : Trailed path path :=
  ⟨[], by simp, by simp, by simp⟩

/-- A path with another character than separators is no root. -/
theorem isRoot_eq_false_of_mem {path : String} {c : Char} (hmem : c ∈ path.toList)
    (hc : isSeparator c = false) : isRoot path = false := by
  unfold isRoot
  split
  · rename_i d heq
    rw [heq, List.mem_singleton] at hmem
    rwa [← hmem]
  · rfl

end Path

namespace MemoryTree

open PathPatterns.Path Outcome

/-- Separators at the end do not matter for the key of a path, so `Trailed` paths have one key. -/
theorem key_of_trailed {path other : String} (h : Trailed path other) : key other = key path := by
  obtain ⟨separators, hseparators, hother, -⟩ := h
  rw [key, hother, Key.ofPath_append_of_forall hseparators]
  rfl

/-- `Trailed` paths are listed alike: with the same entries, or with failures of the same kind. -/
theorem aliases_trailed (tree : MemoryTree) (limit : Nat) :
    Aliases tree.listing limit Trailed where
  refl := .refl
  isRoot_eq path other h := by
    obtain ⟨separators, -, hother, hname⟩ := h
    by_cases hnil : separators = []
    · rw [isRoot, isRoot, hother, hnil, List.append_nil]
    · obtain ⟨c, hmem, hc⟩ := hname hnil
      rw [isRoot_eq_false_of_mem hmem hc,
        isRoot_eq_false_of_mem (by rw [hother]; exact List.mem_append_left _ hmem) hc]
  listed kind path other h := by
    simp only [listing, entries, key_of_trailed h]
    cases tree.directories[key path]? with
    | some children => exact .refl (fun _ => rfl) _
    | none =>
      -- the messages differ, as they show the path
      cases limit with
      | zero => exact .refl (fun _ => rfl) _
      | succ limit => exact ⟨.nil, rfl⟩

/-- Where a glob looks for entries below its bases, or does not look at them, separators at their
ends do not matter. If the bases are `Trailed`, and every alternative with segments has one that
`yieldsEntries`, the enumerations of the bases and of the others have results that are `AlikeResult`
one by one: the same paths in the same order, and the same kind of failure at the same place. -/
theorem completes_trailed (calls : List (ChildKind × String)) (glob : Glob) (kind : EntityKind)
    {bases others : List String} (hbases : List.Forall₂ Trailed bases others)
    (hentries : ∀ segments, .steps segments ∈ glob.alternatives →
      ∃ segment ∈ segments, segment.yieldsEntries) :
    ∃ results otherResults,
      Enumeration.Completes (insertAll calls).lister (glob.enumerate kind bases) results ∧
      Enumeration.Completes (insertAll calls).lister (glob.enumerate kind others) otherResults ∧
      List.Forall₂ AlikeResult results otherResults := by
  have hlister : ∀ earlier request,
      (insertAll calls).lister.answer earlier request = (insertAll calls).listing request :=
    fun _ _ => rfl
  obtain ⟨results, hcompletes, -⟩ := advances_in_insertAll calls glob kind bases
  obtain ⟨n, hended, hresults⟩ := (Enumeration.completes_iff hlister).1 hcompletes
  -- to look as far is enough for the other bases
  have halike :=
    (aliases_trailed (insertAll calls) n).alike_glob_outcome n hbases hentries
  refine ⟨results, _, hcompletes, (Enumeration.completes_iff hlister).2 ⟨n, ?_, rfl⟩, ?_⟩
  · exact halike.ended_iff.1 hended
  · rw [hresults]
    exact Enumeration.forall₂_resultsOf halike kind

/-- All files, at any depth. -/
def allFiles : Glob where
  text := "**/*"
  alternatives := [.steps [.recursive, .component ⟨"*", [.anyRun]⟩]]

/-- The hypotheses of `completes_trailed` hold of a base that is there and of one that is missing:
their enumerations have the file and then the same kind of failure, whichever separators end the
bases. -/
theorem completes_trailed_missing :
    List.Forall₂ Trailed ["/w", "/gone"] ["/w\\/", "/gone/"] ∧
    (∃ last, Enumeration.Run (insertAll [(.file, "/w/a")]).lister
      (allFiles.enumerate .file ["/w", "/gone"]) [.ok "/w/a"] last) ∧
    ∃ results otherResults,
      Enumeration.Completes (insertAll [(.file, "/w/a")]).lister
        (allFiles.enumerate .file ["/w", "/gone"]) results ∧
      Enumeration.Completes (insertAll [(.file, "/w/a")]).lister
        (allFiles.enumerate .file ["/w\\/", "/gone/"]) otherResults ∧
      List.Forall₂ AlikeResult results otherResults := by
  have hbases : List.Forall₂ Trailed ["/w", "/gone"] ["/w\\/", "/gone/"] :=
    .cons ⟨['\\', '/'], by simp [isSeparator], rfl, fun _ => ⟨'w', by simp [isSeparator]⟩⟩
      (.cons ⟨['/'], by simp [isSeparator], rfl, fun _ => ⟨'g', by simp [isSeparator]⟩⟩ .nil)
  have hyielded : yielded? ((allFiles.enumerate .file ["/w", "/gone"]).advance
      (insertAll [(.file, "/w/a")]).lister 20) = some "/w/a" := by
    decide +kernel
  refine ⟨hbases, exists_run_of_yielded? hyielded, ?_⟩
  refine completes_trailed [(.file, "/w/a")] allFiles .file hbases fun segments hmem => ?_
  obtain rfl : segments = _ := by simpa [allFiles] using hmem
  exact ⟨.component ⟨"*", [.anyRun]⟩, by simp, rfl⟩

end MemoryTree

end PathPatterns
