import PathPatterns.Proofs.Enumeration.Union
import PathPatterns.Proofs.Matching.Basic
import PathPatterns.Proofs.Registry.Coherent

/-!
# Unions

Where no operand is the universal glob, a union matches what any operand matches, and gives the
results of the operands one after the other: each result where it comes first, and nothing behind a
failure. That holds as well where all operands share an instance, which then is the union: its
results are the same each time, so that only the first ones count.

## Main results

* `combine_glob_cases`: a union has the alternatives of all operands, or is the same as each.
* `isMatch_combine_iff`: a union matches what one of its operands matches.
* `union_of_operands`: both, for matching and for enumerating.
-/

namespace PathPatterns

open Registry

/-- The `join` of well-formed globs matches what one of them matches, if all expressions compile. -/
theorem Glob.isMatch_join_iff {globs : List Glob} (hne : globs ≠ [])
    (h : ∀ glob ∈ globs, glob.WellFormed ∧ glob.uncheckedRegex.compiles = true)
    (hcompiles : (join globs).uncheckedRegex.compiles = true) {path : String} :
    (join globs).isMatch path = true ↔ ∃ glob ∈ globs, glob.isMatch path = true := by
  rw [isMatch_iff_exists_fits (wellFormed_join hne fun glob hglob => (h glob hglob).1) hcompiles]
  have hglobs : ∀ glob ∈ globs, glob.isMatch path = true ↔
      ∃ alternative ∈ glob.alternatives, alternative.Fits path :=
    fun glob hglob => isMatch_iff_exists_fits (h glob hglob).1 (h glob hglob).2
  simp only [join, List.mem_flatMap]
  refine ⟨?_, ?_⟩
  · rintro ⟨alternative, ⟨glob, hglob, hmem⟩, hfits⟩
    exact ⟨glob, hglob, (hglobs glob hglob).2 ⟨alternative, hmem, hfits⟩⟩
  · rintro ⟨glob, hglob, hmatch⟩
    obtain ⟨alternative, hmem, hfits⟩ := (hglobs glob hglob).1 hmatch
    exact ⟨alternative, ⟨glob, hglob, hmem⟩, hfits⟩

namespace Handle

section Operands

variable {registry : Registry} {operands : List Handle} (harises : Arises registry)
  (hne : operands ≠ [])
  (hheld : ∀ operand ∈ operands, ∃ slot, registry.get? slot = some operand)
  (hproper : ∀ operand ∈ operands, operand.glob.isAnything = false)

include harises hne hheld hproper

/-- Without an operand that `isAnything`, a union has the alternatives of all operands, or all of
them lead to its instance and so hold its glob. -/
theorem combine_glob_cases (fresh : Identity) :
    (combine fresh operands).glob = .join (operands.map Handle.glob) ∨
      ∀ operand ∈ operands, operand.glob = (combine fresh operands).glob := by
  obtain ⟨first, rest, rfl⟩ := List.exists_cons_of_ne_nil hne
  have hany : ¬ ((first :: rest).any fun operand => operand.glob.isAnything) = true := by
    simpa using hproper
  rw [combine, if_neg hany]
  split
  · rename_i hshared
    refine .inr fun operand hmem => ?_
    obtain ⟨slot, hslot⟩ := hheld operand hmem
    obtain ⟨other, hother⟩ := hheld first (by simp)
    exact (harises.glob_eq_of_same hother hslot (List.all_eq_true.1 hshared operand hmem)).symm
  · exact .inl rfl

/-- A union matches what one of its operands matches, if the expression of each operand
(`hoperands`) and that of the union (`hunion`) compile. -/
theorem isMatch_combine_iff (fresh : Identity)
    (hoperands : ∀ operand ∈ operands, operand.glob.uncheckedRegex.compiles = true)
    (hunion : (combine fresh operands).glob.uncheckedRegex.compiles = true) (path : String) :
    (combine fresh operands).glob.isMatch path = true ↔
      ∃ operand ∈ operands, operand.glob.isMatch path = true := by
  obtain hjoin | hsame := combine_glob_cases harises hne hheld hproper fresh
  · rw [hjoin] at hunion ⊢
    rw [Glob.isMatch_join_iff (by simpa using hne) ?_ hunion]
    · simp
    · intro glob hglob
      obtain ⟨operand, hmem, rfl⟩ := List.mem_map.1 hglob
      obtain ⟨slot, hslot⟩ := hheld operand hmem
      exact ⟨harises.wellFormed hslot, hoperands operand hmem⟩
  · refine ⟨fun hmatch => ?_, ?_⟩
    · obtain ⟨first, hfirst⟩ := List.exists_mem_of_ne_nil operands hne
      exact ⟨first, hfirst, by rwa [hsame first hfirst]⟩
    · rintro ⟨operand, hmem, hmatch⟩
      rwa [← hsame operand hmem]

/-- If `Drains` gives the entries of each operand, the results of the union are those of its
operands one after the other, up to the first failure and without repeats. In the union an operand
gets the answers that it gets by itself, since by `hlister` these depend on the request alone. -/
theorem completes_combine (fresh : Identity) {answer : Request → Listing} {lister : Lister}
    (hlister : ∀ earlier request, lister.answer earlier request = answer request)
    {kind : EntityKind} {bases : List String} {entries : Handle → List Entry}
    (hdrains : ∀ operand ∈ operands,
      (operand.glob.enumerate kind bases).stream.Drains lister (entries operand)) :
    Enumeration.Completes lister ((combine fresh operands).glob.enumerate kind bases)
      (distinctUpToFailure
        (operands.map fun operand => Enumeration.resultsOf kind (entries operand)).flatten) := by
  obtain hjoin | hsame := combine_glob_cases harises hne hheld hproper fresh
  · have hparts : List.Forall₂ (fun glob part =>
        (glob.enumerate kind bases).stream.Drains lister part)
        (operands.map Handle.glob) (operands.map entries) := by
      rw [List.forall₂_map_left_iff, List.forall₂_map_right_iff, List.forall₂_same]
      exact hdrains
    have hall := Enumeration.completes_join hlister hparts
    rw [List.map_map] at hall
    rw [hjoin]
    exact hall
  · -- all operands have the results of the first
    obtain ⟨first, hfirst⟩ := List.exists_mem_of_ne_nil operands hne
    have hcompletes := Enumeration.completes_enumerate (hdrains first hfirst)
    have hown : ∀ own ∈ operands.map fun operand => Enumeration.resultsOf kind (entries operand),
        own = Enumeration.resultsOf kind (entries first) := by
      intro own hmem
      obtain ⟨operand, hoperand, rfl⟩ := List.mem_map.1 hmem
      have hother := Enumeration.completes_enumerate (hdrains operand hoperand)
      rw [hsame operand hoperand, ← hsame first hfirst] at hother
      exact hother.unique hcompletes
    rw [distinctUpToFailure_flatten_of_forall_eq (by simpa using hne) hown,
      Enumeration.resultsOf_eq, distinctUpToFailure_distinctUpToFailure,
      ← Enumeration.resultsOf_eq, ← hsame first hfirst]
    exact hcompletes

end Operands

/-- The union of handles of which none `isAnything`. It matches what an operand matches, if the
expressions compile. Where the streams of all operands come to their ends (`Drains`), for a lister
whose listings depend on the request alone, its results are those of the operands put together,
without repeats and up to the first failure. -/
theorem union_of_operands {registry : Registry} (harises : Arises registry)
    {operands : List Handle} (hne : operands ≠ [])
    (hheld : ∀ operand ∈ operands, ∃ slot, registry.get? slot = some operand)
    (hproper : ∀ operand ∈ operands, operand.glob.isAnything = false) (fresh : Identity) :
    ((∀ operand ∈ operands, operand.glob.uncheckedRegex.compiles = true) →
      (combine fresh operands).glob.uncheckedRegex.compiles = true →
      ∀ path, (combine fresh operands).glob.isMatch path = true ↔
        ∃ operand ∈ operands, operand.glob.isMatch path = true) ∧
    ∀ (answer : Request → Listing) (lister : Lister),
      (∀ earlier request, lister.answer earlier request = answer request) →
      ∀ (kind : EntityKind) (bases : List String),
        (∀ operand ∈ operands, ∃ entries,
          (operand.glob.enumerate kind bases).stream.Drains lister entries) →
        ∃ results : Handle → List (Except ListingError String),
          (∀ operand ∈ operands, ∀ own,
            Enumeration.Completes lister (operand.glob.enumerate kind bases) own ↔
              own = results operand) ∧
          ∀ all, Enumeration.Completes lister ((combine fresh operands).glob.enumerate kind bases)
              all ↔
            all = upToFailure (operands.map results).flatten.eraseDups := by
  refine ⟨isMatch_combine_iff harises hne hheld hproper fresh, ?_⟩
  -- the results of an operand are those of the entries that its stream drains to
  intro answer lister hlister kind bases hdrains
  choose! entries hentries using hdrains
  refine ⟨fun operand => Enumeration.resultsOf kind (entries operand), ?_, ?_⟩
  · intro operand hmem own
    have hcompletes := Enumeration.completes_enumerate (hentries operand hmem)
    exact ⟨fun hown => hown.unique hcompletes, fun heq => heq ▸ hcompletes⟩
  · intro all
    have hcompletes := completes_combine harises hne hheld hproper fresh hlister hentries
    exact ⟨fun hall => hall.unique hcompletes, fun heq => heq ▸ hcompletes⟩

/-- The entities whose name ends in `.cs`. -/
def csharpSources : Handle where
  identity := .created 0
  glob.text := "*.cs"
  glob.alternatives := [.steps [.component ⟨"*.cs", [.anyRun, .char '.', .char 'c', .char 's']⟩]]

/-- The entities whose name ends in `.vb`. -/
def basicSources : Handle where
  identity := .created 1
  glob.text := "*.vb"
  glob.alternatives := [.steps [.component ⟨"*.vb", [.anyRun, .char '.', .char 'v', .char 'b']⟩]]

/-- A registry of both. -/
def sourceRegistry : Registry :=
  (Registry.empty.issue "cs" csharpSources).issue "vb" basicSources

/-- A lister that lists one of each, in any directory. -/
def sourceLister : Lister :=
  .ofFunction fun _ => [.ok (.file "/p/a.cs"), .ok (.file "/p/b.vb")]

/-- The hypotheses of `union_of_operands` hold of `csharpSources` and `basicSources` in
`sourceRegistry`: their union matches `b.vb` and enumerates each of the two paths once. -/
theorem union_of_sources :
    Arises sourceRegistry ∧ sourceRegistry.get? "cs" = some csharpSources ∧
      sourceRegistry.get? "vb" = some basicSources ∧
      (combine (.created 2) [csharpSources, basicSources, csharpSources]).glob.isMatch "b.vb" =
        true ∧
      Enumeration.Completes sourceLister
        ((combine (.created 2) [csharpSources, basicSources, csharpSources]).glob.enumerate .file
          ["/p"])
        [.ok "/p/a.cs", .ok "/p/b.vb"] := by
  have hcsharp : Glob.parse .empty "*.cs" = .ok csharpSources.glob := by decide +kernel
  have hbasic : Glob.parse .empty "*.vb" = .ok basicSources.glob := by decide +kernel
  have harises : Arises sourceRegistry :=
    ((Reachable.issue .empty "cs" hcsharp).issue "vb" hbasic).arises
  have hfirst : sourceRegistry.get? "cs" = some csharpSources := by
    simp [sourceRegistry, get?_issue]
  have hsecond : sourceRegistry.get? "vb" = some basicSources := by
    simp [sourceRegistry, get?_issue]
  have hheld : ∀ operand ∈ [csharpSources, basicSources, csharpSources],
      ∃ slot, sourceRegistry.get? slot = some operand := by
    simp only [List.forall_mem_cons]
    exact ⟨⟨_, hfirst⟩, ⟨_, hsecond⟩, ⟨_, hfirst⟩, by simp⟩
  obtain ⟨hmatch, hresults⟩ := union_of_operands harises (List.cons_ne_nil _ _) hheld
    (by decide) (.created 2)
  refine ⟨harises, hfirst, hsecond, ?_, ?_⟩
  · refine (hmatch ?_ (by decide +kernel) "b.vb").2 ⟨basicSources, by simp, by decide +kernel⟩
    simp only [List.forall_mem_cons]
    exact ⟨by decide +kernel, by decide +kernel, by decide +kernel, by simp⟩
  · have hcs : (csharpSources.glob.enumerate .file ["/p"]).stream.Drains sourceLister
        [.ok (.file "/p/a.cs")] :=
      ⟨_, .working rfl (.entry rfl (.working rfl (.working rfl (.refl _))))⟩
    have hvb : (basicSources.glob.enumerate .file ["/p"]).stream.Drains sourceLister
        [.ok (.file "/p/b.vb")] :=
      ⟨_, .working rfl (.working rfl (.entry rfl (.working rfl (.refl _))))⟩
    -- what each operand gives alone is computed, and `hall` puts it together
    obtain ⟨results, hown, hall⟩ := hresults _ sourceLister (fun _ _ => rfl) .file ["/p"] (by
      simp only [List.forall_mem_cons]
      exact ⟨⟨_, hcs⟩, ⟨_, hvb⟩, ⟨_, hcs⟩, by simp⟩)
    have hcsResults := (hown _ (by simp) _).1 (Enumeration.completes_enumerate hcs)
    have hvbResults := (hown _ (by simp) _).1 (Enumeration.completes_enumerate hvb)
    rw [hall, List.map_cons, List.map_cons, List.map_singleton, ← hcsResults, ← hvbResults]
    rfl

end Handle

end PathPatterns
