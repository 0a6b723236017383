import PathPatterns.Proofs.Enumeration.Results

/-!
# The results of joined globs

A glob that is joined of others yields the entries of the first, then those of the second, and so
on. Its results are those of the others, one after the other, where each result counts where it
comes first and nothing counts behind a failure: paths that are left out of the results of one glob
alone are left out of the joined results anyway.

## Main results

* `upToFailure_eraseDups`: it does not matter whether repeats are left out before what stands behind
  a failure, or after it.
* `distinctUpToFailure_flatten`: nor does it matter if both have been left out of the parts.
* `completes_join`: the results of joined globs are made of the results of each.
-/

namespace PathPatterns

/-! ## Failures -/

section UpToFailure

variable {α : Type}

/-- What `upToFailure` leaves has nothing behind a failure to lose. -/
@[simp]
theorem upToFailure_upToFailure (results : List (Except ListingError α)) :
    upToFailure (upToFailure results) = upToFailure results := by
  induction results with
  | nil => rfl
  | cons result results ih =>
    cases result with
    | error failure => rfl
    | ok a => rw [upToFailure, upToFailure, ih]

/-- By `upToFailure`, what stands behind a failure may be left out of two parts before they are put
together. -/
theorem upToFailure_append_upToFailure (front back : List (Except ListingError α)) :
    upToFailure (upToFailure front ++ upToFailure back) = upToFailure (front ++ back) := by
  induction front with
  | nil => exact upToFailure_upToFailure back
  | cons result front ih =>
    cases result with
    | error failure => rfl
    | ok a => rw [upToFailure, List.cons_append, List.cons_append, upToFailure, upToFailure, ih]

/-- Results that `p` leaves out and that are no failures do not matter to the others. -/
theorem upToFailure_filter {p : Except ListingError α → Bool}
    (h : ∀ failure, p (.error failure) = true) (results : List (Except ListingError α)) :
    upToFailure (results.filter p) = (upToFailure results).filter p := by
  induction results with
  | nil => rfl
  | cons result results ih =>
    cases result with
    | error failure => simp [upToFailure, h]
    | ok a =>
      cases hkeep : p (.ok a) with
      | true => simp [upToFailure, hkeep, ih]
      | false => simp [upToFailure, hkeep, ih]

/-- `List.eraseDups` may leave repeats out before or after `upToFailure` leaves out what stands
behind a failure. -/
theorem upToFailure_eraseDups [DecidableEq α] (results : List (Except ListingError α)) :
    upToFailure results.eraseDups = (upToFailure results).eraseDups := by
  induction results using eraseDups_induction with
  | nil => rfl
  | cons result results ih =>
    cases result with
    | error failure => simp [upToFailure, List.eraseDups_cons]
    | ok a =>
      rw [List.eraseDups_cons, upToFailure, upToFailure, List.eraseDups_cons, ih,
        upToFailure_filter]
      simp

end UpToFailure

namespace EntityKind

/-- What entries contribute by `result?` up to a failure is what those up to the failure
contribute. -/
theorem upToFailure_filterMap (kind : EntityKind) (entries : List Entry) :
    upToFailure (entries.filterMap kind.result?) =
      (upToFailure entries).filterMap kind.result? := by
  induction entries with
  | nil => rfl
  | cons entry entries ih =>
    cases entry with
    | error failure => rfl
    | ok item =>
      cases haccepts : kind.accepts item.kind with
      | true => simp [upToFailure, result?, haccepts, ih]
      | false => simp [upToFailure, result?, haccepts, ih]

end EntityKind

/-! ## Results of several globs -/

/-- The elements of a list up to its first failure, each where it comes first. -/
def distinctUpToFailure {α : Type} [DecidableEq α] (results : List (Except ListingError α)) :
    List (Except ListingError α) :=
  upToFailure results.eraseDups

section Distinct

variable {α : Type} [DecidableEq α]

@[simp]
theorem distinctUpToFailure_nil :
    distinctUpToFailure ([] : List (Except ListingError α)) = [] := rfl

/-- By `distinctUpToFailure`, repeats and what stands behind a failure may be left out of two parts
before they are put together. -/
theorem distinctUpToFailure_append (front back : List (Except ListingError α)) :
    distinctUpToFailure (distinctUpToFailure front ++ distinctUpToFailure back) =
      distinctUpToFailure (front ++ back) := by
  calc distinctUpToFailure (distinctUpToFailure front ++ distinctUpToFailure back)
    _ = (upToFailure (upToFailure front.eraseDups ++ upToFailure back.eraseDups)).eraseDups :=
      upToFailure_eraseDups _
    _ = upToFailure (front.eraseDups ++ back.eraseDups).eraseDups := by
      rw [upToFailure_append_upToFailure, upToFailure_eraseDups]
    _ = distinctUpToFailure (front ++ back) := by
      rw [eraseDups_append_eraseDups]
      rfl

/-- What `distinctUpToFailure` leaves has no repeats and nothing behind a failure. -/
theorem distinctUpToFailure_distinctUpToFailure (results : List (Except ListingError α)) :
    distinctUpToFailure (distinctUpToFailure results) = distinctUpToFailure results := by
  simpa using distinctUpToFailure_append results []

/-- By `distinctUpToFailure`, repeats and what stands behind a failure may be left out of all parts
before these are put together. -/
theorem distinctUpToFailure_flatten (parts : List (List (Except ListingError α))) :
    distinctUpToFailure (parts.map distinctUpToFailure).flatten =
      distinctUpToFailure parts.flatten := by
  induction parts with
  | nil => rfl
  | cons part parts ih =>
    rw [List.map_cons, List.flatten_cons, List.flatten_cons, ← distinctUpToFailure_append,
      distinctUpToFailure_distinctUpToFailure, ih, distinctUpToFailure_append]

/-- Parts that are all equal to `part` add nothing to it. -/
theorem distinctUpToFailure_flatten_of_forall_eq {part : List (Except ListingError α)}
    {parts : List (List (Except ListingError α))} (hne : parts ≠ [])
    (h : ∀ other ∈ parts, other = part) :
    distinctUpToFailure parts.flatten = distinctUpToFailure part := by
  obtain ⟨first, rest, rfl⟩ := List.exists_cons_of_ne_nil hne
  obtain ⟨rfl, hrest⟩ := List.forall_mem_cons.1 h
  have hsubset : rest.flatten ⊆ first := by
    intro result hresult
    obtain ⟨other, hother, hmem⟩ := List.mem_flatten.1 hresult
    rwa [hrest other hother] at hmem
  rw [distinctUpToFailure, List.flatten_cons, eraseDups_append_of_subset hsubset]
  rfl

end Distinct

namespace Enumeration

/-- `resultsOf` entries are what each of them contributes, up to a failure and without repeats. -/
theorem resultsOf_eq (kind : EntityKind) (entries : List Entry) :
    resultsOf kind entries = distinctUpToFailure (entries.filterMap kind.result?) := by
  rw [distinctUpToFailure, upToFailure_eraseDups, EntityKind.upToFailure_filterMap]
  rfl

/-- `resultsOf` entries that come one part after the other are made of those of each part. -/
theorem resultsOf_flatten (kind : EntityKind) (parts : List (List Entry)) :
    resultsOf kind parts.flatten = distinctUpToFailure (parts.map (resultsOf kind)).flatten := by
  have hmap : parts.map (resultsOf kind) =
      (parts.map (List.filterMap kind.result?)).map distinctUpToFailure := by
    rw [List.map_map]
    exact List.map_congr_left fun entries _ => resultsOf_eq kind entries
  rw [hmap, distinctUpToFailure_flatten, resultsOf_eq, List.filterMap_flatten]

variable {lister : Lister} {glob : Glob} {kind : EntityKind} {bases : List String}
  {entries : List Entry}

/-- A glob whose stream comes to its end (`Drains`) has a complete run with the results of its
entries. -/
theorem completes_enumerate (h : (glob.enumerate kind bases).stream.Drains lister entries) :
    Completes lister (glob.enumerate kind bases) (resultsOf kind entries) := by
  rw [← resultsFrom_enumerate]
  exact completes_of_drains h

/-- A `join` of globs whose streams come to their ends has the results of each, one after the other,
up to the first failure and without repeats. -/
theorem completes_join {answer : Request → Listing}
    (hlister : ∀ earlier request, lister.answer earlier request = answer request)
    {globs : List Glob} {parts : List (List Entry)}
    (h : List.Forall₂ (fun glob entries =>
      (glob.enumerate kind bases).stream.Drains lister entries) globs parts) :
    Completes lister ((Glob.join globs).enumerate kind bases)
      (distinctUpToFailure (parts.map (resultsOf kind)).flatten) := by
  have hgroups : List.Forall₂ (fun group entries => Stream.Drains lister ⟨group, []⟩ entries)
      (globs.map fun glob => glob.alternatives.map (·.pipeline bases)) parts :=
    List.forall₂_map_left_iff.2 h
  have hstream : ((Glob.join globs).enumerate kind bases).stream =
      ⟨(globs.map fun glob => glob.alternatives.map (·.pipeline bases)).flatten, []⟩ := by
    rw [Glob.enumerate, Glob.join, List.map_flatMap, List.flatMap]
  rw [← resultsOf_flatten]
  apply completes_enumerate
  rw [hstream]
  exact Stream.drains_flatten hlister hgroups

end Enumeration

end PathPatterns
