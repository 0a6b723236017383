import PathPatterns.Proofs.Enumeration.Outcome.Results
import PathPatterns.Proofs.Enumeration.Union

/-!
# Repeats

A directory that comes to a stage again brings what it brought before, and a failure that it brings
has come before it. So a repeat changes neither the order in which new items come nor the first
failure, whatever stages stand behind it, and the last stage forgets how often an item came.

## Main definitions

* `Outcome.distinct`: the items of an outcome, each where it comes first.

## Main results

* `distinct_each_eraseDups`: what stands for a repeat does not matter.
* `Segment.distinct_outcome_congr`: stages, walks among them, forget repeats.
* `results_eraseDups_iff`: a base or an alternative that is written again changes no results.
-/

namespace PathPatterns

namespace Outcome

variable {α β : Type} {a : α} {as bs : List α} {front back front' back' : Outcome α}
  {f g : α → Outcome β}

/-- An outcome brings nothing new behind another one, if this is complete. -/
def Absorbs (front back : Outcome α) : Prop :=
  front.ending = .complete → back.ending = .complete ∧ back.items ⊆ front.items

theorem Absorbs.refl (outcome : Outcome α) : Absorbs outcome outcome :=
  fun h => ⟨h, List.Subset.refl _⟩

/-- What brings nothing new behind `front` does not so behind a longer outcome. -/
theorem Absorbs.append (h : Absorbs front back) (others : Outcome α) :
    Absorbs (front ++ others) back := by
  by_cases hfront : front.ending = .complete
  · obtain ⟨hback, hsubset⟩ := h hfront
    rw [append_of_complete hfront]
    exact fun _ => ⟨hback, List.subset_append_of_subset_left _ hsubset⟩
  · rw [append_of_not_complete hfront]
    exact h

section Distinct

variable [BEq α] [LawfulBEq α]

/-- The items of an outcome, each where it comes first, up to the same ending. -/
def distinct (outcome : Outcome α) : Outcome α :=
  ⟨outcome.items.eraseDups, outcome.ending⟩

/-- Repeats may be left out of two outcomes before they are put together, by `distinct`. -/
theorem distinct_append (front back : Outcome α) :
    (front.distinct ++ back.distinct).distinct = (front ++ back).distinct := by
  obtain ⟨items, ending⟩ := front
  cases ending with
  | complete =>
    exact congrArg (Outcome.mk · back.ending) (eraseDups_append_eraseDups items back.items)
  | _ => exact congrArg (Outcome.mk · _) (eraseDups_eq_self (nodup_eraseDups items))

/-- Outcomes that are the same but for repeats may stand for each other where two are put
together. -/
theorem distinct_append_congr (hfront : front.distinct = front'.distinct)
    (hback : back.distinct = back'.distinct) :
    (front ++ back).distinct = (front' ++ back').distinct := by
  rw [← distinct_append, hfront, hback, distinct_append]

/-- Where `front` absorbs `back`, this may be left out between `front` and others. -/
theorem Absorbs.distinct_append (h : Absorbs front back) (others : Outcome α) :
    (front ++ (back ++ others)).distinct = (front ++ others).distinct := by
  by_cases hfront : front.ending = .complete
  · obtain ⟨hback, hsubset⟩ := h hfront
    rw [append_of_complete hfront, append_of_complete hfront, append_of_complete hback]
    simp only [distinct]
    rw [← List.append_assoc, ← eraseDups_append_eraseDups, eraseDups_append_of_subset hsubset,
      eraseDups_append_eraseDups]
  · rw [append_of_not_complete hfront, append_of_not_complete hfront]

/-- What `each` puts together for some elements is the same but for repeats if it is so for each
element. -/
theorem distinct_each_congr {f g : β → Outcome α} {bs : List β}
    (h : ∀ b ∈ bs, (f b).distinct = (g b).distinct) :
    (each f bs).distinct = (each g bs).distinct := by
  induction bs with
  | nil => rfl
  | cons b bs ih =>
    obtain ⟨hfirst, hothers⟩ := List.forall_mem_cons.1 h
    exact distinct_append_congr hfirst (ih hothers)

variable [BEq β] [LawfulBEq β]

/-- What stands for an element `a` may be left out everywhere behind a `front` that absorbs it. -/
theorem distinct_append_each_filter {front : Outcome β} (h : Absorbs front (f a)) (as : List α) :
    (front ++ each f (as.filter fun b => !b == a)).distinct = (front ++ each f as).distinct := by
  -- what has been before stays there while other elements follow it
  induction as generalizing front with
  | nil => rfl
  | cons b as ih =>
    by_cases hb : b = a
    · rw [List.filter_cons_of_neg (by simp [hb]), ih h, hb, each_cons, h.distinct_append]
    · rw [List.filter_cons_of_pos (by simp [hb]), each_cons, each_cons, ← append_assoc,
        ← append_assoc, ih (h.append (f b))]

/-- `List.eraseDups` may leave repeats out of the elements: what stands for a repeat does not
matter. -/
theorem distinct_each_eraseDups (f : α → Outcome β) (as : List α) :
    (each f as.eraseDups).distinct = (each f as).distinct := by
  induction as using eraseDups_induction with
  | nil => rfl
  | cons a as ih =>
    calc (each f (a :: as).eraseDups).distinct
      _ = (f a ++ each f (as.filter fun b => !b == a).eraseDups).distinct := by
        rw [List.eraseDups_cons, each_cons]
      _ = (f a ++ each f (as.filter fun b => !b == a)).distinct := distinct_append_congr rfl ih
      _ = (f a ++ each f as).distinct := distinct_append_each_filter (.refl (f a)) as

/-- What `each` puts together for lists with the same elements, but for repeats, is the same but for
repeats. -/
theorem distinct_each_of_eraseDups_eq (h : as.eraseDups = bs.eraseDups) (f : α → Outcome β) :
    (each f as).distinct = (each f bs).distinct := by
  rw [← distinct_each_eraseDups, h, distinct_each_eraseDups]

theorem eraseDups_flatMap_congr (h : as.eraseDups = bs.eraseDups) (f : α → List β) :
    (as.flatMap f).eraseDups = (bs.flatMap f).eraseDups := by
  have heach := distinct_each_of_eraseDups_eq h fun a => complete (f a)
  rw [each_complete, each_complete] at heach
  exact congrArg Outcome.items heach

theorem distinct_bind_congr (h : front.distinct = back.distinct) (f : α → Outcome β) :
    (front.bind f).distinct = (back.bind f).distinct := by
  obtain ⟨hitems, hending⟩ := Outcome.mk.inj h
  rw [bind, bind, hending]
  exact distinct_append_congr (distinct_each_of_eraseDups_eq hitems f) rfl

/-- `filter` forgets repeats, as it keeps equal items or drops them together. -/
theorem distinct_filter_congr (h : front.distinct = back.distinct) (keep : α → Bool) :
    (front.filter keep).distinct = (back.filter keep).distinct := by
  obtain ⟨hitems, hending⟩ := Outcome.mk.inj h
  simp only [filter, distinct, eraseDups_filter, hitems, hending]

end Distinct

end Outcome

open Outcome

variable {answer : Request → Listing} {limit : Nat} {paths others : List String}
  {front back : Outcome Item}

/-- The paths of the directories among some items, item by item. -/
theorem Item.directories_eq_flatMap (items : List Item) :
    Item.directories items =
      items.flatMap fun item => if item.isDirectory then [item.path] else [] := by
  induction items with
  | nil => rfl
  | cons item items ih =>
    rw [List.flatMap_cons, ← ih, directories]
    cases hdir : item.isDirectory with
    | true => rw [List.filter_cons_of_pos hdir]; rfl
    | false => rw [List.filter_cons_of_neg (by simp [hdir])]; rfl

/-- A `walk` forgets repeats: the directories in a directory come again on the next level, with all
that is below. -/
theorem distinct_walk_congr (h : paths.eraseDups = others.eraseDups) (depth : Nat) :
    (walk answer limit depth paths).distinct = (walk answer limit depth others).distinct := by
  induction depth generalizing paths others with
  | zero => exact distinct_each_of_eraseDups_eq h _
  | succ depth ih =>
    exact distinct_append_congr (distinct_each_of_eraseDups_eq h _)
      (ih (eraseDups_flatMap_congr h _))

/-- The stage of a segment forgets repeats in the outcome in front of it, whichever `segment` it
is. -/
theorem Segment.distinct_outcome_congr (h : front.distinct = back.distinct) (depth : Nat)
    (segment : Segment) : (segment.outcome answer limit depth front).distinct =
      (segment.outcome answer limit depth back).distinct := by
  cases segment with
  | root => exact distinct_filter_congr h _
  | device letter => exact distinct_append_congr h rfl
  | component c => exact distinct_filter_congr (distinct_bind_congr h _) _
  | anyDirectory => exact distinct_bind_congr h _
  | recursive =>
    obtain ⟨hitems, hending⟩ := Outcome.mk.inj h
    simp only [outcome, hending, Item.directories_eq_flatMap]
    exact distinct_append_congr rfl (distinct_walk_congr (eraseDups_flatMap_congr hitems _) depth)

/-- Stages one after the other forget repeats, by `Segment.distinct_outcome_congr` and induction on
the segments. -/
theorem distinct_foldl_outcome_congr (h : front.distinct = back.distinct) (depth : Nat)
    (segments : List Segment) :
    (segments.foldl (Segment.outcome answer limit depth) front).distinct =
      (segments.foldl (Segment.outcome answer limit depth) back).distinct := by
  induction segments generalizing front back with
  | nil => exact h
  | cons segment segments ih => exact ih (segment.distinct_outcome_congr h depth)

/-- The outcome of an alternative does not depend, but for repeats, on which bases are repeats. -/
theorem Alternative.distinct_outcome_congr (h : paths.eraseDups = others.eraseDups) (depth : Nat)
    (alternative : Alternative) : (alternative.outcome answer limit depth paths).distinct =
      (alternative.outcome answer limit depth others).distinct := by
  cases alternative with
  | literal path => rfl
  | steps segments =>
    refine distinct_foldl_outcome_congr ?_ depth segments
    simp only [distinct, complete, List.map_eq_flatMap]
    rw [eraseDups_flatMap_congr h]

/-- The outcome of a glob does not depend, but for repeats, on repeats among its alternatives and
the bases. -/
theorem Glob.distinct_outcome_eraseDups (answer : Request → Listing) (limit depth : Nat)
    (glob : Glob) (bases : List String) :
    ({ glob with alternatives := glob.alternatives.eraseDups }.outcome answer limit depth
      bases.eraseDups).distinct = (glob.outcome answer limit depth bases).distinct := by
  have hbases : bases.eraseDups.eraseDups = bases.eraseDups := eraseDups_eq_self (nodup_eraseDups _)
  -- the alternatives first, and then what each of them makes of the bases
  exact (distinct_each_eraseDups _ _).trans
    (distinct_each_congr fun alternative _ => alternative.distinct_outcome_congr hbases depth)

namespace Enumeration

/-- `resultsOf` an outcome depend only on its items, each where it comes first, and its ending. -/
theorem resultsOf_entries_congr {kind : EntityKind} (h : front.distinct = back.distinct) :
    resultsOf kind front.entries = resultsOf kind back.entries := by
  obtain ⟨hitems, hending⟩ := Outcome.mk.inj h
  have hpaths := eraseDups_flatMap_congr hitems fun item => (kind.result? (.ok item)).toList
  rw [← List.filterMap_eq_flatMap_toList, ← List.filterMap_eq_flatMap_toList] at hpaths
  rw [resultsOf_entries, resultsOf_entries, ← eraseDups_append_eraseDups, hpaths, hending,
    eraseDups_append_eraseDups]

variable {lister : Lister}

/-- A base or an alternative that is written again may be left out by `List.eraseDups`: neither the
results that can be taken one after the other change, nor whether there are no more of them. The
answers of the lister depend on the request alone (`hlister`); they may fail and need not end. -/
theorem results_eraseDups_iff
    (hlister : ∀ earlier request, lister.answer earlier request = answer request) (glob : Glob)
    (kind : EntityKind) (bases : List String) (results : List (Except ListingError String)) :
    ((∃ last, Run lister ({ glob with alternatives := glob.alternatives.eraseDups }.enumerate kind
        bases.eraseDups) results last) ↔
      ∃ last, Run lister (glob.enumerate kind bases) results last) ∧
    (Completes lister ({ glob with alternatives := glob.alternatives.eraseDups }.enumerate kind
        bases.eraseDups) results ↔
      Completes lister (glob.enumerate kind bases) results) := by
  refine results_iff_of_forall_hasResults hlister (fun n => ?_) results
  have hdistinct := glob.distinct_outcome_eraseDups answer n n bases
  have hending := (Outcome.mk.inj hdistinct).2
  have hfirst := hasResults_enumerate answer n n
    { glob with alternatives := glob.alternatives.eraseDups } kind bases.eraseDups
  rw [resultsOf_entries_congr hdistinct, Ended, hending] at hfirst
  exact ⟨_, _, hfirst.mono (by omega),
    (hasResults_enumerate answer n n glob kind bases).mono (by omega)⟩

/-- A lister of two nested directories with a file of one name, and of a third that cannot be
listed. -/
def nestedLister : Lister :=
  .ofFunction fun request =>
    if request.directory = "/w" then [.ok (.directory "/w/a"), .ok (.file "/w/b")]
    else if request.directory = "/w/a" then [.ok (.file "/w/a/b"), .ok (.directory "/w/a/c")]
    else [.error ⟨.timedOut, "slow"⟩]

/-- The entities named `b`, written twice with other entities in between. -/
def nestedTwice : Glob where
  text := "**/b;*;**/b"
  alternatives :=
    [.steps [.recursive, .component ⟨"b", [.char 'b']⟩], .steps [.anyDirectory],
      .steps [.recursive, .component ⟨"b", [.char 'b']⟩]]

/-- The hypothesis of `results_eraseDups_iff` holds of `nestedLister`, and an alternative and a base
of `nestedTwice` that are written again bring nothing: each path comes once, and the failure
last. -/
theorem results_nestedTwice :
    (∀ earlier request, nestedLister.answer earlier request = nestedLister.answer [] request) ∧
    nestedTwice.alternatives.eraseDups = nestedTwice.alternatives.take 2 ∧
    ["/w", "/w/a", "/w"].eraseDups = ["/w", "/w/a"] ∧
    Completes nestedLister (nestedTwice.enumerate .file ["/w", "/w/a", "/w"])
      [.ok "/w/b", .ok "/w/a/b", .error ⟨.timedOut, "slow"⟩] := by
  obtain ⟨last, hrun⟩ : ∃ last, Run nestedLister
      ({ nestedTwice with alternatives := nestedTwice.alternatives.eraseDups }.enumerate .file
        ["/w", "/w/a", "/w"].eraseDups)
      [.ok "/w/b", .ok "/w/a/b", .error ⟨.timedOut, "slow"⟩] last :=
    ⟨_, @Run.cons _ _ _ _ 20 _ _ (by rfl) (@Run.cons _ _ _ _ 20 _ _ (by rfl)
      (@Run.cons _ _ _ _ 20 _ _ (by rfl) (.nil _)))⟩
  refine ⟨fun _ _ => rfl, by decide, by decide, ?_⟩
  exact (results_eraseDups_iff (fun _ _ => rfl) nestedTwice .file ["/w", "/w/a", "/w"] _).2.1
    (hrun.completes_of_mem_error ⟨⟨.timedOut, "slow"⟩, by decide⟩)

end Enumeration

end PathPatterns
