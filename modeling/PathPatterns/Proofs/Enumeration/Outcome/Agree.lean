import PathPatterns.Proofs.Enumeration.Outcome.Walks
import PathPatterns.Proofs.Enumeration.Selection

/-!
# Pipelines that agree

Two pipelines agree if, however far one looks, they come to the same items but for repeats, and to
the same ending. Stages keep this, and enumerations of pipelines that agree give the same results. A
walk from the directories of a walk agrees with the walk alone, if that comes to its end.

## Main definitions

* `Pipeline.Agree`: two pipelines come to the same but for repeats.
* `Lister.FinitelyWalked`: a walk from a directory comes to its end.

## Main results

* `Pipeline.agree_recursive`: a walk agrees with a walk behind it.
* `Enumeration.results_iff_of_recursive_twice`: to write a `**` twice changes no results.
-/

namespace PathPatterns

open Outcome

variable {answer : Request → Listing} {lister : Lister}

namespace Pipeline

variable {n : Nat} {pipeline inner first second : Pipeline} {outcome : Outcome Item}

/-- However far one looks, every pipeline has some outcome: `HasOutcome` is total. -/
theorem exists_hasOutcome (answer : Request → Listing) (n : Nat) (pipeline : Pipeline) :
    ∃ outcome, HasOutcome answer n pipeline outcome := by
  induction n generalizing pipeline with
  | zero => exact ⟨_, .unfinished pipeline⟩
  | succ n ih =>
    cases hstep : pipeline.step with
    | finished => exact ⟨_, .finished hstep⟩
    | skip rest =>
      obtain ⟨outcome, hrest⟩ := ih rest
      exact ⟨outcome, .skip hstep hrest le_rfl⟩
    | ask request resume =>
      obtain ⟨outcome, hrest⟩ := ih (resume (answer request))
      exact ⟨outcome, .ask hstep hrest le_rfl⟩
    | yield entry rest =>
      cases entry with
      | error failure => exact ⟨_, .failed hstep⟩
      | ok item =>
        obtain ⟨outcome, hrest⟩ := ih rest
        exact ⟨_, .yield hstep hrest le_rfl⟩

/-- The items of an outcome of a pipeline are among those that are expected of it, `itemsBy` the
answers. -/
theorem HasOutcome.mem_itemsBy (h : HasOutcome answer n pipeline outcome) :
    ∀ item ∈ outcome.items, item ∈ itemsBy answer pipeline := by
  induction h with
  | unfinished => simp [stop]
  | finished => simp [complete]
  | failed => simp [stop]
  | skip h _ _ ih => exact fun item hitem => itemsBy_of_skip h (ih item hitem)
  | ask h _ _ ih => exact fun item hitem => itemsBy_of_ask h (ih item hitem)
  | yield h _ _ ih =>
    intro item hitem
    rw [itemsBy_of_yield answer h]
    exact (List.mem_cons.1 hitem).imp id (ih item)

/-- Two pipelines come to the same but for repeats, however far one looks. -/
def Agree (answer : Request → Listing) (first second : Pipeline) : Prop :=
  ∀ n, ∃ front back, HasOutcome answer n first front ∧ HasOutcome answer n second back ∧
    front.distinct = back.distinct

/-- The stages of one segment behind pipelines that `Agree` do so as well. -/
theorem Agree.attach (h : Agree answer first second) (segment : Segment) :
    Agree answer (segment.attach first) (segment.attach second) := by
  intro n
  obtain ⟨front, back, hfront, hback, heq⟩ := h n
  exact ⟨_, _, (hasOutcome_attach n n hfront segment).mono (by omega),
    (hasOutcome_attach n n hback segment).mono (by omega), segment.distinct_outcome_congr heq n⟩

theorem Agree.foldl_attach (h : Agree answer first second) (segments : List Segment) :
    Agree answer (segments.foldl Segment.attach first) (segments.foldl Segment.attach second) := by
  induction segments generalizing first second with
  | nil => exact h
  | cons segment segments ih => exact ih (h.attach segment)

/-- Lists of pipelines that `Agree` one by one come to the same together, but for repeats. -/
theorem exists_haveOutcomes_of_agree {firsts seconds : List Pipeline}
    (h : List.Forall₂ (Agree answer) firsts seconds) (n : Nat) :
    ∃ fronts backs, HaveOutcomes answer n firsts fronts ∧ HaveOutcomes answer n seconds backs ∧
      (each id fronts).distinct = (each id backs).distinct := by
  induction h with
  | nil => exact ⟨[], [], .nil, .nil, rfl⟩
  | cons first _ ih =>
    obtain ⟨front, back, hfront, hback, heq⟩ := first n
    obtain ⟨fronts, backs, hfronts, hbacks, hothers⟩ := ih
    exact ⟨front :: fronts, back :: backs, .cons hfront hfronts, .cons hback hbacks,
      distinct_append_congr heq hothers⟩

/-- A walk and a walk behind it `Agree`, if walks from the directories in front come to their ends
(`hwalks`). -/
theorem agree_recursive (hwalks : ∀ path ∈ directoryPaths (itemsBy answer inner),
      ∃ n, (walk answer n n [path]).ending = .complete) :
    Agree answer (Segment.recursive.attach inner)
      (Segment.recursive.attach (Segment.recursive.attach inner)) := by
  intro n
  obtain ⟨outcome, hinner⟩ := exists_hasOutcome answer n inner
  -- one has to look far enough for the walk from what has come, not from what is still to come
  have hends : ∀ path ∈ Item.directories outcome.items,
      ∃ n, (walk answer n n [path]).ending = .complete := fun path hpath => by
    obtain ⟨item, hitem, rfl⟩ := List.mem_map.1 hpath
    obtain ⟨hmem, hdir⟩ := List.mem_filter.1 hitem
    apply hwalks
    show .directory item.path ∈ itemsBy answer inner
    rw [← Item.isDirectory_iff.1 hdir]
    exact hinner.mem_itemsBy item hmem
  obtain ⟨m, hm, hcomplete⟩ := walk_complete_of_forall hends n
  have hsingle := hasOutcome_attach m m hinner .recursive
  refine ⟨_, _, hsingle.mono (by omega),
    (hasOutcome_attach m m hsingle .recursive).mono (by omega), ?_⟩
  -- neither walk starts where what is in front does not come to its end
  cases hending : outcome.ending with
  | complete =>
    simp only [Segment.outcome, hending, stop_complete_append, hcomplete]
    exact (distinct_walk_walkedTo hcomplete).symm
  | failed failure =>
    simp only [Segment.outcome, hending, stop_failed_append]
    rfl
  | unfinished =>
    simp only [Segment.outcome, hending, stop_unfinished_append]
    rfl

end Pipeline

/-! ## Walks that end -/

/-- A walk from a directory comes to its end, without a failure, in an enumeration of
`allDirectories`. -/
def Lister.FinitelyWalked (lister : Lister) (path : String) : Prop :=
  ∃ paths : List String,
    Enumeration.Completes lister (allDirectories.enumerate .directory [path]) (paths.map .ok)

/-- Walks come to their ends where listings are `Finitary`: finitely many directories lie below each
one that can be reached, and none of them leads back to it. -/
theorem Finitary.finitelyWalked {contents : Request → List Item} {starts : Set String}
    (h : Finitary (itemsIn contents) starts) (hlister : lister.AnswersWith contents) {path : String}
    (hpath : Reaches (itemsIn contents) starts path) : lister.FinitelyWalked path := by
  -- what can be reached from there can be reached in the first place
  have hreaches : ∀ other, Reaches (itemsIn contents) (allDirectories.starts [path]) other →
      Reaches (itemsIn contents) starts other := by
    intro other hother
    induction hother with
    | start hstart => rwa [mem_starts_allDirectories_iff.1 hstart]
    | listed hkind _ hchild ih => exact .listed hkind ih hchild
  have hfinitary : Finitary (itemsIn contents) (allDirectories.starts [path]) :=
    ⟨fun hother => h.finite (hreaches _ hother), fun hother => h.acyclic (hreaches _ hother)⟩
  have hends : ∀ pipeline ∈ (allDirectories.enumerate .directory [path]).stream.pipelines,
      pipeline.Ends fun request => .finite ((contents request).map .ok) := by
    intro pipeline hpipeline
    obtain ⟨alternative, hmem, rfl⟩ := List.mem_map.1 hpipeline
    exact Enumeration.ends_of_finitary hfinitary hmem
  obtain ⟨paths, -, hpaths⟩ := Enumeration.exists_completes hlister hends
  exact ⟨paths, hpaths⟩

/-- The directories to which some segments come can be reached, if those in front of them can (`h`)
and their drives are at the start (`hdevice`). -/
theorem reaches_of_mem_foldl_expand {lists : Request → Set Item} {starts : Set String}
    {segments : List Segment} {items : Set Item}
    (hdevice : ∀ letter, .device letter ∈ segments → Segment.driveRoot letter ∈ starts)
    (h : ∀ path ∈ directoryPaths items, Reaches lists starts path) :
    ∀ path ∈ directoryPaths (segments.foldl (Segment.expand lists) items),
      Reaches lists starts path := by
  induction segments generalizing items with
  | nil => exact h
  | cons segment segments ih =>
    refine ih (fun letter hmem => hdevice letter (by simp [hmem])) ?_
    refine Segment.forall_directoryPaths_expand (fun _ _ _ hkind => .listed hkind) ?_ h
    rintro letter rfl
    exact .start (hdevice letter (by simp))

section Stateless

variable (hlister : ∀ earlier request, lister.answer earlier request = answer request)

include hlister

/-- To look far enough shows that a walk has come to its end, if it is `FinitelyWalked`. -/
theorem Lister.FinitelyWalked.exists_walk_complete {path : String}
    (h : lister.FinitelyWalked path) : ∃ n, (walk answer n n [path]).ending = .complete := by
  obtain ⟨paths, hcompletes⟩ := h
  obtain ⟨n, hended, hresults⟩ := (Enumeration.completes_iff hlister).1 hcompletes
  have houtcome : allDirectories.outcome answer n n [path] = walk answer n n [path] :=
    append_complete_nil _
  rw [houtcome] at hended hresults
  refine ⟨n, ?_⟩
  cases hending : (walk answer n n [path]).ending with
  | complete => rfl
  | unfinished => exact absurd hending hended
  | failed failure =>
    -- a failure would be a result, and all results are paths
    have hmem :
        .error failure ∈ Enumeration.resultsOf .directory (walk answer n n [path]).entries := by
      simp [Enumeration.resultsOf_entries, hending, Ending.failures]
    rw [← hresults] at hmem
    simp at hmem

namespace Enumeration

variable {glob other : Glob} (kind : EntityKind) {bases : List String}

/-- Globs whose alternatives `Agree` one by one give the same results, in runs and in complete
runs. -/
theorem results_iff_of_agree (h : List.Forall₂ (Pipeline.Agree answer)
      (glob.alternatives.map (·.pipeline bases)) (other.alternatives.map (·.pipeline bases)))
    (results : List (Except ListingError String)) :
    ((∃ last, Run lister (glob.enumerate kind bases) results last) ↔
      ∃ last, Run lister (other.enumerate kind bases) results last) ∧
    (Completes lister (glob.enumerate kind bases) results ↔
      Completes lister (other.enumerate kind bases) results) := by
  refine results_iff_of_forall_hasResults hlister (fun n => ?_) results
  obtain ⟨fronts, backs, hfronts, hbacks, heq⟩ := Pipeline.exists_haveOutcomes_of_agree h n
  have hfirst : HasResults answer n (glob.enumerate kind bases) _ _ := .on rfl hfronts
  have hsecond : HasResults answer n (other.enumerate kind bases) _ _ := .on rfl hbacks
  rw [resultsFrom_enumerate] at hfirst hsecond
  rw [← resultsOf_entries_congr heq, Ended, ← (Outcome.mk.inj heq).2] at hsecond
  exact ⟨_, _, hfirst, hsecond⟩

/-- Where walks come to their ends (`hwalks`), a `**` that is written twice in a row changes
nothing: neither the results that can be taken one after the other, nor whether there are no more of
them. -/
theorem results_iff_of_recursive_twice {front back : List Segment}
    (hglob : glob.alternatives = [.steps (front ++ .recursive :: back)])
    (hother : other.alternatives = [.steps (front ++ .recursive :: .recursive :: back)])
    (hwalks : ∀ path, Reaches (fun request => (answer request).items) (glob.starts bases) path →
      lister.FinitelyWalked path)
    (results : List (Except ListingError String)) :
    ((∃ last, Run lister (glob.enumerate kind bases) results last) ↔
      ∃ last, Run lister (other.enumerate kind bases) results last) ∧
    (Completes lister (glob.enumerate kind bases) results ↔
      Completes lister (other.enumerate kind bases) results) := by
  refine results_iff_of_agree hlister kind ?_ results
  rw [hglob, hother]
  refine .cons ?_ .nil
  simp only [Alternative.pipeline, List.foldl_append, List.foldl_cons]
  apply Pipeline.Agree.foldl_attach
  apply Pipeline.agree_recursive
  -- only what can be reached comes to the first walk
  intro path hpath
  refine (hwalks path ?_).exists_walk_complete hlister
  rw [Pipeline.itemsBy] at hpath
  change path ∈ directoryPaths
    (Pipeline.items _ ((Alternative.steps front).pipeline bases)) at hpath
  rw [Alternative.items_pipeline] at hpath
  refine reaches_of_mem_foldl_expand (fun letter hmem => ?_) ?_ path hpath
  · exact .inr ⟨_, by rw [hglob]; exact List.mem_singleton_self _, letter,
      List.mem_append_left _ hmem, rfl⟩
  · rintro base ⟨other, hbase, heq⟩
    exact .start (.inl (by rwa [Item.directory_inj.1 heq]))

end Enumeration

end Stateless

end PathPatterns
