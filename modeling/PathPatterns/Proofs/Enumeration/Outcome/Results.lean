import PathPatterns.Proofs.Enumeration.Outcome.Stages

/-!
# What enumerations come to

For a lister that does not look back, what an enumeration gives can be read off what its pipelines
come to, one after the other. Looking further brings more results, and an enumeration ends exactly
if looking far enough comes to a failure or to the end.

## Main definitions

* `Glob.outcome`: what the alternatives of a glob make of some bases.
* `Enumeration.HasResults`: the results of an enumeration, and whether they are all, as far as
  somebody has looked.

## Main results

* `Run.exists_steps`, `HasResults.exists_run`: whoever looks far enough sees what can be taken from
  an enumeration, and what is seen can be taken.
* `results_iff_of_forall_hasResults`: enumerations that come to the same give the same results.
* `completes_iff`: the enumeration of a glob completes exactly if the outcome of the glob ends.
-/

namespace PathPatterns

open Outcome

/-- The failure at an end, if there is one, as a list. -/
def Ending.failures {α : Type} : Ending → List (Except ListingError α)
  | failed failure => [.error failure]
  | _ => []

namespace Outcome

variable {α : Type}

/-- The entries that are known of an outcome: its items, and its failure. -/
def entries (outcome : Outcome Item) : List Entry :=
  outcome.items.map .ok ++ outcome.ending.failures

/-- Whether the items come to their end, or to a failure, as far as somebody has looked. -/
def Ended (outcome : Outcome α) : Prop :=
  outcome.ending ≠ .unfinished

end Outcome

/-- What the alternatives of a glob make of some bases, one after the other. -/
def Glob.outcome (answer : Request → Listing) (limit depth : Nat) (bases : List String)
    (glob : Glob) : Outcome Item :=
  each (Alternative.outcome answer limit depth bases) glob.alternatives

variable {answer : Request → Listing} {n m limit depth : Nat} {pipelines : List Pipeline}
  {outcomes : List (Outcome Item)} {lister : Lister}

namespace Pipeline

variable {pipeline : Pipeline} {outcome : Outcome Item}

/-- The outcome of a pipeline is what the first step yields in front of the outcome of what is
left. -/
theorem HasOutcome.of_step (h : HasOutcome answer (n + 1) pipeline outcome) :
    match pipeline.step with
    | .finished => outcome = complete []
    | .skip rest => HasOutcome answer n rest outcome
    | .yield (.ok item) rest =>
      ∃ others, outcome = cons item others ∧ HasOutcome answer n rest others
    | .yield (.error failure) _ => outcome = stop (.failed failure)
    | .ask request resume => HasOutcome answer n (resume (answer request)) outcome := by
  cases h with
  | finished h => simp only [h]
  | failed h => simp only [h]
  | skip h next hn =>
    simp only [h]
    exact next.mono (Nat.le_of_succ_le_succ hn)
  | yield h next hn =>
    simp only [h]
    exact ⟨_, rfl, next.mono (Nat.le_of_succ_le_succ hn)⟩
  | ask h next hn =>
    simp only [h]
    exact next.mono (Nat.le_of_succ_le_succ hn)

end Pipeline

open Pipeline (HasOutcome)

/-- Pipelines come to outcomes, each to its own. -/
abbrev HaveOutcomes (answer : Request → Listing) (n : Nat) :
    List Pipeline → List (Outcome Item) → Prop :=
  List.Forall₂ (HasOutcome answer n)

theorem HaveOutcomes.mono (h : HaveOutcomes answer n pipelines outcomes) (hm : m ≤ n) :
    HaveOutcomes answer m pipelines outcomes :=
  h.imp fun _ _ h => h.mono hm

namespace Glob

/-- The outcome of a glob is those of its alternatives one after the other, put together by
`each`. -/
theorem outcome_eq_each_id (answer : Request → Listing) (limit depth : Nat) (bases : List String)
    (glob : Glob) : glob.outcome answer limit depth bases =
      each id (glob.alternatives.map (Alternative.outcome answer limit depth bases)) :=
  (each_map id _ _).symm

/-- The pipelines of a glob come to what `Alternative.outcome` makes of the bases. -/
theorem haveOutcomes_pipelines (answer : Request → Listing) (limit depth : Nat)
    (bases : List String) (glob : Glob) :
    HaveOutcomes answer (min depth limit) (glob.alternatives.map (·.pipeline bases))
      (glob.alternatives.map (Alternative.outcome answer limit depth bases)) := by
  rw [HaveOutcomes, List.forall₂_map_left_iff, List.forall₂_map_right_iff, List.forall₂_same]
  exact fun alternative _ => Pipeline.hasOutcome_pipeline answer limit depth bases alternative

end Glob

section Stateless

variable (hlister : ∀ earlier request, lister.answer earlier request = answer request)

include hlister

namespace Stream

/-- A stream of one pipeline `Yields` the known entries of its outcome, and behind an outcome that
is complete nothing is left of the pipeline. -/
theorem exists_yields_of_hasOutcome {pipeline : Pipeline} {outcome : Outcome Item}
    (h : HasOutcome answer n pipeline outcome) (earlier : List Request) :
    ∃ last : Stream, Yields lister ⟨[pipeline], earlier⟩ outcome.entries last ∧
      (outcome.ending = .complete → last.pipelines = []) := by
  induction h generalizing earlier with
  | unfinished pipeline => exact ⟨_, .refl _, by simp [stop]⟩
  | finished h => exact ⟨⟨[], earlier⟩, .working (step_of_finished h) (.refl _), fun _ => rfl⟩
  | failed h => exact ⟨_, .entry (step_of_yield h) (.refl _), by simp [stop]⟩
  | skip h _ _ ih =>
    obtain ⟨last, hyields, hlast⟩ := ih earlier
    exact ⟨last, .working (step_of_skip h) hyields, hlast⟩
  | yield h _ _ ih =>
    obtain ⟨last, hyields, hlast⟩ := ih earlier
    exact ⟨last, .entry (step_of_yield h) hyields, hlast⟩
  | @ask _ _ _ request _ _ h _ _ ih =>
    obtain ⟨last, hyields, hlast⟩ := ih (request :: earlier)
    rw [← hlister earlier] at hyields
    exact ⟨last, .working (step_of_ask h) hyields, hlast⟩

/-- A stream `Yields` the known entries of the outcomes of its pipelines, one pipeline after the
other. -/
theorem exists_yields_of_haveOutcomes (h : HaveOutcomes answer n pipelines outcomes)
    (earlier : List Request) :
    ∃ last : Stream, Yields lister ⟨pipelines, earlier⟩ (each id outcomes).entries last ∧
      ((each id outcomes).ending = .complete → last.pipelines = []) := by
  induction h generalizing earlier with
  | nil => exact ⟨⟨[], earlier⟩, .refl _, fun _ => rfl⟩
  | @cons pipeline outcome pipelines outcomes first _ ih =>
    obtain ⟨⟨left, between⟩, hfirst, hleft⟩ := exists_yields_of_hasOutcome hlister first earlier
    have hbefore := hfirst.before pipelines
    rw [each_cons, id]
    -- later pipelines are reached only behind one that comes to its end
    by_cases hcomplete : outcome.ending = .complete
    · obtain rfl : left = [] := hleft hcomplete
      obtain ⟨last, hothers, hlast⟩ := ih between
      refine ⟨last, ?_, by rwa [append_of_complete hcomplete]⟩
      have hentries : (outcome ++ each id outcomes).entries =
          outcome.entries ++ (each id outcomes).entries := by
        simp [append_of_complete hcomplete, entries, hcomplete, Ending.failures]
      rw [hentries]
      exact hbefore.trans hothers
    · rw [append_of_not_complete hcomplete]
      exact ⟨_, hbefore, fun h => absurd h hcomplete⟩

/-- What the pipelines of a stream come to is what the first `step` yields in front of what is
left. -/
theorem step_of_haveOutcomes (h : HaveOutcomes answer (n + 1) pipelines outcomes)
    (earlier : List Request) :
    match step lister ⟨pipelines, earlier⟩ with
    | .finished => each id outcomes = complete []
    | .working next => ∃ others, HaveOutcomes answer n next.pipelines others ∧
        each id outcomes = each id others
    | .entry (.ok item) next => ∃ others, HaveOutcomes answer n next.pipelines others ∧
        each id outcomes = cons item (each id others)
    | .entry (.error failure) _ => each id outcomes = stop (.failed failure) := by
  cases h with
  | nil => rfl
  | @cons pipeline outcome pipelines outcomes first later =>
    have hstep := first.of_step
    have hlater := HaveOutcomes.mono later (Nat.le_succ n)
    -- the step is that of the first pipeline, and the outcomes of the others stay
    rw [each_cons, id]
    cases hpipeline : pipeline.step with
    | finished =>
      rw [hpipeline] at hstep
      rw [step_of_finished hpipeline]
      exact ⟨outcomes, hlater, by rw [hstep]; rfl⟩
    | skip rest =>
      rw [hpipeline] at hstep
      rw [step_of_skip hpipeline]
      exact ⟨outcome :: outcomes, .cons hstep hlater, rfl⟩
    | ask request resume =>
      rw [hpipeline] at hstep
      rw [step_of_ask hpipeline, hlister]
      exact ⟨outcome :: outcomes, .cons hstep hlater, rfl⟩
    | yield entry rest =>
      rw [hpipeline] at hstep
      rw [step_of_yield hpipeline]
      cases entry with
      | error failure =>
        rw [show outcome = stop (.failed failure) from hstep]
        exact stop_failed_append ..
      | ok item =>
        obtain ⟨others, rfl, hothers⟩ := hstep
        exact ⟨others :: outcomes, .cons hothers hlater, cons_append ..⟩

end Stream

end Stateless

namespace Enumeration

variable {enumeration next last : Enumeration} {results : List (Except ListingError String)}
  {ended : Prop}

/-- As far as somebody has looked, an enumeration gives some results, and they are all if it has
`ended`. -/
inductive HasResults (answer : Request → Listing) (n : Nat) :
    Enumeration → (results : List (Except ListingError String)) → (ended : Prop) → Prop
  /-- The enumeration has ended already. -/
  | ended {enumeration : Enumeration} (hdone : enumeration.done = true) :
      HasResults answer n enumeration [] True
  /-- The enumeration goes on with what its pipelines come to. -/
  | on {enumeration : Enumeration} {outcomes : List (Outcome Item)}
      (hdone : enumeration.done = false)
      (h : HaveOutcomes answer n enumeration.stream.pipelines outcomes) :
      HasResults answer n enumeration (enumeration.resultsFrom (each id outcomes).entries)
        (each id outcomes).Ended

theorem HasResults.mono (h : HasResults answer n enumeration results ended) (hm : m ≤ n) :
    HasResults answer m enumeration results ended := by
  cases h with
  | ended hdone => exact .ended hdone
  | on hdone h => exact .on hdone (HaveOutcomes.mono h hm)

section Stateless

variable (hlister : ∀ earlier request, lister.answer earlier request = answer request)

include hlister

/-- The results of an enumeration are the one of its `step`, if it gives one, and those of what is
left. -/
theorem HasResults.of_step (h : HasResults answer (n + 1) enumeration results ended) :
    match enumeration.step lister with
    | .finished _ => results = [] ∧ ended
    | .working next => HasResults answer n next results ended
    | .result result next => ∃ others, results = result :: others ∧
        HasResults answer n next others ended := by
  cases h with
  | ended hdone =>
    rw [step, if_pos hdone]
    exact ⟨rfl, trivial⟩
  | on hdone h =>
    have hstream := Stream.step_of_haveOutcomes hlister h enumeration.stream.requests
    obtain ⟨hentry, hstep⟩ | ⟨stream, hentry, hstep⟩ | ⟨failure, stream, hentry, hstep⟩ |
      ⟨item, stream, hentry, haccepts, hnew, hstep⟩ | ⟨item, stream, hentry, hnot, hstep⟩ :=
      step_cases lister hdone
    all_goals
      simp only [hentry] at hstream
      rw [hstep]
    · rw [hstream]
      exact ⟨resultsFrom_nil _, by simp [Ended, complete]⟩
    · obtain ⟨others, hothers, heq⟩ := hstream
      rw [heq]
      exact .on hdone hothers
    · have hresults :
          enumeration.resultsFrom (stop (.failed failure)).entries = [.error failure] :=
        resultsFrom_error_cons hdone failure []
      have hended : (stop (.failed failure) : Outcome Item).Ended = True :=
        eq_true (by simp [Ended, stop])
      rw [hstream, hresults, hended]
      exact ⟨[], rfl, .ended rfl⟩
    · obtain ⟨others, hothers, heq⟩ := hstream
      rw [heq]
      exact ⟨_, resultsFrom_ok_cons_of_new hdone haccepts hnew stream _, .on hdone hothers⟩
    · obtain ⟨others, hothers, heq⟩ := hstream
      rw [heq, show enumeration.resultsFrom (cons item (each id others)).entries = _ from
        resultsFrom_ok_cons_of_not hnot stream _]
      exact .on hdone hothers

/-- The results of an enumeration are the one of its `advance`, if it gives one, and those of what
is left. -/
theorem HasResults.of_advance (h : HasResults answer (n + m) enumeration results ended) :
    match enumeration.advance lister m with
    | .finished _ => results = [] ∧ ended
    | .unfinished _ => True
    | .result result next => ∃ others, results = result :: others ∧
        HasResults answer n next others ended := by
  induction m generalizing enumeration with
  | zero => trivial
  | succ m ih =>
    have hstep := h.of_step hlister
    rw [advance]
    cases hprogress : enumeration.step lister with
    | finished rest => simpa only [hprogress] using hstep
    | working rest =>
      rw [hprogress] at hstep
      exact ih hstep
    | result result rest =>
      simp only [hprogress] at hstep ⊢
      obtain ⟨others, rfl, hothers⟩ := hstep
      exact ⟨others, rfl, hothers.mono (Nat.le_add_right n m)⟩

/-- Whoever looks far enough, by some number of `steps`, sees the results of a run, and what comes
behind it. -/
theorem Run.exists_steps (h : Run lister enumeration results last) :
    ∃ steps, ∀ n all ended, HasResults answer (n + steps) enumeration all ended →
      ∃ others, all = results ++ others ∧ HasResults answer n last others ended := by
  induction h with
  | nil => exact ⟨0, fun n all ended hall => ⟨all, rfl, hall⟩⟩
  | @cons enumeration next last steps result results first rest ih =>
    -- the steps up to the first result, and then those that the others need
    obtain ⟨more, hmore⟩ := ih
    refine ⟨more + steps, fun n all ended hall => ?_⟩
    rw [← Nat.add_assoc] at hall
    have hadvance := hall.of_advance hlister
    simp only [first] at hadvance
    obtain ⟨others, rfl, hothers⟩ := hadvance
    obtain ⟨last, rfl, hlast⟩ := hmore n _ _ hothers
    exact ⟨last, rfl, hlast⟩

/-- Whoever looks far enough, by some number of `steps`, sees all results of a complete run, and
that they are all. -/
theorem Completes.exists_steps (h : Completes lister enumeration results) :
    ∃ steps, ∀ all ended,
      HasResults answer steps enumeration all ended → all = results ∧ ended := by
  obtain ⟨last, steps, rest, hrun, hlast⟩ := h
  obtain ⟨more, hmore⟩ := hrun.exists_steps hlister
  refine ⟨0 + steps + more, fun all ended hall => ?_⟩
  obtain ⟨others, rfl, hothers⟩ := hmore _ all ended hall
  have hadvance := hothers.of_advance hlister
  simp only [hlast] at hadvance
  obtain ⟨rfl, hended⟩ := hadvance
  exact ⟨List.append_nil _, hended⟩

end Stateless

/-- The first results of a `Run` can be taken alone. -/
theorem Run.of_append {front back : List (Except ListingError String)}
    (h : Run lister enumeration (front ++ back) last) :
    ∃ next, Run lister enumeration front next := by
  induction front generalizing enumeration with
  | nil => exact ⟨_, .nil _⟩
  | cons result front ih =>
    cases h with
    | cons first rest =>
      obtain ⟨next, hnext⟩ := ih rest
      exact ⟨next, .cons first hnext⟩

/-- An enumeration whose `Run` has given a failure has given all its results. -/
theorem Run.completes_of_mem_error (h : Run lister enumeration results last)
    (hmem : ∃ failure, .error failure ∈ results) : Completes lister enumeration results := by
  obtain ⟨failure, hmem⟩ := hmem
  obtain ⟨front, back, rfl⟩ := List.append_of_mem hmem
  obtain ⟨-, hdone⟩ := h.eq_nil_of_error
  exact ⟨last, 1, last, h, advance_of_done lister 0 hdone⟩

/-- Nothing stands behind the failure in which an outcome ends, so `upToFailure` keeps all its
entries. -/
theorem upToFailure_entries (outcome : Outcome Item) :
    upToFailure outcome.entries = outcome.entries := by
  obtain ⟨items, ending⟩ := outcome
  -- only the ending may be a failure, and it comes last
  induction items with
  | nil => cases ending <;> rfl
  | cons item items ih =>
    rw [show entries ⟨item :: items, ending⟩ = .ok item :: entries ⟨items, ending⟩ from rfl,
      upToFailure, ih]

/-- The `failure` in which an outcome ends is a result of its entries, unless the enumeration is
`done`. -/
theorem error_mem_resultsFrom {outcome : Outcome Item} {failure : ListingError}
    (hdone : enumeration.done = false) (h : outcome.ending = .failed failure) :
    .error failure ∈ enumeration.resultsFrom outcome.entries := by
  rw [resultsFrom, if_neg (by simp [hdone]), upToFailure_entries, List.mem_eraseDups,
    List.mem_filter, List.mem_filterMap]
  exact ⟨⟨.error failure, by simp [entries, h, Ending.failures], rfl⟩, rfl⟩

section Stateless

variable (hlister : ∀ earlier request, lister.answer earlier request = answer request)

include hlister

/-- The results that `HasResults` tells can be taken from the enumeration, and are all if it has
ended. -/
theorem HasResults.exists_run (h : HasResults answer n enumeration results ended) :
    (∃ last, Run lister enumeration results last) ∧
      (ended → Completes lister enumeration results) := by
  cases h with
  | ended hdone =>
    exact ⟨⟨_, .nil _⟩, fun _ => completes_of_finished (by rw [step, if_pos hdone])⟩
  | @on outcomes hdone h =>
    obtain ⟨stream, hyields, hlast⟩ :=
      Stream.exists_yields_of_haveOutcomes hlister h enumeration.stream.requests
    obtain ⟨last, hrun⟩ := exists_run_of_yields hyields
    refine ⟨⟨last, hrun⟩, fun hended => ?_⟩
    cases hending : (each id outcomes).ending with
    | unfinished => exact absurd hending hended
    | complete =>
      obtain ⟨pipelines, requests⟩ := stream
      obtain rfl : pipelines = [] := hlast hending
      exact completes_of_drains ⟨requests, hyields⟩
    | failed failure =>
      exact hrun.completes_of_mem_error ⟨failure, error_mem_resultsFrom hdone hending⟩

section Alike

variable {first second : Enumeration}

/-- A `Run` of `first` has the results of one of `second`, if both have the same results, however
far one looks (`h`). -/
theorem exists_run_of_forall_hasResults
    (h : ∀ n, ∃ all ended,
      HasResults answer n first all ended ∧ HasResults answer n second all ended)
    (hrun : ∃ last, Run lister first results last) : ∃ last, Run lister second results last := by
  obtain ⟨last, hrun⟩ := hrun
  -- whoever looks far enough sees these results and maybe more
  obtain ⟨steps, hsteps⟩ := hrun.exists_steps hlister
  obtain ⟨all, ended, hfirst, hsecond⟩ := h (0 + steps)
  obtain ⟨others, rfl, -⟩ := hsteps 0 all ended hfirst
  obtain ⟨_, hall⟩ := (hsecond.exists_run hlister).1
  exact hall.of_append

/-- Where `first` completes, `second` does so with the same results, if both have the same results,
however far one looks (`h`). -/
theorem completes_of_forall_hasResults
    (h : ∀ n, ∃ all ended,
      HasResults answer n first all ended ∧ HasResults answer n second all ended)
    (hcompletes : Completes lister first results) : Completes lister second results := by
  obtain ⟨steps, hsteps⟩ := hcompletes.exists_steps hlister
  obtain ⟨all, ended, hfirst, hsecond⟩ := h steps
  obtain ⟨rfl, hended⟩ := hsteps all ended hfirst
  exact (hsecond.exists_run hlister).2 hended

/-- Enumerations with the same results, however far one looks (`h`), have the same runs and complete
runs. -/
theorem results_iff_of_forall_hasResults
    (h : ∀ n, ∃ all ended,
      HasResults answer n first all ended ∧ HasResults answer n second all ended)
    (results : List (Except ListingError String)) :
    ((∃ last, Run lister first results last) ↔ ∃ last, Run lister second results last) ∧
      (Completes lister first results ↔ Completes lister second results) := by
  have hswap :
      ∀ n, ∃ all ended,
        HasResults answer n second all ended ∧ HasResults answer n first all ended :=
    fun n => let ⟨all, ended, hfirst, hsecond⟩ := h n; ⟨all, ended, hsecond, hfirst⟩
  exact ⟨⟨exists_run_of_forall_hasResults hlister h, exists_run_of_forall_hasResults hlister hswap⟩,
    ⟨completes_of_forall_hasResults hlister h, completes_of_forall_hasResults hlister hswap⟩⟩

end Alike

end Stateless

/-! ## Globs -/

section Glob

variable {kind : EntityKind} {glob : Glob} {bases : List String}

/-- `resultsOf` an outcome are what each of its items contributes, and its failure. -/
theorem resultsOf_entries (kind : EntityKind) (outcome : Outcome Item) :
    resultsOf kind outcome.entries =
      (outcome.items.filterMap (fun item => kind.result? (.ok item)) ++
        outcome.ending.failures).eraseDups := by
  have hending : outcome.ending.failures.filterMap kind.result? = outcome.ending.failures := by
    cases outcome.ending <;> rfl
  rw [resultsOf, upToFailure_entries, entries, List.filterMap_append, hending, List.filterMap_map]
  rfl

/-- The enumeration of a glob has the results of `Glob.outcome`, however far one looks. -/
theorem hasResults_enumerate (answer : Request → Listing) (limit depth : Nat) (glob : Glob)
    (kind : EntityKind) (bases : List String) :
    HasResults answer (min depth limit) (glob.enumerate kind bases)
      (resultsOf kind (glob.outcome answer limit depth bases).entries)
      (glob.outcome answer limit depth bases).Ended := by
  rw [Glob.outcome_eq_each_id, ← resultsFrom_enumerate glob kind bases]
  exact .on rfl (Glob.haveOutcomes_pipelines answer limit depth bases glob)

/-- The enumeration of a glob completes exactly if `Glob.outcome`, looked at far enough, has
ended. -/
theorem completes_iff
    (hlister : ∀ earlier request, lister.answer earlier request = answer request) :
    Completes lister (glob.enumerate kind bases) results ↔
      ∃ n, (glob.outcome answer n n bases).Ended ∧
        results = resultsOf kind (glob.outcome answer n n bases).entries := by
  constructor
  · intro h
    obtain ⟨steps, hsteps⟩ := h.exists_steps hlister
    have hresults := hasResults_enumerate answer steps steps glob kind bases
    obtain ⟨heq, hended⟩ := hsteps _ _ (hresults.mono (by omega))
    exact ⟨steps, hended, heq.symm⟩
  · rintro ⟨n, hended, rfl⟩
    exact ((hasResults_enumerate answer n n glob kind bases).exists_run hlister).2 hended

end Glob

end Enumeration

end PathPatterns
