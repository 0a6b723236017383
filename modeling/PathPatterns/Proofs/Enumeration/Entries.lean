import Mathlib.Data.List.Forall2
import PathPatterns.Enumeration.Stream

/-!
# The entries that a stream yields

The entries of a stream are what it yields if nobody stops it, failures included. Those of several
pipelines are the entries of the first, then those of the second, and so on: a pipeline is not
started before the one in front of it has come to its end.

## Main results

* `chained_iff`: a stream yields the entries of its pipelines one pipeline after the other.
* `Drains.append`: two groups of pipelines that come to an end do so together.
-/

namespace PathPatterns

namespace Stream

/-- A stream takes some steps, with the answers of a lister, and yields `entries` on the way. -/
inductive Yields (lister : Lister) : Stream → List Entry → Stream → Prop
  /-- No step is taken. -/
  | refl (stream : Stream) : Yields lister stream [] stream
  /-- A step without an entry is taken, and others after it. -/
  | working {stream next last : Stream} {entries : List Entry}
      (first : stream.step lister = .working next) (rest : Yields lister next entries last) :
      Yields lister stream entries last
  /-- A step that yields an entry is taken, and others after it. -/
  | entry {stream next last : Stream} {entry : Entry} {entries : List Entry}
      (first : stream.step lister = .entry entry next) (rest : Yields lister next entries last) :
      Yields lister stream (entry :: entries) last

/-- A stream comes to its end, and yields `entries` on the way; the requests are left open. -/
def Drains (lister : Lister) (stream : Stream) (entries : List Entry) : Prop :=
  ∃ requests, Yields lister stream entries ⟨[], requests⟩

/-- First entries of some pipelines, one pipeline after the other, where `earlier` are the requests
made before. -/
inductive Chained (lister : Lister) : List Pipeline → List Request → List Entry → Prop
  /-- No entries yet. -/
  | nil (pipelines : List Pipeline) (earlier : List Request) : Chained lister pipelines earlier []
  /-- First entries of the first pipeline. -/
  | within {pipeline : Pipeline} {pipelines : List Pipeline} {earlier : List Request}
      {entries : List Entry} {rest : Stream}
      (first : Yields lister ⟨[pipeline], earlier⟩ entries rest) :
      Chained lister (pipeline :: pipelines) earlier entries
  /-- All entries of the first pipeline, and first entries of the others. -/
  | after {pipeline : Pipeline} {pipelines : List Pipeline} {earlier later : List Request}
      {front back : List Entry} (first : Yields lister ⟨[pipeline], earlier⟩ front ⟨[], later⟩)
      (others : Chained lister pipelines later back) :
      Chained lister (pipeline :: pipelines) earlier (front ++ back)

variable {lister : Lister} {stream next last : Stream} {entries more : List Entry}
  {pipeline : Pipeline} {pipelines others : List Pipeline} {earlier later : List Request}

/-- Steps may be taken one after the other, and `Yields` puts their entries one after the other. -/
theorem Yields.trans (h : Yields lister stream entries next)
    (hnext : Yields lister next more last) : Yields lister stream (entries ++ more) last := by
  induction h with
  | refl => exact hnext
  | working first _ ih => exact .working first (ih hnext)
  | entry first _ ih => exact .entry first (ih hnext)

/-- A stream that `Drains` goes on from its first entries to the others, as each step is
determined. -/
theorem Yields.exists_append (h : Yields lister stream entries next)
    (hend : Drains lister stream more) :
    ∃ rest, more = entries ++ rest ∧ Drains lister next rest := by
  induction h generalizing more with
  | refl => exact ⟨more, rfl, hend⟩
  | working first _ ih =>
    obtain ⟨requests, hend⟩ := hend
    -- the other run takes the same step first
    cases hend with
    | refl => simp [step] at first
    | working other hrest =>
      obtain rfl := Progress.working.inj (first.symm.trans other)
      exact ih ⟨requests, hrest⟩
    | entry other _ => simp [first] at other
  | entry first _ ih =>
    obtain ⟨requests, hend⟩ := hend
    cases hend with
    | refl => simp [step] at first
    | working other _ => simp [first] at other
    | entry other hrest =>
      obtain ⟨rfl, rfl⟩ := Progress.entry.inj (first.symm.trans other)
      obtain ⟨rest, rfl, hlast⟩ := ih ⟨requests, hrest⟩
      exact ⟨rest, rfl, hlast⟩

/-- The stream in which `others` wait behind the pipelines of a stream. -/
def before (stream : Stream) (others : List Pipeline) : Stream :=
  { stream with pipelines := stream.pipelines ++ others }

/-- The progress of a stream behind whose pipelines others wait. -/
def Progress.before (others : List Pipeline) : Progress → Progress
  | finished => finished
  | working rest => working (rest.before others)
  | entry yielded rest => entry yielded (rest.before others)

@[simp]
theorem Progress.before_eq_working_iff {progress : Progress} {others : List Pipeline}
    {next : Stream} :
    progress.before others = working next ↔
      ∃ rest, progress = working rest ∧ rest.before others = next := by
  cases progress <;> simp [Progress.before]

@[simp]
theorem Progress.before_eq_entry_iff {progress : Progress} {others : List Pipeline}
    {yielded : Entry} {next : Stream} :
    progress.before others = entry yielded next ↔
      ∃ rest, progress = entry yielded rest ∧ rest.before others = next := by
  cases progress <;> simp [Progress.before, and_assoc]

/-- While there are pipelines in front of them, `others` that wait do not matter to a step. -/
theorem step_before (lister : Lister) {stream : Stream} (h : stream.pipelines ≠ [])
    (others : List Pipeline) :
    (stream.before others).step lister = (stream.step lister).before others := by
  obtain ⟨pipelines, requests⟩ := stream
  cases pipelines with
  | nil => exact absurd rfl h
  | cons pipeline pipelines =>
    simp only [step, before, List.cons_append]
    cases pipeline.step <;> rfl

/-- Pipelines that wait, `others`, do not matter to what is yielded before their turn. -/
theorem Yields.before (h : Yields lister stream entries last) (others : List Pipeline) :
    Yields lister (stream.before others) entries (last.before others) := by
  -- a stream without pipelines takes no step
  have hne : ∀ {stream : Stream}, stream.step lister ≠ .finished → stream.pipelines ≠ [] :=
    fun hstep hnil => hstep (by simp [step, hnil])
  induction h with
  | refl => exact .refl _
  | working first _ ih =>
    refine .working ?_ ih
    rw [step_before lister (hne (by simp [first])), first]
    rfl
  | entry first _ ih =>
    refine .entry ?_ ih
    rw [step_before lister (hne (by simp [first])), first]
    rfl

/-- Behind an `entry` of a single pipeline is what is left of the pipeline, and nothing has been
asked for. -/
theorem exists_of_step_entry {entry : Entry}
    (h : step lister ⟨[pipeline], earlier⟩ = .entry entry next) :
    ∃ rest, next = ⟨[rest], earlier⟩ := by
  simp only [step] at h
  cases hstep : pipeline.step with
  | yield entry rest =>
    rw [hstep] at h
    exact ⟨rest, (Progress.entry.inj h).2.symm⟩
  | _ => simp [hstep] at h

/-- Behind a `working` step of a single pipeline is what is left of the pipeline, or its end. -/
theorem exists_of_step_working (h : step lister ⟨[pipeline], earlier⟩ = .working next) :
    ∃ later, next = ⟨[], later⟩ ∨ ∃ rest, next = ⟨[rest], later⟩ := by
  simp only [step] at h
  cases hstep : pipeline.step with
  | yield entry rest => simp [hstep] at h
  | _ =>
    rw [hstep] at h
    simp [← Progress.working.inj h]

/-! ## One pipeline after the other -/

/-- Entries that are `Chained` are yielded by the stream of the pipelines. -/
theorem Chained.exists_yields (h : Chained lister pipelines earlier entries) :
    ∃ last, Yields lister ⟨pipelines, earlier⟩ entries last := by
  induction h with
  | nil => exact ⟨_, .refl _⟩
  | within first => exact ⟨_, first.before _⟩
  | after first _ ih =>
    obtain ⟨last, hlast⟩ := ih
    exact ⟨last, (first.before _).trans hlast⟩

/-- A `working` step of the first pipeline comes before what is `Chained` behind it. -/
theorem Chained.of_working (hstep : step lister ⟨[pipeline], earlier⟩ = .working next)
    (h : Chained lister (next.before pipelines).pipelines next.requests entries) :
    Chained lister (pipeline :: pipelines) earlier entries := by
  obtain ⟨later, rfl | ⟨rest, rfl⟩⟩ := exists_of_step_working hstep
  · -- the pipeline has come to its end without a further entry
    exact .after (.working hstep (.refl _)) h
  · cases h with
    | nil => exact .nil _ _
    | within first => exact .within (.working hstep first)
    | after first others => exact .after (.working hstep first) others

/-- An `entry` of the first pipeline comes before what is `Chained` behind it. -/
theorem Chained.of_entry {entry : Entry}
    (hstep : step lister ⟨[pipeline], earlier⟩ = .entry entry next)
    (h : Chained lister (next.before pipelines).pipelines next.requests entries) :
    Chained lister (pipeline :: pipelines) earlier (entry :: entries) := by
  obtain ⟨rest, rfl⟩ := exists_of_step_entry hstep
  cases h with
  | nil => exact .within (.entry hstep (.refl _))
  | within first => exact .within (.entry hstep first)
  | after first others => exact .after (.entry hstep first) others

/-- What a stream yields is `Chained`, by induction on its steps. -/
theorem Yields.chained (h : Yields lister stream entries last) :
    Chained lister stream.pipelines stream.requests entries := by
  -- each step of the stream is a step of its first pipeline
  have hfirst : ∀ pipeline pipelines requests, step lister ⟨pipeline :: pipelines, requests⟩ =
      (step lister ⟨[pipeline], requests⟩).before pipelines := fun pipeline pipelines requests =>
    @step_before lister ⟨[pipeline], requests⟩ (List.cons_ne_nil _ _) pipelines
  induction h with
  | refl => exact .nil _ _
  | @working stream _ _ _ first _ ih =>
    obtain ⟨_ | ⟨pipeline, pipelines⟩, requests⟩ := stream
    · simp [step] at first
    · rw [hfirst, Progress.before_eq_working_iff] at first
      obtain ⟨next, hstep, rfl⟩ := first
      exact .of_working hstep ih
  | @entry stream _ _ _ _ first _ ih =>
    obtain ⟨_ | ⟨pipeline, pipelines⟩, requests⟩ := stream
    · simp [step] at first
    · rw [hfirst, Progress.before_eq_entry_iff] at first
      obtain ⟨next, hstep, rfl⟩ := first
      exact .of_entry hstep ih

/-- A stream `Yields` exactly the entries that are `Chained`: first entries of its pipelines, one
pipeline after the other. -/
theorem chained_iff :
    Chained lister pipelines earlier entries ↔
      ∃ last, Yields lister ⟨pipelines, earlier⟩ entries last := by
  refine ⟨Chained.exists_yields, ?_⟩
  rintro ⟨last, h⟩
  exact h.chained

/-! ## Streams that come to an end -/

section Stateless

variable {answer : Request → Listing}
  (hlister : ∀ earlier request, lister.answer earlier request = answer request)

include hlister

/-- If answers depend on the request alone, a step does the same with `others` for the requests
`earlier`. -/
theorem step_of_requests (pipelines : List Pipeline) (earlier others : List Request) :
    match step lister ⟨pipelines, earlier⟩ with
    | .finished => step lister ⟨pipelines, others⟩ = .finished
    | .working next => ∃ later, step lister ⟨pipelines, others⟩ = .working ⟨next.pipelines, later⟩
    | .entry entry next =>
      ∃ later, step lister ⟨pipelines, others⟩ = .entry entry ⟨next.pipelines, later⟩ := by
  cases pipelines with
  | nil => rfl
  | cons pipeline pipelines =>
    simp only [step, hlister]
    cases pipeline.step <;> exact ⟨_, rfl⟩

/-- If answers depend on the request alone, a stream yields the same whatever has been asked for
`earlier`. -/
theorem Yields.of_requests (h : Yields lister stream entries last) (earlier : List Request) :
    ∃ later, Yields lister ⟨stream.pipelines, earlier⟩ entries ⟨last.pipelines, later⟩ := by
  induction h generalizing earlier with
  | refl => exact ⟨_, .refl _⟩
  | @working stream _ _ _ first _ ih =>
    have hstep := step_of_requests hlister stream.pipelines stream.requests earlier
    rw [show step lister ⟨stream.pipelines, stream.requests⟩ = _ from first] at hstep
    obtain ⟨between, hbetween⟩ := hstep
    obtain ⟨later, hlater⟩ := ih between
    exact ⟨later, .working hbetween hlater⟩
  | @entry stream _ _ _ _ first _ ih =>
    have hstep := step_of_requests hlister stream.pipelines stream.requests earlier
    rw [show step lister ⟨stream.pipelines, stream.requests⟩ = _ from first] at hstep
    obtain ⟨between, hbetween⟩ := hstep
    obtain ⟨later, hlater⟩ := ih between
    exact ⟨later, .entry hbetween hlater⟩

/-- Two groups of pipelines of which each `Drains` do so one after the other, with the entries of
both. -/
theorem Drains.append (h : Drains lister ⟨pipelines, earlier⟩ entries)
    (hothers : Drains lister ⟨others, later⟩ more) :
    Drains lister ⟨pipelines ++ others, earlier⟩ (entries ++ more) := by
  obtain ⟨between, hfirst⟩ := h
  obtain ⟨_, hsecond⟩ := hothers
  obtain ⟨requests, hsecond⟩ := hsecond.of_requests hlister between
  exact ⟨requests, (hfirst.before others).trans hsecond⟩

/-- Groups of pipelines of which each `Drains` do so one after the other, with the entries of
all. -/
theorem drains_flatten {groups : List (List Pipeline)} {yielded : List (List Entry)}
    (h : List.Forall₂ (fun group entries => Drains lister ⟨group, earlier⟩ entries)
      groups yielded) :
    Drains lister ⟨groups.flatten, earlier⟩ yielded.flatten := by
  induction h with
  | nil => exact ⟨earlier, .refl _⟩
  | cons first _ ih => exact first.append hlister ih

end Stateless

end Stream

end PathPatterns
