import PathPatterns.Enumeration.Pipeline

/-!
# Streams of entries

The entries of a glob are those of its alternatives, one alternative after the other. A stream keeps
the pipelines that are left and the requests that the lister has answered.

## Main definitions

* `Stream.step`: one piece of work of the entries that the matches of a glob draw from.

## Main results

* `step_of_finished`, `step_of_skip`, `step_of_yield`, `step_of_ask`: the step of a stream for each
  step of its first pipeline.
-/

namespace PathPatterns

/-- The entries that are still to come, and the requests that led to those before. -/
structure Stream where
  /-- The pipelines that are left; the first is being run. -/
  pipelines : List Pipeline
  /-- The requests so far, last first. -/
  requests : List Request

namespace Stream

/-- What one step of a stream does. -/
inductive Progress
  /-- There are no more entries. -/
  | finished
  /-- Goes on without an entry. -/
  | working (rest : Stream)
  /-- Yields an entry. -/
  | entry (entry : Entry) (rest : Stream)

/-- Does one thing, with the answers of a lister. A pipeline that is `finished` makes way for the
next. -/
def step (lister : Lister) (stream : Stream) : Progress :=
  match stream.pipelines with
  | [] => .finished
  | pipeline :: later =>
    match pipeline.step with
    | .finished => .working { stream with pipelines := later }
    | .skip rest => .working { stream with pipelines := rest :: later }
    | .yield entry rest => .entry entry { stream with pipelines := rest :: later }
    | .ask request resume =>
      .working
        { pipelines := resume (lister.answer stream.requests request) :: later
          requests := request :: stream.requests }

section Step

variable {lister : Lister} {pipeline rest : Pipeline} {later : List Pipeline}
  {earlier : List Request}

theorem step_of_finished (h : pipeline.step = .finished) :
    step lister ⟨pipeline :: later, earlier⟩ = .working ⟨later, earlier⟩ := by
  simp only [step, h]

theorem step_of_skip (h : pipeline.step = .skip rest) :
    step lister ⟨pipeline :: later, earlier⟩ = .working ⟨rest :: later, earlier⟩ := by
  simp only [step, h]

theorem step_of_yield {entry : Entry} (h : pipeline.step = .yield entry rest) :
    step lister ⟨pipeline :: later, earlier⟩ = .entry entry ⟨rest :: later, earlier⟩ := by
  simp only [step, h]

/-- A request of the first pipeline is answered at once, and it is noted in front of those that have
been made `earlier`. -/
theorem step_of_ask {request : Request} {resume : Listing → Pipeline}
    (h : pipeline.step = .ask request resume) :
    step lister ⟨pipeline :: later, earlier⟩ =
      .working ⟨resume (lister.answer earlier request) :: later, request :: earlier⟩ := by
  simp only [step, h]

end Step

end Stream

end PathPatterns
