import PathPatterns.Proofs.Enumeration.Entries
import PathPatterns.Proofs.Enumeration.Run
import PathPatterns.Proofs.Lists

/-!
# The results of an enumeration

An enumeration makes its results of the entries of its stream: up to the first failure, it gives the
paths of the items of its kind, each path where it comes first, and then the failure. Whether an
item is of the kind is looked at before its path counts as seen.

## Main results

* `exists_run_iff`: the results that can be taken are those of the first entries of the stream.
* `completes_of_drains`: a stream that comes to its end gives all its results, and nothing after.
* `results_follow_entries`: how the results of a glob follow from the entries of its alternatives.
-/

namespace PathPatterns

/-- The elements of a list up to its first failure, and that failure. -/
def upToFailure {α : Type} : List (Except ListingError α) → List (Except ListingError α)
  | [] => []
  | .ok a :: rest => .ok a :: upToFailure rest
  | .error failure :: _ => [.error failure]

/-- Where there is no failure, `upToFailure` keeps everything. -/
theorem upToFailure_eq_self {α : Type} {results : List (Except ListingError α)}
    (h : ∀ failure, .error failure ∉ results) : upToFailure results = results := by
  induction results with
  | nil => rfl
  | cons result results ih =>
    cases result with
    | error failure => exact absurd (List.mem_cons_self ..) (h failure)
    | ok a => rw [upToFailure, ih fun failure hmem => h failure (List.mem_cons_of_mem _ hmem)]

/-- What an entry contributes where a `kind` is asked for: an item of the kind its path, a failure
itself. -/
def EntityKind.result? (kind : EntityKind) : Entry → Option (Except ListingError String)
  | .ok item => if kind.accepts item.kind then some (.ok item.path) else none
  | .error failure => some (.error failure)

namespace Enumeration

/-- The results that entries give where a kind is asked for: what they contribute up to the first
failure, each result where it comes first. -/
def resultsOf (kind : EntityKind) (entries : List Entry) : List (Except ListingError String) :=
  ((upToFailure entries).filterMap kind.result?).eraseDups

/-- Whether a result is none of the paths that have been `seen`; a failure never is. -/
def isNew (seen : Std.ExtTreeSet String) : Except ListingError String → Bool
  | .ok path => !seen.contains path
  | .error _ => true

/-- The results that an enumeration makes of `entries` that are still to come. -/
def resultsFrom (enumeration : Enumeration) (entries : List Entry) :
    List (Except ListingError String) :=
  if enumeration.done then []
  else (((upToFailure entries).filterMap enumeration.kind.result?).filter
    (isNew enumeration.seen)).eraseDups

variable {enumeration next last : Enumeration} {kind : EntityKind} {entries more : List Entry}

@[simp]
theorem resultsFrom_nil (enumeration : Enumeration) : enumeration.resultsFrom [] = [] := by
  simp [resultsFrom, upToFailure]

theorem resultsFrom_of_done (h : enumeration.done = true) (entries : List Entry) :
    enumeration.resultsFrom entries = [] := by
  simp [resultsFrom, h]

/-- At first nothing has been seen, so `resultsFrom` is `resultsOf`. -/
theorem resultsFrom_enumerate (glob : Glob) (kind : EntityKind) (bases : List String)
    (entries : List Entry) :
    (glob.enumerate kind bases).resultsFrom entries = resultsOf kind entries := by
  have hnew : ∀ result, isNew ∅ result = true := by
    rintro (failure | path)
    · rfl
    · simp [isNew]
  show (List.filter (isNew ∅) _).eraseDups = _
  rw [List.filter_eq_self.2 fun result _ => hnew result]
  rfl

/-- A failure is a result, and `resultsFrom` gives none after it. -/
theorem resultsFrom_error_cons (hdone : enumeration.done = false) (failure : ListingError)
    (entries : List Entry) :
    enumeration.resultsFrom (.error failure :: entries) = [.error failure] := by
  simp [resultsFrom, hdone, upToFailure, EntityKind.result?, isNew, List.filter_cons,
    List.eraseDups_cons]

/-- To have seen `path` is to pass over the results that are equal to it. -/
theorem isNew_insert (seen : Std.ExtTreeSet String) (path : String) :
    isNew (seen.insert path) = fun result => !(result == .ok path) && isNew seen result := by
  funext result
  cases result with
  | error failure => rfl
  | ok other =>
    have hbeq : ((.ok other : Except ListingError String) == .ok path) = (other == path) := by
      by_cases h : other = path
      · rw [h, beq_self_eq_true, beq_self_eq_true]
      · rw [beq_eq_false_iff_ne.2 h, beq_eq_false_iff_ne.2 fun heq => h (Except.ok.inj heq)]
    rw [hbeq, isNew, isNew, Std.ExtTreeSet.contains_insert, Std.compare_beq_eq_beq, Bool.not_or,
      Bool.beq_comm]

/-- The path of an item of the kind is a result if it is not in `seen`, and is there from then
on. -/
theorem resultsFrom_ok_cons_of_new (hdone : enumeration.done = false) {item : Item}
    (haccepts : enumeration.kind.accepts item.kind = true) (hnew : item.path ∉ enumeration.seen)
    (stream : Stream) (entries : List Entry) :
    enumeration.resultsFrom (.ok item :: entries) =
      .ok item.path ::
        { enumeration with stream, seen := enumeration.seen.insert item.path }.resultsFrom
          entries := by
  have hhead : isNew enumeration.seen (.ok item.path) = true := by
    rwa [isNew, Bool.not_eq_true', ← Bool.not_eq_true, Std.ExtTreeSet.contains_iff_mem]
  simp [resultsFrom, hdone, upToFailure, EntityKind.result?, haccepts, hhead, List.eraseDups_cons,
    List.filter_filter, isNew_insert]

/-- Any other item does not matter to `resultsFrom`: it is of another kind, or its path is in
`seen`. -/
theorem resultsFrom_ok_cons_of_not {item : Item}
    (h : enumeration.kind.accepts item.kind = true → item.path ∈ enumeration.seen)
    (stream : Stream) (entries : List Entry) :
    enumeration.resultsFrom (.ok item :: entries) =
      { enumeration with stream }.resultsFrom entries := by
  cases haccepts : enumeration.kind.accepts item.kind with
  | false => simp [resultsFrom, upToFailure, EntityKind.result?, haccepts]
  | true =>
    have hhead : isNew enumeration.seen (.ok item.path) = false := by
      simpa [isNew] using h haccepts
    simp [resultsFrom, upToFailure, EntityKind.result?, haccepts, hhead]

/-! ## Steps and runs -/

section Runs

variable {lister : Lister} {stream : Stream} {results others : List (Except ListingError String)}

/-- A `working` step of the stream is one of the enumeration. -/
theorem step_of_stream_working (hdone : enumeration.done = false)
    (h : enumeration.stream.step lister = .working stream) :
    enumeration.step lister = .working { enumeration with stream } := by
  rw [step, if_neg (by simp [hdone]), h]

theorem step_of_stream_finished (hdone : enumeration.done = false)
    (h : enumeration.stream.step lister = .finished) :
    enumeration.step lister = .finished { enumeration with done := true } := by
  rw [step, if_neg (by simp [hdone]), h]

/-- A step of the stream with an entry gives the next result, or none, as `resultsFrom` says. -/
theorem step_of_stream_entry (hdone : enumeration.done = false) {entry : Entry}
    (h : enumeration.stream.step lister = .entry entry stream) :
    ∃ rest : Enumeration, rest.stream = stream ∧
      ((∃ result, enumeration.step lister = .result result rest ∧
          ∀ entries, enumeration.resultsFrom (entry :: entries) =
            result :: rest.resultsFrom entries) ∨
        enumeration.step lister = .working rest ∧ rest.done = false ∧
          ∀ entries, enumeration.resultsFrom (entry :: entries) = rest.resultsFrom entries) := by
  obtain ⟨hstream, -⟩ | ⟨_, hstream, -⟩ | ⟨failure, _, hstream, hstep⟩ |
    ⟨item, _, hstream, haccepts, hnew, hstep⟩ | ⟨item, _, hstream, hnot, hstep⟩ :=
    step_cases lister hdone
  · simp [h] at hstream
  · simp [h] at hstream
  · obtain ⟨rfl, rfl⟩ := Stream.Progress.entry.inj (h.symm.trans hstream)
    refine ⟨_, rfl, .inl ⟨_, hstep, fun entries => ?_⟩⟩
    rw [resultsFrom_error_cons hdone, resultsFrom_of_done rfl]
  · obtain ⟨rfl, rfl⟩ := Stream.Progress.entry.inj (h.symm.trans hstream)
    exact ⟨_, rfl, .inl ⟨_, hstep, resultsFrom_ok_cons_of_new hdone haccepts hnew stream⟩⟩
  · obtain ⟨rfl, rfl⟩ := Stream.Progress.entry.inj (h.symm.trans hstream)
    exact ⟨_, rfl, .inr ⟨hstep, hdone, resultsFrom_ok_cons_of_not hnot stream⟩⟩

/-- A `working` step belongs to the advance after it, so a `Run` from behind it is one from before
it. -/
theorem exists_run_of_working (h : enumeration.step lister = .working next)
    (hnext : ∃ last, Run lister next results last) :
    ∃ last, Run lister enumeration results last := by
  obtain ⟨last, hrun⟩ := hnext
  cases hrun with
  | nil => exact ⟨_, .nil _⟩
  | @cons _ _ _ steps _ _ first rest =>
    have hadvance : enumeration.advance lister (steps + 1) = next.advance lister steps := by
      rw [advance, h]
    exact ⟨last, .cons (hadvance.trans first) rest⟩

/-- A step with a `result` is an advance, so the result comes before those of a `Run` from behind
it. -/
theorem exists_run_of_result {result : Except ListingError String}
    (h : enumeration.step lister = .result result next)
    (hnext : ∃ last, Run lister next results last) :
    ∃ last, Run lister enumeration (result :: results) last := by
  obtain ⟨last, hrun⟩ := hnext
  have hadvance : enumeration.advance lister 1 = .result result next := by
    rw [advance, h]
  exact ⟨last, .cons hadvance hrun⟩

/-- Induction along the steps in which an enumeration takes the entries that its stream `Yields`, up
to the last of them or the first failure, while it gives their results. -/
theorem resultsFrom_induction {P : Enumeration → List (Except ListingError String) → Prop}
    (hworking : ∀ {enumeration next results}, enumeration.step lister = .working next →
      P next results → P enumeration results)
    (hresult : ∀ {enumeration next result results}, enumeration.step lister = .result result next →
      P next results → P enumeration (result :: results))
    (hend : ∀ {enumeration}, enumeration.done = true ∨ enumeration.stream = stream →
      P enumeration [])
    (h : Stream.Yields lister enumeration.stream entries stream) :
    P enumeration (enumeration.resultsFrom entries) := by
  generalize hstream : enumeration.stream = start at h
  -- on the steps of the stream; an enumeration that is done takes none of them
  induction h generalizing enumeration with
  | refl =>
    rw [resultsFrom_nil]
    exact hend (.inr hstream)
  | working first _ ih =>
    subst hstream
    cases hdone : enumeration.done with
    | true =>
      rw [resultsFrom_of_done hdone]
      exact hend (.inl hdone)
    | false => exact hworking (step_of_stream_working hdone first) (ih hend rfl)
  | entry first _ ih =>
    subst hstream
    cases hdone : enumeration.done with
    | true =>
      rw [resultsFrom_of_done hdone]
      exact hend (.inl hdone)
    | false =>
      obtain ⟨rest, hrest, ⟨result, hstep, hresults⟩ | ⟨hstep, -, hresults⟩⟩ :=
        step_of_stream_entry hdone first
      · rw [hresults]
        exact hresult hstep (ih hend hrest)
      · rw [hresults]
        exact hworking hstep (ih hend hrest)

/-- What `resultsFrom` makes of the first entries of its stream can be taken from an enumeration. -/
theorem exists_run_of_yields (h : Stream.Yields lister enumeration.stream entries stream) :
    ∃ last, Run lister enumeration (enumeration.resultsFrom entries) last :=
  resultsFrom_induction
    (P := fun enumeration results => ∃ last, Run lister enumeration results last)
    exists_run_of_working exists_run_of_result (fun _ => ⟨_, .nil _⟩) h

/-- Where the stream of an enumeration `Drains`, the enumeration `Completes` with what `resultsFrom`
makes of all entries. -/
theorem completes_of_drains (h : enumeration.stream.Drains lister entries) :
    Completes lister enumeration (enumeration.resultsFrom entries) := by
  obtain ⟨requests, hyields⟩ := h
  refine resultsFrom_induction Completes.of_working Completes.of_result ?_ hyields
  intro enumeration hend
  cases hdone : enumeration.done with
  | true => exact completes_of_finished (by rw [step, if_pos hdone])
  | false =>
    have hstream : enumeration.stream = ⟨[], requests⟩ := by simpa [hdone] using hend
    exact completes_of_finished (step_of_stream_finished hdone (by rw [hstream]; rfl))

/-- An `advance` takes entries of the stream up to one that gives a result. -/
theorem exists_yields_of_advance {steps : Nat} {result : Except ListingError String}
    (h : enumeration.advance lister steps = .result result next) :
    ∃ entries, Stream.Yields lister enumeration.stream entries next.stream ∧
      ∀ more, enumeration.resultsFrom (entries ++ more) = result :: next.resultsFrom more := by
  induction steps generalizing enumeration with
  | zero => simp [advance] at h
  | succ steps ih =>
    cases hdone : enumeration.done with
    | true => simp [advance_of_done lister steps hdone] at h
    | false =>
      rw [advance] at h
      cases hstream : enumeration.stream.step lister with
      | finished => simp [step_of_stream_finished hdone hstream] at h
      | working stream =>
        simp only [step_of_stream_working hdone hstream] at h
        obtain ⟨entries, hyields, hresults⟩ := ih h
        -- a step without an entry changes only the stream
        exact ⟨entries, .working hstream hyields, hresults⟩
      | entry entry stream =>
        obtain ⟨rest, rfl, ⟨first, hstep, hfirst⟩ | ⟨hstep, -, hfirst⟩⟩ :=
          step_of_stream_entry hdone hstream
        · simp only [hstep] at h
          obtain ⟨rfl, rfl⟩ : first = result ∧ rest = next := by simpa using h
          exact ⟨[entry], .entry hstream (.refl _), hfirst⟩
        · simp only [hstep] at h
          obtain ⟨entries, hyields, hresults⟩ := ih h
          refine ⟨entry :: entries, .entry hstream hyields, fun more => ?_⟩
          rw [List.cons_append, hfirst, hresults]

/-- A `Run` takes entries of the stream, and its results are what `resultsFrom` makes of them. -/
theorem exists_yields_of_run (h : Run lister enumeration results last) :
    ∃ entries, Stream.Yields lister enumeration.stream entries last.stream ∧
      ∀ more, enumeration.resultsFrom (entries ++ more) = results ++ last.resultsFrom more := by
  induction h with
  | nil enumeration => exact ⟨[], .refl _, fun _ => rfl⟩
  | cons first _ ih =>
    obtain ⟨front, hfront, hfirst⟩ := exists_yields_of_advance first
    obtain ⟨back, hback, hrest⟩ := ih
    refine ⟨front ++ back, hfront.trans hback, fun more => ?_⟩
    rw [List.append_assoc, hfirst, hrest, List.cons_append]

/-- A `Run` takes exactly the results that `resultsFrom` makes of first entries of the stream. -/
theorem exists_run_iff :
    (∃ last, Run lister enumeration results last) ↔
      ∃ entries stream, Stream.Yields lister enumeration.stream entries stream ∧
        results = enumeration.resultsFrom entries := by
  refine ⟨?_, ?_⟩
  · rintro ⟨last, hrun⟩
    obtain ⟨entries, hyields, hresults⟩ := exists_yields_of_run hrun
    refine ⟨entries, _, hyields, ?_⟩
    simpa using (hresults []).symm
  · rintro ⟨entries, stream, hyields, rfl⟩
    exact exists_run_of_yields hyields

/-! ## The end of an enumeration -/

/-- A step that comes to a failure or to the end is the last one: the enumeration is `done`. -/
theorem done_of_step (lister : Lister) (enumeration : Enumeration) :
    match enumeration.step lister with
    | .finished rest => rest.done = true
    | .result (.error _) rest => rest.done = true
    | _ => True := by
  cases hdone : enumeration.done with
  | true =>
    rw [step, if_pos hdone]
    exact hdone
  | false =>
    obtain ⟨-, hstep⟩ | ⟨_, -, hstep⟩ | ⟨_, _, -, hstep⟩ | ⟨_, _, -, -, -, hstep⟩ |
      ⟨_, _, -, -, hstep⟩ := step_cases lister hdone
    all_goals simp only [hstep]

/-- An `advance` that comes to a failure or to the end is the last one, however many steps it
takes. -/
theorem done_of_advance (lister : Lister) (steps : Nat) (enumeration : Enumeration) :
    match enumeration.advance lister steps with
    | .finished rest => rest.done = true
    | .result (.error _) rest => rest.done = true
    | _ => True := by
  induction steps generalizing enumeration with
  | zero => trivial
  | succ steps ih =>
    have hstep := done_of_step lister enumeration
    rw [advance]
    cases hprogress : enumeration.step lister with
    | working rest => exact ih rest
    | finished rest => simpa only [hprogress] using hstep
    | result result rest =>
      rw [hprogress] at hstep
      cases result <;> exact hstep

/-- Nothing can be taken from an enumeration that is `done`, and it stays as it is. -/
theorem Run.eq_of_done (h : Run lister enumeration results last) (hdone : enumeration.done = true) :
    results = [] ∧ last = enumeration := by
  cases h with
  | nil => exact ⟨rfl, rfl⟩
  | @cons _ _ _ steps _ _ first _ =>
    cases steps with
    | zero => simp [advance] at first
    | succ steps => simp [advance_of_done lister steps hdone] at first

/-- After a failure nothing can be taken, and the enumeration is `done`. -/
theorem Run.eq_nil_of_error {front back : List (Except ListingError String)}
    {failure : ListingError} (h : Run lister enumeration (front ++ .error failure :: back) last) :
    back = [] ∧ last.done = true := by
  generalize hresults : front ++ .error failure :: back = results at h
  induction h generalizing front with
  | nil => simp at hresults
  | @cons enumeration _ _ steps _ _ first rest ih =>
    cases front with
    | nil =>
      obtain ⟨rfl, rfl⟩ := List.cons.inj hresults
      have hdone := done_of_advance lister steps enumeration
      simp only [first] at hdone
      obtain ⟨hback, rfl⟩ := rest.eq_of_done hdone
      exact ⟨hback, hdone⟩
    | cons result front => exact ih (List.cons.inj hresults).2

/-- Two runs of an enumeration take the same results, as far as both go. -/
theorem Run.isPrefix_or_isPrefix (h : Run lister enumeration results last)
    (hother : Run lister enumeration others next) : results <+: others ∨ others <+: results := by
  induction h generalizing others with
  | nil => exact .inl List.nil_prefix
  | cons first _ ih =>
    cases hother with
    | nil => exact .inr List.nil_prefix
    | cons first' rest' =>
      obtain ⟨rfl, rfl⟩ := Advance.result.inj (advance_unique first first' (by simp) (by simp))
      exact (ih rest').imp (List.prefix_cons_inj _).2 (List.prefix_cons_inj _).2

/-- Whatever a `Run` has taken, the complete run goes on with what is left. -/
theorem Completes.exists_append (h : Completes lister enumeration results)
    (hrun : Run lister enumeration others next) :
    ∃ more, results = others ++ more ∧ Completes lister next more := by
  induction hrun generalizing results with
  | nil => exact ⟨results, rfl, h⟩
  | cons first _ ih =>
    obtain ⟨last, steps, rest, hall, hlast⟩ := h
    cases hall with
    | nil => cases advance_unique first hlast (by simp) (by simp)
    | cons first' hall =>
      obtain ⟨rfl, rfl⟩ := Advance.result.inj (advance_unique first first' (by simp) (by simp))
      obtain ⟨more, rfl, hmore⟩ := ih ⟨last, steps, rest, hall, hlast⟩
      exact ⟨more, rfl, hmore⟩

/-- A complete run has all results that a `Run` can take, in the same order. -/
theorem Completes.isPrefix (h : Completes lister enumeration results)
    (hrun : Run lister enumeration others next) : others <+: results := by
  obtain ⟨more, rfl, -⟩ := h.exists_append hrun
  exact List.prefix_append others more

/-- The next `advance` of a complete run gives its first result, or comes to the end if there is
none. -/
theorem Completes.exists_advance (h : Completes lister enumeration results) :
    ∃ steps rest, match results with
      | [] => enumeration.advance lister steps = .finished rest
      | result :: _ => enumeration.advance lister steps = .result result rest := by
  obtain ⟨last, steps, rest, hrun, hlast⟩ := h
  cases hrun with
  | nil => exact ⟨steps, rest, hlast⟩
  | cons first _ => exact ⟨_, _, first⟩

end Runs

/-! ## The results of a glob -/

/-- First entries of the streams of the alternatives of a glob, one after the other in the order of
the glob. -/
def EntriesOf (lister : Lister) (glob : Glob) (bases : List String) (entries : List Entry) : Prop :=
  Stream.Chained lister (glob.alternatives.map (·.pipeline bases)) [] entries

/-- An item of the kind adds its path to `resultsOf` the entries unless an earlier item of the kind
has this path (`hnew`); earlier items of other kinds do not matter. -/
theorem resultsOf_append_singleton {entries : List Entry} {item : Item}
    (hok : ∀ failure, .error failure ∉ entries) (haccepts : kind.accepts item.kind = true)
    (hnew : ∀ other, .ok other ∈ entries → other.path = item.path →
      kind.accepts other.kind = false) :
    resultsOf kind (entries ++ [.ok item]) = resultsOf kind entries ++ [.ok item.path] := by
  have hnot : .ok item.path ∉ entries.filterMap kind.result? := by
    intro hmem
    obtain ⟨entry, hentry, hresult⟩ := List.mem_filterMap.1 hmem
    cases entry with
    | error failure => simp [EntityKind.result?] at hresult
    | ok other =>
      cases hother : kind.accepts other.kind with
      | false => simp [EntityKind.result?, hother] at hresult
      | true =>
        have hpath : other.path = item.path := by simpa [EntityKind.result?, hother] using hresult
        simp [hnew other hentry hpath] at hother
  have hlast : ∀ failure, .error failure ∉ entries ++ [.ok item] := by
    simpa using hok
  have hresult : [.ok item].filterMap kind.result? = [.ok item.path] := by
    simp [EntityKind.result?, haccepts]
  -- so the last result is kept when repeats are left out
  have hkept : List.removeAll [.ok item.path] (entries.filterMap kind.result?) =
      [.ok item.path] :=
    List.filter_eq_self.2 fun result hmem => by
      rw [List.mem_singleton.1 hmem]
      simpa using hnot
  rw [resultsOf, resultsOf, upToFailure_eq_self hlast, upToFailure_eq_self hok,
    List.filterMap_append, hresult, List.eraseDups_append, hkept]
  rfl

/-- The results of a glob follow from the entries of its alternatives. What can be taken from an
enumeration is `resultsOf` first entries (`EntriesOf`), and the same for as many entries as one
likes; an item of another kind does not stand in the way of one with its path. No result comes
twice, and a failure is the last one. At the end all results have been given, and neither after it
nor after a failure anything is given or asked for. -/
theorem results_follow_entries (lister : Lister) (glob : Glob) (kind : EntityKind)
    (bases : List String) :
    (∀ results, (∃ last, Run lister (glob.enumerate kind bases) results last) ↔
      ∃ entries, EntriesOf lister glob bases entries ∧ results = resultsOf kind entries) ∧
    (∀ entries item, EntriesOf lister glob bases (entries ++ [.ok item]) →
      (∀ failure, .error failure ∉ entries) → kind.accepts item.kind = true →
      (∀ other, .ok other ∈ entries → other.path = item.path → kind.accepts other.kind = false) →
      ∃ last, Run lister (glob.enumerate kind bases)
        (resultsOf kind entries ++ [.ok item.path]) last) ∧
    ∀ results last, Run lister (glob.enumerate kind bases) results last →
      (∀ entries, EntriesOf lister glob bases entries →
        results <+: resultsOf kind entries ∨ resultsOf kind entries <+: results) ∧
      results.Nodup ∧
      (∀ front failure back, results = front ++ .error failure :: back →
        back = [] ∧ ∀ steps, last.advance lister (steps + 1) = .finished last) ∧
      ∀ steps rest, last.advance lister steps = .finished rest →
        (∀ entries, EntriesOf lister glob bases entries → resultsOf kind entries <+: results) ∧
        ∀ more, rest.advance lister (more + 1) = .finished rest := by
  have hruns : ∀ results, (∃ last, Run lister (glob.enumerate kind bases) results last) ↔
      ∃ entries, EntriesOf lister glob bases entries ∧ results = resultsOf kind entries := by
    intro results
    rw [exists_run_iff]
    simp only [EntriesOf, Stream.chained_iff, resultsFrom_enumerate, ← exists_and_right]
    rfl
  refine ⟨hruns, fun entries item hentries hok haccepts hnew => ?_, fun results last hrun => ?_⟩
  · exact (hruns _).2 ⟨_, hentries, (resultsOf_append_singleton hok haccepts hnew).symm⟩
  · refine ⟨fun entries hentries => ?_, ?_, ?_, fun steps rest hrest => ?_⟩
    · -- two runs of one enumeration agree as far as the shorter one goes
      obtain ⟨_, hother⟩ := (hruns _).2 ⟨entries, hentries, rfl⟩
      exact hrun.isPrefix_or_isPrefix hother
    · obtain ⟨entries, -, rfl⟩ := (hruns results).1 ⟨last, hrun⟩
      exact nodup_eraseDups _
    · rintro front failure back rfl
      obtain ⟨hback, hdone⟩ := hrun.eq_nil_of_error
      exact ⟨hback, fun steps => advance_of_done lister steps hdone⟩
    · have hdone := done_of_advance lister steps last
      rw [hrest] at hdone
      refine ⟨fun entries hentries => ?_, fun more => advance_of_done lister more hdone⟩
      obtain ⟨_, hother⟩ := (hruns _).2 ⟨entries, hentries, rfl⟩
      exact Completes.isPrefix ⟨last, steps, rest, hrun, hrest⟩ hother

/-- A lister of a directory with a directory and a file of one name, which fails after these. -/
def failingLister : Lister :=
  .ofFunction fun _ =>
    [.ok (.directory "/w/a"), .ok (.file "/w/a"), .ok (.file "/w/a"), .error ⟨.timedOut, "slow"⟩,
      .ok (.file "/w/ab")]

/-- The entities whose name starts with `a`. -/
def namesInA : Glob where
  text := "a*"
  alternatives := [.steps [.component ⟨"a*", [.char 'a', .anyRun]⟩]]

/-- A run of `namesInA` over `failingLister` yields the file once, in spite of the directory of its
name, and then the failure; after it nothing is given, as `results_follow_entries` says. -/
theorem results_of_failingLister :
    ∃ last, Run failingLister (namesInA.enumerate .file ["/w"])
        [.ok "/w/a", .error ⟨.timedOut, "slow"⟩] last ∧
      (∃ entries, EntriesOf failingLister namesInA ["/w"] entries ∧
        [.ok "/w/a", .error ⟨.timedOut, "slow"⟩] = resultsOf .file entries) ∧
      ∀ steps, last.advance failingLister (steps + 1) = .finished last := by
  obtain ⟨last, hrun⟩ : ∃ last, Run failingLister (namesInA.enumerate .file ["/w"])
      [.ok "/w/a", .error ⟨.timedOut, "slow"⟩] last :=
    ⟨_, @Run.cons _ _ _ _ 10 _ _ (by rfl) (@Run.cons _ _ _ _ 10 _ _ (by rfl) (.nil _))⟩
  obtain ⟨hruns, -, hafter⟩ := results_follow_entries failingLister namesInA .file ["/w"]
  obtain ⟨-, -, hends, -⟩ := hafter _ last hrun
  exact ⟨last, hrun, (hruns _).1 ⟨last, hrun⟩, (hends [.ok "/w/a"] _ [] rfl).2⟩

end Enumeration

end PathPatterns
