import Mathlib.Data.List.Nodup
import Mathlib.Data.Set.Finite.Lattice
import Mathlib.Data.Set.Finite.List
import Mathlib.Data.Set.List
import PathPatterns.Proofs.Enumeration.Results

/-!
# Enumerations that end

A pipeline need not end: listings may be endless, and directories may lie below each other without
an end. Where the listings of all directories it comes to are finite, and every listed directory has
a smaller rank than the one it is listed for, it does, or it comes to a failure before that. Where
the listings have no failures either, it comes to its end.

## Main results

* `halts_walking`: a walk halts, as the ranks of the directories in its queue go down level by
  level.
* `haltsSafely_attach`: a stage halts if the stages before it do.
* `exists_completes_of_halts`: an enumeration whose pipelines halt has a complete run.
* `exists_completes`: an enumeration whose pipelines end has one without a failure.
-/

namespace PathPatterns

/-- A listing comes to its end, and has failures only if there may be some (`mayFail`). -/
def Listing.IsFinite (mayFail : Prop) (listing : Listing) : Prop :=
  ∃ entries : List Entry, listing = .finite entries ∧
    ∀ failure, .error failure ∈ entries → mayFail

namespace Pipeline

/-- A pipeline halts, if requests are answered by `answer`: it comes to its end, or to a failure if
there may be some, as nobody goes on behind a failure. -/
inductive Halts (mayFail : Prop) (answer : Request → Listing) : Pipeline → Prop
  /-- It has ended. -/
  | finished {pipeline : Pipeline} (h : pipeline.step = .finished) : Halts mayFail answer pipeline
  /-- It yields a failure. -/
  | failed {pipeline rest : Pipeline} {failure : ListingError}
      (h : pipeline.step = .yield (.error failure) rest) (hmay : mayFail) :
      Halts mayFail answer pipeline
  /-- It goes on without an item. -/
  | skip {pipeline rest : Pipeline} (h : pipeline.step = .skip rest)
      (next : Halts mayFail answer rest) : Halts mayFail answer pipeline
  /-- It yields an item. -/
  | yield {pipeline rest : Pipeline} {item : Item} (h : pipeline.step = .yield (.ok item) rest)
      (next : Halts mayFail answer rest) : Halts mayFail answer pipeline
  /-- It goes on with the answer to a request. -/
  | ask {pipeline : Pipeline} {request : Request} {resume : Listing → Pipeline}
      (h : pipeline.step = .ask request resume)
      (next : Halts mayFail answer (resume (answer request))) : Halts mayFail answer pipeline

/-- A pipeline comes to its end without a failure, if requests are answered by `answer`. -/
abbrev Ends (answer : Request → Listing) (pipeline : Pipeline) : Prop :=
  Halts False answer pipeline

/-- Safe directories have finite listings, the directories in these are safe, and their rank goes
down. Nothing is said of listings of files alone, which no stage asks for. -/
structure FinitelyRanked (mayFail : Prop) (answer : Request → Listing) (safe : String → Prop)
    (rank : String → Nat) : Prop where
  /-- The listing of a safe directory comes to an end, and may fail only if others may. -/
  finite : ∀ kind {path}, kind ≠ .file → safe path → (answer ⟨kind, path⟩).IsFinite mayFail
  /-- The directories in a safe directory are safe. -/
  listed : ∀ kind {path child}, kind ≠ .file → safe path →
    .directory child ∈ (answer ⟨kind, path⟩).items → safe child
  /-- The directories in a safe directory have a smaller rank. -/
  descends : ∀ {path child}, safe path →
    .directory child ∈ (answer ⟨.directory, path⟩).items → rank child < rank path

variable {mayFail : Prop} {answer : Request → Listing} {inner rest : Pipeline}

/-- The items that a pipeline comes to if requests are answered by `answer`. -/
abbrev itemsBy (answer : Request → Listing) (pipeline : Pipeline) : Set Item :=
  pipeline.items fun request => (answer request).items

/-- The items of what is left behind a `skip` are items of the pipeline. -/
theorem itemsBy_of_skip (h : inner.step = .skip rest) :
    itemsBy answer rest ⊆ itemsBy answer inner := by
  have hmeets : inner.step.Meets _ _ (itemsBy answer inner) := inner.meets_step
  rw [h] at hmeets
  exact hmeets.superset

/-- The items of a pipeline are the one that it yields and those of `rest`. -/
theorem itemsBy_of_yield (answer : Request → Listing) {item : Item}
    (h : inner.step = .yield (.ok item) rest) :
    itemsBy answer inner = insert item (itemsBy answer rest) := by
  have hmeets : inner.step.Meets _ _ (itemsBy answer inner) := inner.meets_step
  rwa [h] at hmeets

/-- The items of what is left behind a request, with its answer, are items of the pipeline. -/
theorem itemsBy_of_ask {request : Request} {resume : Listing → Pipeline}
    (h : inner.step = .ask request resume) :
    itemsBy answer (resume (answer request)) ⊆ itemsBy answer inner := by
  have hmeets : inner.step.Meets _ _ (itemsBy answer inner) := inner.meets_step
  rw [h] at hmeets
  exact (hmeets (answer request)).1 subset_rfl

/-! ## Stages without a walk -/

/-- A `source` halts, as its list has an end. -/
theorem halts_source (answer : Request → Listing) {entries : List Entry}
    (hfail : ∀ failure, .error failure ∈ entries → mayFail) :
    Halts mayFail answer (source entries) := by
  induction entries with
  | nil => exact .finished rfl
  | cons entry entries ih =>
    cases entry with
    | error failure => exact .failed rfl (hfail failure (by simp))
    | ok item => exact .yield rfl (ih fun failure hmem => hfail failure (by simp [hmem]))

/-- A stage halts if the pipeline `inner` in front of it does. Failures, requests and silent steps
are passed on, so only what the stage does at the end (`finish`) and with each item (`onItem`) is
left to look at. The stage may change with the items it takes in; `state` is what it holds. -/
theorem Halts.through {State : Type} (stage : State → Pipeline → Pipeline)
    {finish : State → Step Pipeline} {onItem : State → Item → Pipeline → Step Pipeline}
    (hstage : ∀ state inner,
      (stage state inner).step = inner.step.through (stage state) (finish state) (onItem state))
    (hfinish : ∀ state pipeline, pipeline.step = finish state → Halts mayFail answer pipeline)
    (h : Halts mayFail answer inner)
    (hitem : ∀ item ∈ itemsBy answer inner, ∀ rest,
      (∀ state, Halts mayFail answer (stage state rest)) →
        ∀ state pipeline, pipeline.step = onItem state item rest → Halts mayFail answer pipeline)
    (state : State) : Halts mayFail answer (stage state inner) := by
  -- on the steps of `inner`: what is left of it comes to fewer items
  induction h generalizing state with
  | finished h => exact hfinish state _ (by rw [hstage, h]; rfl)
  | failed h hmay => exact .failed (by rw [hstage, h]; rfl) hmay
  | skip h _ ih =>
    exact .skip (by rw [hstage, h]; rfl)
      (ih (fun item hmem => hitem item (itemsBy_of_skip h hmem)) state)
  | ask h _ ih =>
    exact .ask (by rw [hstage, h]; rfl)
      (ih (fun item hmem => hitem item (itemsBy_of_ask h hmem)) state)
  | @yield pipeline rest item h _ ih =>
    have hitems := itemsBy_of_yield answer h
    have hrest := ih fun other hmem => hitem other (hitems ▸ .inr hmem)
    exact hitem item (hitems ▸ .inl rfl) rest hrest state _ (by rw [hstage, h]; rfl)

/-- A filter halts if `inner` does: an item that is dropped is a step without an item. -/
theorem halts_filtered {keep : String → Bool} (h : Halts mayFail answer inner) :
    Halts mayFail answer (filtered keep inner) := by
  refine h.through (fun _ : Unit => filtered keep) (fun _ _ => rfl)
    (fun _ _ hend => .finished hend) (fun item _ rest hrest _ next hnext => ?_) ()
  by_cases hkeep : keep item.path = true
  · rw [if_pos hkeep] at hnext
    exact .yield hnext (hrest ())
  · rw [if_neg hkeep] at hnext
    exact .skip hnext (hrest ())

/-- One more item does not keep a stage from its end: it is all that is left where `inner` has
ended. -/
theorem halts_extended {last : Item} (h : Halts mayFail answer inner) :
    Halts mayFail answer (extended last inner) :=
  h.through (fun _ : Unit => extended last) (fun _ _ => rfl)
    (fun _ _ hend => .yield hend (.finished rfl))
    (fun _ _ _ hrest _ _ hnext => .yield hnext (hrest ())) ()

/-- A stage that lists halts with a finite `listing` if it does with none, as its entries are
yielded before the next candidate is taken. -/
theorem halts_children_of_nil {kind : EntityKind}
    (h : Halts mayFail answer (children kind .nil inner)) {listing : Listing}
    (hlisting : listing.IsFinite mayFail) : Halts mayFail answer (children kind listing inner) := by
  obtain ⟨entries, rfl, hfail⟩ := hlisting
  induction entries with
  | nil => exact h
  | cons entry entries ih =>
    cases entry with
    | error failure => exact .failed rfl (hfail failure (by simp))
    | ok item => exact .yield rfl (ih fun failure hmem => hfail failure (by simp [hmem]))

/-- A stage that lists halts if `inner` does, and the listings of the directories to which `inner`
comes are finite (`hfinite`). -/
theorem halts_children {kind : EntityKind} (h : Halts mayFail answer inner)
    (hfinite : ∀ path ∈ directoryPaths (itemsBy answer inner),
      (answer ⟨kind, path⟩).IsFinite mayFail) :
    Halts mayFail answer (children kind .nil inner) := by
  refine h.through (fun _ : Unit => children kind .nil) (fun _ _ => by rw [step]; rfl)
    (fun _ _ hend => .finished hend) (fun item hitem rest hrest _ next hnext => ?_) ()
  by_cases hdir : item.isDirectory = true
  · -- a directory is listed, and its listing comes to an end
    rw [if_pos hdir] at hnext
    have hmem : item.path ∈ directoryPaths (itemsBy answer inner) := by
      rwa [Item.isDirectory_iff.1 hdir] at hitem
    exact .ask hnext (halts_children_of_nil (hrest ()) (hfinite item.path hmem))
  · rw [if_neg hdir] at hnext
    exact .skip hnext (hrest ())

/-! ## Walks -/

/-- The path of an entry that is a directory; `none` for files and failures. -/
def directoryIn? : Entry → Option String
  | .ok item => if item.isDirectory then some item.path else none
  | .error _ => none

/-- The paths of the directories among some entries, in order. -/
def directoriesIn (entries : List Entry) : List String :=
  entries.filterMap directoryIn?

/-- What `directoriesIn` gives stands among the entries as a directory. -/
theorem directory_mem_of_mem_directoriesIn {entries : List Entry} {path : String}
    (h : path ∈ directoriesIn entries) : .ok (.directory path) ∈ entries := by
  obtain ⟨entry, hentry, hpath⟩ := List.mem_filterMap.1 h
  cases entry with
  | error failure => simp [directoryIn?] at hpath
  | ok item =>
    obtain ⟨hdir, rfl⟩ : item.isDirectory = true ∧ item.path = path := by
      simpa [directoryIn?] using hpath
    rwa [← Item.isDirectory_iff.1 hdir]

/-- A walk with a listing halts if it does without one, once the directories in the listing have
joined the queue. -/
theorem halts_walking_of_joined {entries : List Entry}
    (hfail : ∀ failure, .error failure ∈ entries → mayFail) {queue : Queue String}
    (h : ∀ joined : Queue String, joined.toList = queue.toList ++ directoriesIn entries →
      Halts mayFail answer (walking none .nil joined)) :
    Halts mayFail answer (walking none (.finite entries) queue) := by
  induction entries generalizing queue with
  | nil => exact h queue (by simp [directoriesIn])
  | cons entry entries ih =>
    cases entry with
    | error failure => exact .failed rfl (hfail failure (by simp))
    | ok item =>
      refine .skip rfl (ih (fun failure hmem => hfail failure (by simp [hmem]))
        fun joined hjoined => h joined ?_)
      rw [hjoined, enqueue]
      cases hdir : item.isDirectory with
      | true => simp [directoriesIn, directoryIn?, hdir]
      | false => simp [directoriesIn, directoryIn?, hdir]

section FinitelyRanked

variable {safe : String → Prop} {rank : String → Nat}
  (hranked : FinitelyRanked mayFail answer safe rank)

include hranked

/-- Walks down one level. The directories in `front` have at most the rank `level`, and those in
`back`, which come from the listings of earlier ones in `front`, have a smaller one; when `front`
has been used up, all that wait have a smaller one. -/
theorem halts_walking_of_level {level : Nat}
    (hnext : ∀ queue : Queue String, (∀ path ∈ queue.toList, safe path ∧ rank path < level) →
      Halts mayFail answer (walking none .nil queue))
    {queue : Queue String} {front back : List String} (hqueue : queue.toList = front ++ back)
    (hfront : ∀ path ∈ front, safe path ∧ rank path ≤ level)
    (hback : ∀ path ∈ back, safe path ∧ rank path < level) :
    Halts mayFail answer (walking none .nil queue) := by
  induction front generalizing queue back with
  | nil => exact hnext queue (by rwa [hqueue])
  | cons path front ih =>
    obtain ⟨⟨hsafe, hrank⟩, hothers⟩ := List.forall_mem_cons.1 hfront
    rw [List.cons_append] at hqueue
    obtain ⟨rest, hpop, hrest⟩ := Queue.exists_pop?_of_toList hqueue
    obtain ⟨entries, hanswer, hfail⟩ := hranked.finite .directory (by simp) hsafe
    apply Halts.ask (step_walking_of_pop? hpop)
    rw [hanswer]
    -- the directory is yielded, and those in it wait behind `back`
    refine .yield rfl (halts_walking_of_joined hfail fun joined hjoined => ?_)
    rw [hrest, List.append_assoc] at hjoined
    refine ih hjoined hothers (List.forall_mem_append.2 ⟨hback, fun child hchild => ?_⟩)
    have hlisted : .directory child ∈ (answer ⟨.directory, path⟩).items := by
      rw [hanswer]
      exact directory_mem_of_mem_directoriesIn hchild
    exact ⟨hranked.listed .directory (by simp) hsafe hlisted,
      Nat.lt_of_lt_of_le (hranked.descends hsafe hlisted) hrank⟩

/-- A walk halts if safe directories wait in its queue: their ranks go down level by level. The
induction is on a bound of the ranks in the queue. -/
theorem halts_walking {queue : Queue String} (h : ∀ path ∈ queue.toList, safe path) :
    Halts mayFail answer (walking none .nil queue) := by
  have hlevels : ∀ level (queue : Queue String),
      (∀ path ∈ queue.toList, safe path ∧ rank path < level) →
        Halts mayFail answer (walking none .nil queue) := by
    intro level
    induction level with
    | zero =>
      -- no rank is less than zero, so nothing waits
      intro queue hqueue
      have hnil : queue.toList = [] :=
        List.eq_nil_iff_forall_not_mem.2 fun path hpath => Nat.not_lt_zero _ (hqueue path hpath).2
      exact .finished (step_walking_of_toList_eq_nil hnil)
    | succ level ih =>
      intro queue hqueue
      refine halts_walking_of_level hranked ih (List.append_nil _).symm (fun path hpath => ?_)
        (by simp)
      exact ⟨(hqueue path hpath).1, Nat.le_of_lt_succ (hqueue path hpath).2⟩
  -- a queue is finite, so one level is above all ranks in it
  obtain ⟨level, hlevel⟩ := ((List.finite_toSet queue.toList).image rank).bddAbove
  refine hlevels (level + 1) queue fun path hpath => ⟨h path hpath, ?_⟩
  exact Nat.lt_succ_of_le (hlevel (Set.mem_image_of_mem rank hpath))

/-- The stage of a `**` halts if `inner` does and comes to safe directories: they are gathered until
`inner` has ended, and then walked. -/
theorem halts_gathering (hinner : Halts mayFail answer inner)
    (hsafe : ∀ path ∈ directoryPaths (itemsBy answer inner), safe path) {queue : Queue String}
    (hqueue : ∀ path ∈ queue.toList, safe path) :
    Halts mayFail answer (gathering queue inner) := by
  -- the stage holds a queue of safe directories, whatever has been taken in
  refine hinner.through
    (fun waiting : {waiting : Queue String // ∀ path ∈ waiting.toList, safe path} =>
      gathering waiting.1)
    (fun _ _ => rfl) (fun waiting _ hend => .skip hend (halts_walking hranked waiting.2))
    (fun item hitem rest hrest waiting next hnext => ?_) ⟨queue, hqueue⟩
  refine .skip hnext (hrest ⟨enqueue waiting.1 item, fun path hpath => ?_⟩)
  rw [enqueue] at hpath
  cases hdir : item.isDirectory with
  | false => exact waiting.2 path (by simpa [hdir] using hpath)
  | true =>
    have hcases : path ∈ waiting.1.toList ∨ path = item.path := by simpa [hdir] using hpath
    rcases hcases with hpath | rfl
    · exact waiting.2 path hpath
    · apply hsafe
      rwa [Item.isDirectory_iff.1 hdir] at hitem

/-! ## Stages -/

/-- A pipeline halts and comes to safe directories only. -/
def HaltsSafely (mayFail : Prop) (answer : Request → Listing) (safe : String → Prop)
    (pipeline : Pipeline) : Prop :=
  Halts mayFail answer pipeline ∧ ∀ path ∈ directoryPaths (itemsBy answer pipeline), safe path

/-- The stage of a segment halts and comes to safe directories if what is in front of it does. The
root of a drive has to be safe (`hdevice`), as it is a directory that nobody has listed. -/
theorem haltsSafely_attach {segment : Segment}
    (hdevice : ∀ letter, segment = .device letter → safe (Segment.driveRoot letter))
    (h : HaltsSafely mayFail answer safe inner) :
    HaltsSafely mayFail answer safe (segment.attach inner) := by
  obtain ⟨hhalts, hsafe⟩ := h
  have hfinite : ∀ kind, kind ≠ .file → ∀ path ∈ directoryPaths (itemsBy answer inner),
      (answer ⟨kind, path⟩).IsFinite mayFail :=
    fun kind hkind path hpath => hranked.finite kind hkind (hsafe path hpath)
  rw [HaltsSafely, itemsBy, Segment.items_attach]
  refine ⟨?_, Segment.forall_directoryPaths_expand hranked.listed hdevice hsafe⟩
  cases segment with
  | root => exact halts_filtered hhalts
  | device letter => exact halts_extended hhalts
  | component c => exact halts_filtered (halts_children hhalts (hfinite _ (by simp)))
  | anyDirectory => exact halts_children hhalts (hfinite _ (by simp))
  | recursive => exact halts_gathering hranked hhalts hsafe (by simp)

/-- Stages one after the other halt and come to safe directories if what is in front of them does,
by `haltsSafely_attach` and induction on the segments. -/
theorem haltsSafely_foldl_attach {segments : List Segment}
    (hdevice : ∀ letter, .device letter ∈ segments → safe (Segment.driveRoot letter))
    (h : HaltsSafely mayFail answer safe inner) :
    HaltsSafely mayFail answer safe (segments.foldl Segment.attach inner) := by
  induction segments generalizing inner with
  | nil => exact h
  | cons segment segments ih =>
    refine ih (fun letter hmem => hdevice letter (by simp [hmem])) (haltsSafely_attach hranked ?_ h)
    rintro letter rfl
    exact hdevice letter (by simp)

/-- The pipeline of an alternative `Halts` if it starts from safe directories: its bases and the
roots of its drives. -/
theorem halts_pipeline {alternative : Alternative}
    (hdevice : ∀ letter, .device letter ∈ alternative.segments → safe (Segment.driveRoot letter))
    {bases : List String} (hbases : ∀ base ∈ bases, safe base) :
    Halts mayFail answer (alternative.pipeline bases) := by
  cases alternative with
  | literal path => exact halts_source answer (by simp)
  | steps segments =>
    have hsource : HaltsSafely mayFail answer safe
        (source (bases.map fun base => .ok (.directory base))) := by
      refine ⟨?_, fun path hpath => hbases path (by simpa [directoryPaths, items] using hpath)⟩
      exact halts_source answer (by simp)
    exact (haltsSafely_foldl_attach hranked hdevice hsource).1

end FinitelyRanked

section Stateless

variable {lister : Lister}
  (hlister : ∀ earlier request, lister.answer earlier request = answer request)

include hlister

/-- What a pipeline that `Ends` yields on the way is items, as there is no failure. -/
theorem Ends.exists_drains {pipeline : Pipeline} (h : pipeline.Ends answer)
    (requests : List Request) :
    ∃ items : List Item, Stream.Drains lister ⟨[pipeline], requests⟩ (items.map .ok) := by
  induction h generalizing requests with
  | finished h =>
    exact ⟨[], requests, .working (by rw [Stream.step]; simp only [h]) (.refl _)⟩
  | failed _ hmay => exact hmay.elim
  | skip h _ ih =>
    obtain ⟨items, later, hyields⟩ := ih requests
    exact ⟨items, later, .working (by rw [Stream.step]; simp only [h]) hyields⟩
  | @yield _ _ item h _ ih =>
    obtain ⟨items, later, hyields⟩ := ih requests
    exact ⟨item :: items, later, .entry (by rw [Stream.step]; simp only [h]) hyields⟩
  | @ask _ request _ h _ ih =>
    obtain ⟨items, later, hyields⟩ := ih (request :: requests)
    exact ⟨items, later, .working (by rw [Stream.step]; simp only [h, hlister]) hyields⟩

/-- What pipelines yield on the way is items if each of them `Ends`, one pipeline after the
other. -/
theorem exists_drains_of_forall_ends {pipelines : List Pipeline}
    (h : ∀ pipeline ∈ pipelines, pipeline.Ends answer) (requests : List Request) :
    ∃ items : List Item, Stream.Drains lister ⟨pipelines, requests⟩ (items.map .ok) := by
  induction pipelines with
  | nil => exact ⟨[], requests, .refl _⟩
  | cons pipeline pipelines ih =>
    obtain ⟨hfirst, hothers⟩ := List.forall_mem_cons.1 h
    obtain ⟨front, hfront⟩ := hfirst.exists_drains hlister requests
    obtain ⟨back, hback⟩ := ih hothers
    refine ⟨front ++ back, ?_⟩
    rw [List.map_append]
    exact hfront.append hlister hback

end Stateless

end Pipeline

namespace Stream

variable {lister : Lister} {stream rest : Stream}

/-- Every enumeration that takes its entries from the stream has a complete run. -/
def HasCompleteRun (lister : Lister) (stream : Stream) : Prop :=
  ∀ enumeration : Enumeration, enumeration.stream = stream →
    ∃ results, Enumeration.Completes lister enumeration results

/-- It is enough that every enumeration with the stream that is not `done` has a complete run, as
one that is done has that of no results. -/
theorem hasCompleteRun_of_forall (h : ∀ enumeration : Enumeration, enumeration.stream = stream →
    enumeration.done = false → ∃ results, Enumeration.Completes lister enumeration results) :
    stream.HasCompleteRun lister := by
  intro enumeration hstream
  cases hdone : enumeration.done with
  | false => exact h enumeration hstream hdone
  | true =>
    -- behind a failure the enumeration asks for nothing, whatever the stream holds
    exact ⟨[], Enumeration.completes_of_finished (by rw [Enumeration.step, if_pos hdone])⟩

/-- A stream that has ended has a complete run. -/
theorem hasCompleteRun_of_finished (h : stream.step lister = .finished) :
    stream.HasCompleteRun lister := by
  apply hasCompleteRun_of_forall
  intro enumeration hstream hdone
  rw [← hstream] at h
  exact ⟨[], Enumeration.completes_of_finished (Enumeration.step_of_stream_finished hdone h)⟩

/-- A stream whose step is `working rest` has a complete run if `rest` has one. -/
theorem hasCompleteRun_of_working (h : stream.step lister = .working rest)
    (hrest : rest.HasCompleteRun lister) : stream.HasCompleteRun lister := by
  apply hasCompleteRun_of_forall
  intro enumeration hstream hdone
  rw [← hstream] at h
  obtain ⟨results, hresults⟩ := hrest { enumeration with stream := rest } rfl
  exact ⟨results, .of_working (Enumeration.step_of_stream_working hdone h) hresults⟩

/-- A stream whose step is `entry` with `rest` has a complete run if `rest` has one, whether the
entry gives a result or not. -/
theorem hasCompleteRun_of_entry {entry : Entry} (h : stream.step lister = .entry entry rest)
    (hrest : rest.HasCompleteRun lister) : stream.HasCompleteRun lister := by
  apply hasCompleteRun_of_forall
  intro enumeration hstream hdone
  rw [← hstream] at h
  obtain ⟨next, hnext, ⟨result, hstep, -⟩ | ⟨hstep, -⟩⟩ :=
    Enumeration.step_of_stream_entry hdone h
  · -- a new path of the kind is a result, and any other entry is passed over
    obtain ⟨results, hresults⟩ := hrest next hnext
    exact ⟨result :: results, .of_result hstep hresults⟩
  · obtain ⟨results, hresults⟩ := hrest next hnext
    exact ⟨results, .of_working hstep hresults⟩

/-- A stream whose step yields a failure has a complete run, whatever `rest` holds: nothing is taken
from a stream after a failure. -/
theorem hasCompleteRun_of_failure {failure : ListingError}
    (h : stream.step lister = .entry (.error failure) rest) : stream.HasCompleteRun lister := by
  apply hasCompleteRun_of_forall
  intro enumeration hstream hdone
  rw [← hstream] at h
  have hstep : enumeration.step lister =
      .result (.error failure) { enumeration with stream := rest, done := true } := by
    rw [Enumeration.step, if_neg (by simp [hdone]), h]
  have hlast : Enumeration.Completes lister { enumeration with stream := rest, done := true } [] :=
    Enumeration.completes_of_finished (by rw [Enumeration.step, if_pos rfl])
  exact ⟨[.error failure], .of_result hstep hlast⟩

/-- A stream has a complete run if its first pipeline `Halts` and what is left behind it has one. -/
theorem hasCompleteRun_cons {mayFail : Prop} {answer : Request → Listing}
    (hlister : ∀ earlier request, lister.answer earlier request = answer request)
    {pipeline : Pipeline} {later : List Pipeline} (h : pipeline.Halts mayFail answer)
    (hlater : ∀ requests, HasCompleteRun lister ⟨later, requests⟩) (requests : List Request) :
    HasCompleteRun lister ⟨pipeline :: later, requests⟩ := by
  -- the step of the pipeline is the step of the stream
  induction h generalizing requests with
  | finished h => exact hasCompleteRun_of_working (step_of_finished h) (hlater requests)
  | failed h _ => exact hasCompleteRun_of_failure (step_of_yield h)
  | skip h _ ih => exact hasCompleteRun_of_working (step_of_skip h) (ih requests)
  | yield h _ ih => exact hasCompleteRun_of_entry (step_of_yield h) (ih requests)
  | ask h _ ih =>
    refine hasCompleteRun_of_working (step_of_ask h) ?_
    rw [hlister]
    exact ih _

/-- A stream has a complete run if each of its pipelines `Halts`, by induction on these. -/
theorem hasCompleteRun_of_forall_halts {mayFail : Prop} {answer : Request → Listing}
    (hlister : ∀ earlier request, lister.answer earlier request = answer request)
    {pipelines : List Pipeline} (h : ∀ pipeline ∈ pipelines, pipeline.Halts mayFail answer)
    (requests : List Request) : HasCompleteRun lister ⟨pipelines, requests⟩ := by
  induction pipelines generalizing requests with
  | nil => exact hasCompleteRun_of_finished rfl
  | cons pipeline later ih =>
    obtain ⟨hfirst, hothers⟩ := List.forall_mem_cons.1 h
    exact hasCompleteRun_cons hlister hfirst (ih hothers) requests

end Stream

namespace Enumeration

/-- An enumeration whose pipelines halt has a complete run, if its lister does not look back
(`hlister`). -/
theorem exists_completes_of_halts {mayFail : Prop} {answer : Request → Listing} {lister : Lister}
    (hlister : ∀ earlier request, lister.answer earlier request = answer request)
    {enumeration : Enumeration}
    (h : ∀ pipeline ∈ enumeration.stream.pipelines, pipeline.Halts mayFail answer) :
    ∃ results, Completes lister enumeration results :=
  Stream.hasCompleteRun_of_forall_halts hlister h enumeration.stream.requests enumeration rfl

/-- Of entries without a failure `resultsFrom` makes paths, each of them once. -/
theorem exists_resultsFrom_eq_map (enumeration : Enumeration) (items : List Item) :
    ∃ paths : List String, paths.Nodup ∧
      enumeration.resultsFrom (items.map .ok) = paths.map .ok := by
  have hentries : upToFailure (items.map .ok) = (items.map .ok : List Entry) :=
    upToFailure_eq_self (by simp)
  have hok : ∀ result ∈ enumeration.resultsFrom (items.map .ok), ∃ path, .ok path = result := by
    intro result hresult
    rw [resultsFrom, hentries] at hresult
    split at hresult
    · simp at hresult
    · -- a result comes from an entry, and all entries are items
      obtain ⟨hmem, -⟩ := List.mem_filter.1 (List.mem_eraseDups.1 hresult)
      obtain ⟨entry, hentry, hpath⟩ := List.mem_filterMap.1 hmem
      obtain ⟨item, -, rfl⟩ := List.mem_map.1 hentry
      rw [EntityKind.result?] at hpath
      split at hpath
      · exact ⟨item.path, Option.some.inj hpath⟩
      · simp at hpath
  have hnodup : (enumeration.resultsFrom (items.map .ok)).Nodup := by
    rw [resultsFrom]
    split
    · exact List.nodup_nil
    · exact nodup_eraseDups _
  have hrange : enumeration.resultsFrom (items.map .ok) ∈ Set.range (List.map Except.ok) := by
    rw [Set.range_list_map]
    exact hok
  obtain ⟨paths, hpaths⟩ := hrange
  rw [← hpaths] at hnodup ⊢
  exact ⟨paths, List.Nodup.of_map _ hnodup, rfl⟩

/-- An enumeration whose pipelines end has a complete run without a failure, if its lister does not
look back (`hlister`). -/
theorem exists_completes {answer : Request → Listing} {lister : Lister}
    (hlister : ∀ earlier request, lister.answer earlier request = answer request)
    {enumeration : Enumeration}
    (h : ∀ pipeline ∈ enumeration.stream.pipelines, pipeline.Ends answer) :
    ∃ paths : List String, paths.Nodup ∧ Completes lister enumeration (paths.map .ok) := by
  obtain ⟨items, hdrains⟩ :=
    Pipeline.exists_drains_of_forall_ends hlister h enumeration.stream.requests
  obtain ⟨paths, hnodup, hpaths⟩ := exists_resultsFrom_eq_map enumeration items
  refine ⟨paths, hnodup, ?_⟩
  rw [← hpaths]
  exact completes_of_drains hdrains

end Enumeration

end PathPatterns
