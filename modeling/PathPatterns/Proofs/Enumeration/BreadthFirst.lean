import PathPatterns.Proofs.Enumeration.Ends

/-!
# The order of a walk

A `**` first takes in all candidates and passes their failures on. Then it visits directories: it
yields the one whose turn it is, lists it, passes the failures of the listing on, and puts the
directories of the listing behind those that wait already. Candidates and listings may hold items
and failures in any order, and the answer of the lister may depend on what it was asked before.

## Main definitions

* `BreadthFirst`: the directories that a walk visits, with their listings, in order.

## Main results

* `breadthFirst_cons_iff`: the first directory that waits is visited, and those in it wait behind
  the others.
* `yields_walking_iff`: what a walk yields from a queue on.
* `yields_recursive_iff`: what a `**` yields behind any finite candidates.
-/

namespace PathPatterns

namespace Stream

variable {lister : Lister} {pipeline rest : Pipeline} {earlier requests : List Request}
  {entries : List Entry}

/-- A stream without pipelines has ended: it `Yields` nothing and asks for nothing. -/
theorem yields_nil_iff :
    Yields lister ⟨[], earlier⟩ entries ⟨[], requests⟩ ↔ entries = [] ∧ requests = earlier := by
  constructor
  · intro h
    cases h with
    | refl => exact ⟨rfl, rfl⟩
    | working first _ => simp [step] at first
    | entry first _ => simp [step] at first
  · rintro ⟨rfl, rfl⟩
    exact .refl _

/-- If the step of `stream` is `working`, it `Yields` what the stream behind the step does, unless
it is `last` and stops there. -/
theorem yields_iff_of_working {stream next last : Stream}
    (h : stream.step lister = .working next) (hne : stream ≠ last) :
    Yields lister stream entries last ↔ Yields lister next entries last := by
  refine ⟨fun hyields => ?_, .working h⟩
  cases hyields with
  | refl => exact absurd rfl hne
  | working first rest =>
    rw [h] at first
    rwa [Progress.working.inj first]
  | entry first _ => simp [h] at first

/-- A pipeline that has `finished` is left behind with its stream at the end. -/
theorem yields_iff_of_finished (h : pipeline.step = .finished) :
    Yields lister ⟨[pipeline], earlier⟩ entries ⟨[], requests⟩ ↔
      entries = [] ∧ requests = earlier :=
  (yields_iff_of_working (step_of_finished h) (by simp)).trans yields_nil_iff

/-- A pipeline whose step is `skip rest` yields what `rest` yields. -/
theorem yields_iff_of_skip (h : pipeline.step = .skip rest) :
    Yields lister ⟨[pipeline], earlier⟩ entries ⟨[], requests⟩ ↔
      Yields lister ⟨[rest], earlier⟩ entries ⟨[], requests⟩ :=
  yields_iff_of_working (step_of_skip h) (by simp)

/-- A pipeline whose step is `ask request resume` yields what `resume` makes of the answer yields,
and the request is noted. -/
theorem yields_iff_of_ask {request : Request} {resume : Listing → Pipeline}
    (h : pipeline.step = .ask request resume) :
    Yields lister ⟨[pipeline], earlier⟩ entries ⟨[], requests⟩ ↔
      Yields lister ⟨[resume (lister.answer earlier request)], request :: earlier⟩ entries
        ⟨[], requests⟩ :=
  yields_iff_of_working (step_of_ask h) (by simp)

/-- A pipeline whose step is `yield entry rest` yields that entry before those of `rest`. -/
theorem yields_iff_of_yield {entry : Entry} (h : pipeline.step = .yield entry rest) :
    Yields lister ⟨[pipeline], earlier⟩ entries ⟨[], requests⟩ ↔
      ∃ more, entries = entry :: more ∧ Yields lister ⟨[rest], earlier⟩ more ⟨[], requests⟩ := by
  have hstep : step lister ⟨[pipeline], earlier⟩ = .entry entry ⟨[rest], earlier⟩ :=
    step_of_yield h
  constructor
  · intro hyields
    cases hyields with
    | working first _ => simp [hstep] at first
    | entry first others =>
      rw [hstep] at first
      obtain ⟨rfl, rfl⟩ := Progress.entry.inj first
      exact ⟨_, rfl, others⟩
  · rintro ⟨more, rfl, hmore⟩
    exact .entry hstep hmore

/-- The entries of a `source` are yielded as they are, and nothing is asked for. -/
theorem yields_source (lister : Lister) (entries : List Entry) (earlier : List Request) :
    Yields lister ⟨[.source entries], earlier⟩ entries ⟨[], earlier⟩ := by
  induction entries with
  | nil => exact (yields_iff_of_finished rfl).2 ⟨rfl, rfl⟩
  | cons entry entries ih => exact (yields_iff_of_yield rfl).2 ⟨entries, rfl, ih⟩

end Stream

open Pipeline (directoriesIn)

open PathPatterns.Stream

/-- The failures among some entries, in order, without the items. -/
def failuresIn (entries : List Entry) : List Entry :=
  entries.filter fun entry => !entry.toBool

/-- A directory and the entries that it is listed with when a walk comes to it. -/
structure Visit where
  /-- The path of the directory. -/
  path : String
  /-- The entries of its listing. -/
  listing : List Entry

namespace Visit

/-- The directories in a directory that is visited, in the order of its listing. -/
def children (visit : Visit) : List String :=
  directoriesIn visit.listing

/-- What is yielded when a directory is visited: the directory, and the failures of its listing. -/
def yielded (visit : Visit) : List Entry :=
  .ok (.directory visit.path) :: failuresIn visit.listing

/-- The request that lists the directories in a directory. -/
def request (visit : Visit) : Request :=
  ⟨.directory, visit.path⟩

/-- The requests of some visits, last first. -/
def requests (visits : List Visit) : List Request :=
  (visits.map request).reverse

end Visit

/-- The visits of a walk, if the directories `start` wait for it and the requests `earlier` have
been made. -/
structure BreadthFirst (lister : Lister) (earlier : List Request) (start : List String)
    (visits : List Visit) : Prop where
  /-- The directories at the start come first, and then those in the first directory, those in the
  second one, and so on. -/
  order : visits.map Visit.path = start ++ visits.flatMap Visit.children
  /-- A directory that is visited is among those at the start or in the directories before it. -/
  waits : ∀ before visit after, visits = before ++ visit :: after →
    before.length < (start ++ before.flatMap Visit.children).length
  /-- Each directory is listed after those before it. -/
  listed : ∀ before visit after, visits = before ++ visit :: after →
    lister.answer (Visit.requests before ++ earlier) visit.request = .finite visit.listing

section BreadthFirst

variable {lister : Lister} {earlier : List Request} {path : String} {waiting : List String}
  {visits : List Visit}

/-- Where no directory waits, `BreadthFirst` visits nothing. -/
theorem breadthFirst_nil_iff : BreadthFirst lister earlier [] visits ↔ visits = [] := by
  constructor
  · intro h
    cases visits with
    | nil => rfl
    | cons visit visits => exact absurd (h.waits [] visit visits rfl) (by simp)
  · rintro rfl
    exact ⟨rfl, by simp, by simp⟩

/-- The first directory that waits is visited, with the `listing` of the lister's answer, and those
in it wait behind the others, with one more request made. -/
theorem breadthFirst_cons_iff :
    BreadthFirst lister earlier (path :: waiting) visits ↔
      ∃ listing others, visits = ⟨path, listing⟩ :: others ∧
        lister.answer earlier ⟨.directory, path⟩ = .finite listing ∧
          BreadthFirst lister (⟨.directory, path⟩ :: earlier) (waiting ++ directoriesIn listing)
            others := by
  have hrequests : ∀ (visit : Visit) before,
      Visit.requests (visit :: before) ++ earlier =
        Visit.requests before ++ visit.request :: earlier := by
    intro visit before
    simp [Visit.requests]
  constructor
  · -- the order says which directory is visited first
    intro h
    cases visits with
    | nil => exact absurd h.order (by simp)
    | cons visit others =>
      obtain ⟨rfl, horder⟩ := List.cons.inj h.order
      refine ⟨visit.listing, others, rfl, h.listed [] visit others rfl, ?_, ?_, ?_⟩
      · rw [horder, List.flatMap_cons, List.append_assoc]
        rfl
      · rintro before next after rfl
        have hwaits := h.waits (visit :: before) next after rfl
        simp only [List.cons_append, List.flatMap_cons, List.length_cons, List.length_append,
          Visit.children] at hwaits ⊢
        omega
      · rintro before next after rfl
        have hlisted := h.listed (visit :: before) next after rfl
        rwa [hrequests] at hlisted
  · rintro ⟨listing, others, rfl, hanswer, h⟩
    refine ⟨?_, fun before visit after hvisits => ?_, fun before visit after hvisits => ?_⟩
    · rw [List.map_cons, h.order, List.flatMap_cons, List.append_assoc]
      rfl
    · cases before with
      | nil => simp
      | cons first before =>
        obtain ⟨rfl, hothers⟩ := List.cons.inj hvisits
        have hwaits := h.waits before visit after hothers
        simp only [List.cons_append, List.flatMap_cons, List.length_cons, List.length_append,
          Visit.children] at hwaits ⊢
        omega
    · cases before with
      | nil =>
        obtain ⟨rfl, -⟩ := List.cons.inj hvisits
        exact hanswer
      | cons first before =>
        obtain ⟨rfl, hothers⟩ := List.cons.inj hvisits
        rw [hrequests]
        exact h.listed before visit after hothers

end BreadthFirst

namespace Pipeline

variable {lister : Lister} {earlier between requests : List Request} {queue : Queue String}
  {entries listing candidates : List Entry}

/-- The queue after some entries: the directories among them join it in order. -/
def enqueueAll (queue : Queue String) (entries : List Entry) : Queue String :=
  (directoriesIn entries).foldl Queue.push queue

/-- `enqueueAll` puts the directories among the entries behind those that wait. -/
@[simp]
theorem toList_enqueueAll (queue : Queue String) (entries : List Entry) :
    (enqueueAll queue entries).toList = queue.toList ++ directoriesIn entries := by
  rw [enqueueAll]
  generalize directoriesIn entries = paths
  induction paths generalizing queue with
  | nil => simp
  | cons path paths ih => simp [ih]

/-- An item in front of the entries joins the queue before them by `enqueue`, if it is a
directory. -/
theorem enqueueAll_ok_cons (item : Item) :
    enqueueAll queue (.ok item :: entries) = enqueueAll (enqueue queue item) entries := by
  rw [enqueueAll, enqueueAll, enqueue, directoriesIn, List.filterMap_cons, directoryIn?]
  cases item.isDirectory <;> rfl

theorem enqueueAll_error_cons (failure : ListingError) :
    enqueueAll queue (.error failure :: entries) = enqueueAll queue entries := rfl

/-- An `endless` listing is never left behind, so the walk does not come to its end. -/
theorem not_yields_of_endless {next : Nat → Entry} :
    ¬ Yields lister ⟨[walking none (.endless next) queue], earlier⟩ entries ⟨[], requests⟩ := by
  intro h
  generalize hfirst : (⟨[walking none (.endless next) queue], earlier⟩ : Stream) = first at h
  generalize hlast : (⟨[], requests⟩ : Stream) = last at h
  -- every step leaves a listing that goes on for ever
  induction h generalizing next queue with
  | refl =>
    subst hlast
    simp at hfirst
  | working hstep _ ih =>
    subst hfirst
    cases hentry : next 0 with
    | ok item =>
      simp only [Stream.step, Pipeline.step, Listing.uncons, hentry] at hstep
      exact ih (Progress.working.inj hstep) hlast
    | error failure => simp [Stream.step, Pipeline.step, Listing.uncons, hentry] at hstep
  | entry hstep _ ih =>
    subst hfirst
    cases hentry : next 0 with
    | ok item => simp [Stream.step, Pipeline.step, Listing.uncons, hentry] at hstep
    | error failure =>
      simp only [Stream.step, Pipeline.step, Listing.uncons, hentry] at hstep
      exact ih (Progress.entry.inj hstep).2 hlast

/-- A `finite` listing is used up before the next directory is visited: `failuresIn` the listing are
yielded, and its directories join the queue. -/
theorem yields_walking_finite_iff :
    Yields lister ⟨[walking none (.finite listing) queue], earlier⟩ entries ⟨[], requests⟩ ↔
      ∃ more, entries = failuresIn listing ++ more ∧
        Yields lister ⟨[walking none .nil (enqueueAll queue listing)], earlier⟩ more
          ⟨[], requests⟩ := by
  induction listing generalizing queue entries with
  | nil => simp [failuresIn, enqueueAll, directoriesIn, Listing.nil]
  | cons entry listing ih =>
    cases entry with
    | ok item =>
      rw [yields_iff_of_skip rfl, ih, enqueueAll_ok_cons]
      rfl
    | error failure =>
      rw [yields_iff_of_yield rfl, enqueueAll_error_cons]
      simp only [ih]
      constructor
      · rintro ⟨_, rfl, more, rfl, hmore⟩
        exact ⟨more, rfl, hmore⟩
      · rintro ⟨more, rfl, hmore⟩
        exact ⟨_, rfl, more, rfl, hmore⟩

section Gathering

variable {inner rest : Pipeline}

/-- When the stage in front has `finished`, the walk begins with the directories that wait. -/
theorem step_gathering_of_finished (h : inner.step = .finished) :
    (gathering queue inner).step = .skip (walking none .nil queue) := by
  rw [step, h]
  rfl

theorem step_gathering_of_skip (h : inner.step = .skip rest) :
    (gathering queue inner).step = .skip (gathering queue rest) := by
  rw [step, h]
  rfl

theorem step_gathering_of_ask {request : Request} {resume : Listing → Pipeline}
    (h : inner.step = .ask request resume) :
    (gathering queue inner).step =
      .ask request fun listing => gathering queue (resume listing) := by
  rw [step, h]
  rfl

theorem step_gathering_of_ok {item : Item} (h : inner.step = .yield (.ok item) rest) :
    (gathering queue inner).step = .skip (gathering (enqueue queue item) rest) := by
  rw [step, h]
  rfl

theorem step_gathering_of_error {failure : ListingError}
    (h : inner.step = .yield (.error failure) rest) :
    (gathering queue inner).step = .yield (.error failure) (gathering queue rest) := by
  rw [step, h]
  rfl

end Gathering

/-- All candidates are taken in before the first directory is visited: their failures are yielded,
and the directories among them join the queue. The requests of the stages in front come first
(`between`). -/
theorem yields_gathering_iff {inner : Pipeline}
    (h : Yields lister ⟨[inner], earlier⟩ candidates ⟨[], between⟩) :
    Yields lister ⟨[gathering queue inner], earlier⟩ entries ⟨[], requests⟩ ↔
      ∃ more, entries = failuresIn candidates ++ more ∧
        Yields lister ⟨[walking none .nil (enqueueAll queue candidates)], between⟩ more
          ⟨[], requests⟩ := by
  generalize hfirst : (⟨[inner], earlier⟩ : Stream) = first at h
  generalize hlast : (⟨[], between⟩ : Stream) = last at h
  -- on the steps of the stages in front
  induction h generalizing queue inner earlier entries with
  | refl =>
    subst hlast
    simp at hfirst
  | @working _ next _ _ hstep hrest ih =>
    subst hfirst hlast
    simp only [Stream.step] at hstep
    cases hinner : inner.step with
    | finished =>
      -- the candidates have come to their end, and the walk begins
      rw [hinner] at hstep
      obtain rfl := Progress.working.inj hstep
      obtain ⟨rfl, rfl⟩ := yields_nil_iff.1 hrest
      rw [yields_iff_of_skip (step_gathering_of_finished hinner)]
      simp [failuresIn, enqueueAll, directoriesIn]
    | skip rest =>
      rw [hinner] at hstep
      rw [yields_iff_of_skip (step_gathering_of_skip hinner)]
      exact ih (Progress.working.inj hstep) rfl
    | yield entry rest => simp [hinner] at hstep
    | ask request resume =>
      rw [hinner] at hstep
      rw [yields_iff_of_ask (step_gathering_of_ask hinner)]
      exact ih (Progress.working.inj hstep) rfl
  | @entry _ next _ entry candidates hstep hrest ih =>
    subst hfirst hlast
    simp only [Stream.step] at hstep
    cases hinner : inner.step with
    | yield yielded rest =>
      rw [hinner] at hstep
      obtain ⟨rfl, hnext⟩ := Progress.entry.inj hstep
      cases yielded with
      | ok item =>
        -- a directory joins the queue, and no other item is kept
        rw [yields_iff_of_skip (step_gathering_of_ok hinner), ih hnext rfl, enqueueAll_ok_cons]
        rfl
      | error failure =>
        -- a failure is yielded at once, in front of all that the walk yields
        rw [yields_iff_of_yield (step_gathering_of_error hinner), enqueueAll_error_cons]
        simp only [ih hnext rfl]
        constructor
        · rintro ⟨_, rfl, more, rfl, hmore⟩
          exact ⟨more, rfl, hmore⟩
        · rintro ⟨more, rfl, hmore⟩
          exact ⟨_, rfl, more, rfl, hmore⟩
    | _ => simp [hinner] at hstep

/-- The first directory in the queue is listed, and then yielded; the listing is `finite`, as the
walk comes to its end. -/
theorem yields_walking_iff_of_pop? {path : String} {rest : Queue String}
    (h : queue.pop? = some (path, rest)) :
    Yields lister ⟨[walking none .nil queue], earlier⟩ entries ⟨[], requests⟩ ↔
      ∃ listing more, lister.answer earlier ⟨.directory, path⟩ = .finite listing ∧
        entries = .ok (.directory path) :: (failuresIn listing ++ more) ∧
          Yields lister ⟨[walking none .nil (enqueueAll rest listing)],
            ⟨.directory, path⟩ :: earlier⟩ more ⟨[], requests⟩ := by
  rw [yields_iff_of_ask (step_walking_of_pop? h), yields_iff_of_yield rfl]
  cases lister.answer earlier ⟨.directory, path⟩ with
  | finite listing =>
    simp only [yields_walking_finite_iff, Listing.finite.injEq]
    constructor
    · rintro ⟨_, rfl, more, rfl, hmore⟩
      exact ⟨listing, more, rfl, rfl, hmore⟩
    · rintro ⟨_, more, rfl, rfl, hmore⟩
      exact ⟨_, rfl, more, rfl, hmore⟩
  | endless next => simp [not_yields_of_endless]

/-- From a queue on, a walk visits directories in the order that `BreadthFirst` tells, by induction
on the steps of the stream for one direction and on the visits for the other. -/
theorem yields_walking_iff :
    Yields lister ⟨[walking none .nil queue], earlier⟩ entries ⟨[], requests⟩ ↔
      ∃ visits, BreadthFirst lister earlier queue.toList visits ∧
        entries = visits.flatMap Visit.yielded ∧ requests = Visit.requests visits ++ earlier := by
  -- on the entries, as each visit yields at least one
  induction hlength : entries.length using Nat.strong_induction_on
    generalizing queue earlier entries with
  | _ length ih =>
    subst hlength
    cases hpop : queue.pop? with
    | none =>
      have hnil := Queue.pop?_eq_none_iff.1 hpop
      rw [yields_iff_of_finished (step_walking_of_toList_eq_nil hnil), hnil]
      simp [breadthFirst_nil_iff, Visit.requests]
    | some first =>
      obtain ⟨path, rest⟩ := first
      rw [yields_walking_iff_of_pop? hpop, Queue.toList_of_pop? hpop]
      constructor
      · rintro ⟨listing, more, hanswer, rfl, hmore⟩
        have hshorter : more.length < (.ok (.directory path) :: (failuresIn listing ++ more) :
            List Entry).length := by
          simp only [List.length_cons, List.length_append]
          omega
        obtain ⟨others, hothers, rfl, rfl⟩ := (ih more.length hshorter rfl).1 hmore
        refine ⟨⟨path, listing⟩ :: others, breadthFirst_cons_iff.2
          ⟨listing, others, rfl, hanswer, by simpa using hothers⟩, ?_, ?_⟩
        · simp [Visit.yielded]
        · simp [Visit.requests, Visit.request]
      · rintro ⟨visits, hvisits, rfl, rfl⟩
        obtain ⟨listing, others, rfl, hanswer, hothers⟩ := breadthFirst_cons_iff.1 hvisits
        have hshorter : (others.flatMap Visit.yielded).length <
            ((⟨path, listing⟩ :: others).flatMap Visit.yielded).length := by
          simp only [List.flatMap_cons, Visit.yielded, List.cons_append, List.length_cons,
            List.length_append]
          omega
        refine ⟨listing, others.flatMap Visit.yielded, hanswer, by simp [Visit.yielded], ?_⟩
        refine (ih _ hshorter rfl).2 ⟨others, by simpa using hothers, rfl, ?_⟩
        simp [Visit.requests, Visit.request]

/-- Behind finite `candidates`, a `**` yields the failures among them and then what its visits
yield, in the order that `BreadthFirst` tells from the directories among the candidates on. It asks
for one listing a visit. Both directions hold: a `**` comes to its end with these entries and
requests exactly if there are such visits. -/
theorem yields_recursive_iff {inner : Pipeline}
    (h : Yields lister ⟨[inner], earlier⟩ candidates ⟨[], between⟩) :
    Yields lister ⟨[Segment.recursive.attach inner], earlier⟩ entries ⟨[], requests⟩ ↔
      ∃ visits, BreadthFirst lister between (directoriesIn candidates) visits ∧
        entries = failuresIn candidates ++ visits.flatMap Visit.yielded ∧
          requests = Visit.requests visits ++ between := by
  rw [Segment.attach, yields_gathering_iff h]
  simp only [yields_walking_iff, toList_enqueueAll, Queue.toList_empty, List.nil_append]
  constructor
  · rintro ⟨_, rfl, visits, hvisits, rfl, hrequests⟩
    exact ⟨visits, hvisits, rfl, hrequests⟩
  · rintro ⟨visits, hvisits, rfl, hrequests⟩
    exact ⟨_, rfl, visits, hvisits, rfl, hrequests⟩

/-- A listing with a failure between two directories. -/
def failingHalfway : List Entry :=
  [.ok (.directory "/w/a"), .error ⟨.notFound, "x"⟩, .ok (.file "/w/c"), .ok (.directory "/w/b")]

/-- The hypothesis of `yields_recursive_iff` holds of two candidates with a failure between them.
The failures in front and in a listing come where they stand, and the directories level by level. -/
theorem yields_recursive_failingHalfway :
    Yields (.ofTable [("/w", failingHalfway)] false)
      ⟨[Segment.recursive.attach
        (.source [.ok (.directory "/w"), .error ⟨.timedOut, "y"⟩, .ok (.directory "/v")])], []⟩
      [.error ⟨.timedOut, "y"⟩, .ok (.directory "/w"), .error ⟨.notFound, "x"⟩,
        .ok (.directory "/v"), .ok (.directory "/w/a"), .ok (.directory "/w/b")]
      ⟨[], [⟨.directory, "/w/b"⟩, ⟨.directory, "/w/a"⟩, ⟨.directory, "/v"⟩,
        ⟨.directory, "/w"⟩]⟩ := by
  refine (yields_recursive_iff (yields_source _ _ _)).2
    ⟨[⟨"/w", failingHalfway⟩, ⟨"/v", []⟩, ⟨"/w/a", []⟩, ⟨"/w/b", []⟩], ?_, rfl, rfl⟩
  -- the directories in `/w` wait behind `/v`
  refine breadthFirst_cons_iff.2 ⟨_, _, rfl, rfl, ?_⟩
  refine breadthFirst_cons_iff.2 ⟨_, _, rfl, rfl, ?_⟩
  refine breadthFirst_cons_iff.2 ⟨_, _, rfl, rfl, ?_⟩
  refine breadthFirst_cons_iff.2 ⟨_, _, rfl, rfl, ?_⟩
  exact breadthFirst_nil_iff.2 rfl

end Pipeline

end PathPatterns
