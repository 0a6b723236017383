import PathPatterns.Alternative
import PathPatterns.Lister
import PathPatterns.Queue

/-!
# Pipelines

Enumerating an alternative sends candidates through one stage for each segment. Nothing happens
ahead of need: a stage takes a candidate from the stage before it only when it is asked for an
entry, and a directory is listed only when its candidate is taken. One `step` does one thing and
says what it did: it yields an entry, asks the lister, or neither.

Failures pass every stage at their place.

## Main definitions

* `Pipeline.children`, `Pipeline.gathering`: the operation `children` and the recursive walk, one
  piece of work at a time.
* `Segment.attach`, `Alternative.pipeline`: the operation `enumerate` of a segment and that of a
  segment sequence.
-/

namespace PathPatterns

/-- What one step of a process with states `σ` does. -/
inductive Step (σ : Type)
  /-- There is nothing more to do. -/
  | finished
  /-- Goes on without a result. -/
  | skip (rest : σ)
  /-- Yields an entry. -/
  | yield (entry : Entry) (rest : σ)
  /-- Asks for a listing and goes on with it. -/
  | ask (request : Request) (resume : Listing → σ)

namespace Step

variable {σ τ : Type}

/-- What a stage does when the stage before it does `step`: failures, requests and silent steps are
passed on, `finish` follows the end, and `onItem` receives the items. -/
def through (step : Step σ) (wrap : σ → τ) (finish : Step τ) (onItem : Item → σ → Step τ) :
    Step τ :=
  match step with
  | finished => finish
  | skip rest => skip (wrap rest)
  | ask request resume => ask request fun listing => wrap (resume listing)
  | yield (.error failure) rest => yield (.error failure) (wrap rest)
  | yield (.ok item) rest => onItem item rest

end Step

/-- The stages that candidates pass, with what each of them holds. -/
inductive Pipeline
  /-- Yields the entries of a list. -/
  | source (pending : List Entry)
  /-- Drops the items whose path is not kept. -/
  | filtered (keep : String → Bool) (inner : Pipeline)
  /-- Yields one more item at the end. -/
  | extended (last : Item) (inner : Pipeline)
  /-- Replaces each directory by its entries of a kind, and drops other items; `current` holds the
  entries still to be yielded. -/
  | children (kind : EntityKind) (current : Listing) (inner : Pipeline)
  /-- Takes in all candidates and keeps the paths of the directories, to walk below them. -/
  | gathering (queue : Queue String) (inner : Pipeline)
  /-- Walks breadth first: `arrived` is a directory that has been listed and not yet yielded,
  `current` what is left of the last listing, `queue` the directories still to be listed. -/
  | walking (arrived : Option String) (current : Listing) (queue : Queue String)

namespace Pipeline

/-- The queue after a candidate: directories join it at the end, other items are passed over. -/
def enqueue (queue : Queue String) (item : Item) : Queue String :=
  if item.isDirectory then queue.push item.path else queue

/-- Does one thing: takes an entry from the listing that is held, or from the stage before, or asks
for the next listing. -/
def step : Pipeline → Step Pipeline
  | source [] => .finished
  | source (entry :: rest) => .yield entry (source rest)
  | filtered keep inner =>
    inner.step.through (filtered keep) .finished fun item rest =>
      if keep item.path then .yield (.ok item) (filtered keep rest)
      else .skip (filtered keep rest)
  | extended last inner =>
    -- the last item comes once, and nothing after it
    inner.step.through (extended last) (.yield (.ok last) (source [])) fun item rest =>
      .yield (.ok item) (extended last rest)
  | children kind current inner =>
    match current.uncons with
    | some (entry, rest) => .yield entry (children kind rest inner)
    | none =>
      -- the listing has ended: take the next candidate, and list it if it is a directory
      inner.step.through (children kind .nil) .finished fun item rest =>
        if item.isDirectory then
          .ask ⟨kind, item.path⟩ fun listing => children kind listing rest
        else .skip (children kind .nil rest)
  | gathering queue inner =>
    inner.step.through (gathering queue) (.skip (walking none .nil queue)) fun item rest =>
      .skip (gathering (enqueue queue item) rest)
  | walking (some path) current queue =>
    -- a directory is yielded before its entries are looked at
    .yield (.ok (.directory path)) (walking none current queue)
  | walking none current queue =>
    match current.uncons with
    | some (.ok item, rest) => .skip (walking none rest (enqueue queue item))
    | some (.error failure, rest) => .yield (.error failure) (walking none rest queue)
    | none =>
      match queue.pop? with
      | none => .finished
      | some (path, queue) =>
        .ask ⟨.directory, path⟩ fun listing => walking (some path) listing queue

/-- A walk that has looked at all entries ends if no directory waits. -/
theorem step_walking_of_toList_eq_nil {queue : Queue String} (h : queue.toList = []) :
    (walking none .nil queue).step = .finished := by
  rw [step]
  simp only [Listing.uncons_nil, Queue.pop?_eq_none_iff.2 h]

/-- A walk that has looked at all entries lists the first of the directories that wait. -/
theorem step_walking_of_pop? {queue rest : Queue String} {path : String}
    (h : queue.pop? = some (path, rest)) :
    (walking none .nil queue).step =
      .ask ⟨.directory, path⟩ fun listing => walking (some path) listing rest := by
  rw [step]
  simp only [Listing.uncons_nil, h]

end Pipeline

namespace Segment

/-- The root directory of a drive, with the separator that a root keeps. -/
def driveRoot (letter : Char) : String :=
  String.ofList [letter, ':', Path.separator]

/-- The pipeline with the stage of a segment at its end. Only `root` and a component drop items; a
device adds the root of its drive behind the candidates that come to it. -/
def attach (inner : Pipeline) : Segment → Pipeline
  | root => .filtered Path.isRoot inner
  | device letter => .extended (.directory (driveRoot letter)) inner
  | component c => .filtered c.matchesPath (.children .fileOrDirectory .nil inner)
  | anyDirectory => .children .directory .nil inner
  | recursive => .gathering .empty inner

end Segment

namespace Alternative

/-- The pipeline of an alternative: a `literal` path yields itself as a file and asks for nothing,
`steps` are applied to the base directories one after the other. -/
def pipeline (bases : List String) : Alternative → Pipeline
  | literal path => .source [.ok (.file path)]
  | steps segments =>
    segments.foldl Segment.attach (.source (bases.map fun base => .ok (.directory base)))

end Alternative

end PathPatterns
