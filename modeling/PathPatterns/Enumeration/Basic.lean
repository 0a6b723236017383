import Std.Data.ExtTreeSet
import PathPatterns.Enumeration.Stream
import PathPatterns.Glob

/-!
# Enumerating a glob

An enumeration yields the paths of the entities that a glob finds below some base directories. It
keeps the entities of the kind that is asked for, yields each path once, and ends with the first
failure. It does no more work than the next path needs.

## Main definitions

* `Glob.enumerate`: the operation `enumerate` of a glob; `enumerate_files` and
  `enumerate_directories` are its cases for one kind.
* `Enumeration.advance`: the operation `next` of the matches of a glob.

## Main results

* `step_cases`: what a step of an enumeration makes of the step of its stream.
* `advance_of_done`: an enumeration that has ended yields nothing and asks for nothing.
* `advance_add`: an advance that has come to something comes to the same in more steps.
-/

namespace PathPatterns

/-- The state of an enumeration. -/
structure Enumeration where
  /-- The kind of the entities to yield. -/
  kind : EntityKind
  /-- The entries still to come. -/
  stream : Stream
  /-- The paths yielded so far. -/
  seen : Std.ExtTreeSet String
  /-- Whether the enumeration has ended. -/
  done : Bool

/-- The enumeration of the entities of a kind that a glob finds below base directories. It has done
nothing yet, so nothing has been asked for. -/
def Glob.enumerate (glob : Glob) (kind : EntityKind) (bases : List String) : Enumeration where
  kind := kind
  stream := { pipelines := glob.alternatives.map (·.pipeline bases), requests := [] }
  seen := ∅
  done := false

namespace Enumeration

/-- What one step of an enumeration does. -/
inductive Progress
  /-- The enumeration has ended. -/
  | finished (rest : Enumeration)
  /-- Goes on without a result. -/
  | working (rest : Enumeration)
  /-- Yields a path or the failure that ends the enumeration. -/
  | result (result : Except ListingError String) (rest : Enumeration)

/-- Does one thing, with the answers of a lister. A path that is in `seen` is not yielded again, and
a failure ends the enumeration. -/
def step (lister : Lister) (enumeration : Enumeration) : Progress :=
  if enumeration.done then .finished enumeration
  else
    match enumeration.stream.step lister with
    | .finished => .finished { enumeration with done := true }
    | .working stream => .working { enumeration with stream }
    | .entry (.error failure) stream =>
      .result (.error failure) { enumeration with stream, done := true }
    | .entry (.ok item) stream =>
      -- the kind is looked at first: an item of another kind does not mark its path as seen
      if enumeration.kind.accepts item.kind && !enumeration.seen.contains item.path then
        .result (.ok item.path)
          { enumeration with stream, seen := enumeration.seen.insert item.path }
      else .working { enumeration with stream }

/-- What an advance gives. -/
inductive Advance
  /-- The enumeration has ended. -/
  | finished (rest : Enumeration)
  /-- The next path, or the failure that ends the enumeration. -/
  | result (result : Except ListingError String) (rest : Enumeration)
  /-- The steps were used up before either. -/
  | unfinished (rest : Enumeration)

/-- Goes on to the next result or the end, in at most `steps` steps. -/
def advance (lister : Lister) : (steps : Nat) → Enumeration → Advance
  | 0, enumeration => .unfinished enumeration
  | steps + 1, enumeration =>
    match enumeration.step lister with
    | .finished rest => .finished rest
    | .result result rest => .result result rest
    | .working rest => advance lister steps rest

/-- The requests that lead from the state `earlier` of an enumeration to a later one, in order. -/
def requestsSince (earlier later : Enumeration) : List Request :=
  (later.stream.requests.take
    (later.stream.requests.length - earlier.stream.requests.length)).reverse

/-- What a `step` of an enumeration that goes on makes of the step of its stream. An item is passed
over if it is of another kind or if its path is in `seen`. -/
theorem step_cases (lister : Lister) {enumeration : Enumeration} (h : enumeration.done = false) :
    (enumeration.stream.step lister = .finished ∧
      enumeration.step lister = .finished { enumeration with done := true }) ∨
    (∃ stream, enumeration.stream.step lister = .working stream ∧
      enumeration.step lister = .working { enumeration with stream }) ∨
    (∃ failure stream, enumeration.stream.step lister = .entry (.error failure) stream ∧
      enumeration.step lister =
        .result (.error failure) { enumeration with stream, done := true }) ∨
    (∃ item stream, enumeration.stream.step lister = .entry (.ok item) stream ∧
      enumeration.kind.accepts item.kind = true ∧ item.path ∉ enumeration.seen ∧
      enumeration.step lister = .result (.ok item.path)
        { enumeration with stream, seen := enumeration.seen.insert item.path }) ∨
    ∃ item stream, enumeration.stream.step lister = .entry (.ok item) stream ∧
      (enumeration.kind.accepts item.kind = true → item.path ∈ enumeration.seen) ∧
      enumeration.step lister = .working { enumeration with stream } := by
  rw [step, if_neg (by simp [h])]
  cases enumeration.stream.step lister with
  | finished => exact .inl ⟨rfl, rfl⟩
  | working stream => exact .inr (.inl ⟨stream, rfl, rfl⟩)
  | entry entry stream =>
    cases entry with
    | error failure => exact .inr (.inr (.inl ⟨failure, stream, rfl, rfl⟩))
    | ok item =>
      by_cases hnew :
          (enumeration.kind.accepts item.kind && !enumeration.seen.contains item.path) = true
      · obtain ⟨haccepts, hseen⟩ := Bool.and_eq_true_iff.1 hnew
        rw [Bool.not_eq_true', ← Bool.not_eq_true, Std.ExtTreeSet.contains_iff_mem] at hseen
        exact .inr (.inr (.inr (.inl ⟨item, stream, rfl, haccepts, hseen, if_pos hnew⟩)))
      · refine .inr (.inr (.inr (.inr ⟨item, stream, rfl, fun haccepts => ?_, if_neg hnew⟩)))
        simpa [haccepts] using hnew

/-- An enumeration that is `done` yields nothing and asks for nothing. -/
theorem advance_of_done (lister : Lister) (steps : Nat) {enumeration : Enumeration}
    (h : enumeration.done = true) :
    enumeration.advance lister (steps + 1) = .finished enumeration := by
  simp [advance, step, h]

/-- An `advance` that has come to something comes to the same in any greater number of steps. -/
theorem advance_add {lister : Lister} {m : Nat} {enumeration : Enumeration}
    (h : ∀ rest, enumeration.advance lister m ≠ .unfinished rest) (n : Nat) :
    enumeration.advance lister (m + n) = enumeration.advance lister m := by
  induction m generalizing enumeration with
  | zero => exact absurd rfl (h enumeration)
  | succ m ih =>
    rw [Nat.add_right_comm]
    rw [advance] at h ⊢
    rw [advance]
    cases hs : enumeration.step lister with
    | working next =>
      simp only [hs] at h ⊢
      exact ih h
    | _ => rfl

end Enumeration

end PathPatterns
