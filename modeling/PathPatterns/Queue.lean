/-!
# Queues

A queue gives back what was put in, first in first out. It is kept as two lists, so that neither
putting in nor taking out depends on how many elements wait.

## Main results

* `toList_push`: an element joins at the end.
* `toList_of_pop?`: the element that is taken out is the first.
-/

namespace PathPatterns

/-- Elements that wait for their turn. -/
structure Queue (α : Type) where
  /-- The elements whose turn comes first, in order. -/
  front : List α
  /-- The elements that come after them, last first. -/
  back : List α

namespace Queue

variable {α : Type}

/-- The elements in the order of their turns; this is what a `Queue` stands for. -/
def toList (queue : Queue α) : List α :=
  queue.front ++ queue.back.reverse

/-- The queue in which nothing waits. -/
def empty : Queue α := ⟨[], []⟩

/-- Puts in an element, behind all that wait. -/
def push (queue : Queue α) (a : α) : Queue α :=
  { queue with back := a :: queue.back }

/-- Takes out the element whose turn it is, if one waits. -/
def pop? (queue : Queue α) : Option (α × Queue α) :=
  match queue.front with
  | a :: front => some (a, { queue with front })
  | [] =>
    -- those that came later move to the front all at once
    match queue.back.reverse with
    | a :: front => some (a, ⟨front, []⟩)
    | [] => none

@[simp]
theorem toList_empty : (empty : Queue α).toList = [] := rfl

/-- What is pushed comes last in `toList`. -/
@[simp]
theorem toList_push (queue : Queue α) (a : α) : (queue.push a).toList = queue.toList ++ [a] := by
  simp [toList, push]

/-- `pop?` gives nothing exactly if nothing waits. -/
theorem pop?_eq_none_iff {queue : Queue α} : queue.pop? = none ↔ queue.toList = [] := by
  obtain ⟨front, back⟩ := queue
  cases front with
  | cons a front => simp [pop?, toList]
  | nil =>
    simp only [pop?, toList, List.nil_append]
    cases back.reverse <;> simp

/-- The element that `pop?` takes out is the first of `toList`, and the others stay in order. -/
theorem toList_of_pop? {queue rest : Queue α} {a : α} (h : queue.pop? = some (a, rest)) :
    queue.toList = a :: rest.toList := by
  obtain ⟨front, back⟩ := queue
  cases front with
  | cons b front =>
    obtain ⟨rfl, rfl⟩ : b = a ∧ (⟨front, back⟩ : Queue α) = rest := by simpa [pop?] using h
    rfl
  | nil =>
    simp only [pop?, toList, List.nil_append] at h ⊢
    cases hback : back.reverse with
    | nil => simp [hback] at h
    | cons b front =>
      obtain ⟨rfl, rfl⟩ : b = a ∧ (⟨front, []⟩ : Queue α) = rest := by simpa [hback] using h
      simp

/-- Where an element waits, `pop?` takes out the first, and leaves the others in order. -/
theorem exists_pop?_of_toList {queue : Queue α} {a : α} {as : List α}
    (h : queue.toList = a :: as) : ∃ rest, queue.pop? = some (a, rest) ∧ rest.toList = as := by
  cases hpop : queue.pop? with
  | none => simp [pop?_eq_none_iff.1 hpop] at h
  | some popped =>
    obtain ⟨first, rest⟩ := popped
    rw [toList_of_pop? hpop] at h
    obtain ⟨rfl, hrest⟩ := List.cons.inj h
    exact ⟨rest, rfl, hrest⟩

end Queue

end PathPatterns
