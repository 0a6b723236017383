import PathPatterns.Lister

/-!
# Outcomes

What yields items may come to its end, may fail, and may go on for ever. An outcome tells what it
comes to as far as somebody has looked: the items up to the first failure, and how they end.

## Main definitions

* `Outcome`: items and how they end.
* `Outcome.bind`: what stands for each of the items, one after the other up to the first that does
  not come to its end.

## Main results

* `append_assoc`: outcomes that follow each other may be put together in any order.
-/

namespace PathPatterns

/-- How some items end. -/
inductive Ending
  /-- There are no more. -/
  | complete
  /-- A failure comes after them. -/
  | failed (failure : ListingError)
  /-- Nobody has looked any further. -/
  | unfinished

/-- Items up to the first failure, and how they end. -/
structure Outcome (α : Type) where
  /-- The items. -/
  items : List α
  /-- What comes after them. -/
  ending : Ending

namespace Outcome

variable {α β γ : Type} {a : α} {front back : Outcome α} {f : α → Outcome β}

/-- Some items and no more. -/
def complete (items : List α) : Outcome α := ⟨items, .complete⟩

/-- No item in front of an ending. -/
def stop (ending : Ending) : Outcome α := ⟨[], ending⟩

/-- One more item in front. -/
def cons (a : α) (outcome : Outcome α) : Outcome α := ⟨a :: outcome.items, outcome.ending⟩

/-- The outcome that goes on with `back` where `front` is complete, and is `front` otherwise. -/
def append (front back : Outcome α) : Outcome α :=
  match front.ending with
  | .complete => ⟨front.items ++ back.items, back.ending⟩
  | ending => ⟨front.items, ending⟩

instance : Append (Outcome α) := ⟨append⟩

/-- The outcomes that stand for some elements, one after the other. -/
def each (f : α → Outcome β) : List α → Outcome β
  | [] => complete []
  | a :: as => f a ++ each f as

/-- The outcomes that stand for the items of another one, up to its ending. -/
def bind (outcome : Outcome α) (f : α → Outcome β) : Outcome β :=
  each f outcome.items ++ stop outcome.ending

/-- The items that are kept, up to the same ending. -/
def filter (keep : α → Bool) (outcome : Outcome α) : Outcome α :=
  ⟨outcome.items.filter keep, outcome.ending⟩

/-- Behind a `front` that is complete come the items and the ending of `back`. -/
theorem append_of_complete (h : front.ending = .complete) (back : Outcome α) :
    front ++ back = ⟨front.items ++ back.items, back.ending⟩ := by
  show append front back = _
  rw [append, h]

/-- Behind a `front` that is not complete nothing comes. -/
theorem append_of_not_complete (h : front.ending ≠ .complete) (back : Outcome α) :
    front ++ back = front := by
  show append front back = _
  unfold append
  split
  · rename_i heq
    exact absurd heq h
  · rfl

@[simp]
theorem complete_append (items : List α) (back : Outcome α) :
    complete items ++ back = ⟨items ++ back.items, back.ending⟩ :=
  append_of_complete rfl back

@[simp]
theorem stop_failed_append (failure : ListingError) (back : Outcome α) :
    stop (.failed failure) ++ back = stop (.failed failure) := rfl

@[simp]
theorem stop_unfinished_append (back : Outcome α) :
    stop .unfinished ++ back = stop .unfinished := rfl

@[simp]
theorem stop_complete_append (back : Outcome α) : stop .complete ++ back = back := rfl

theorem cons_append (a : α) (front back : Outcome α) :
    cons a front ++ back = cons a (front ++ back) := by
  obtain ⟨items, ending⟩ := front
  cases ending <;> rfl

theorem append_complete_nil (front : Outcome α) : front ++ complete [] = front := by
  obtain ⟨items, ending⟩ := front
  cases ending with
  | complete => simp [append_of_complete, complete]
  | _ => rfl

/-- Outcomes that follow each other may be put together in any order: `++` is associative. -/
theorem append_assoc (front middle back : Outcome α) :
    front ++ middle ++ back = front ++ (middle ++ back) := by
  obtain ⟨items, ending⟩ := front
  obtain ⟨others, next⟩ := middle
  cases ending with
  | complete =>
    cases next with
    | complete => exact congrArg (Outcome.mk · back.ending) (List.append_assoc items others _)
    | _ => rfl
  | _ => rfl

@[simp]
theorem each_nil (f : α → Outcome β) : each f [] = complete [] := rfl

@[simp]
theorem each_cons (f : α → Outcome β) (a : α) (as : List α) :
    each f (a :: as) = f a ++ each f as := rfl

/-- `each` puts together what stands for two lists of elements one behind the other. -/
theorem each_append (f : α → Outcome β) (as bs : List α) :
    each f (as ++ bs) = each f as ++ each f bs := by
  induction as with
  | nil => rfl
  | cons a as ih => rw [List.cons_append, each_cons, each_cons, ih, append_assoc]

/-- Where each element stands for items and no more, all of them together do: `each` is
`List.flatMap` there. -/
theorem each_complete (f : α → List β) (as : List α) :
    each (fun a => complete (f a)) as = complete (as.flatMap f) := by
  induction as with
  | nil => rfl
  | cons a as ih =>
    rw [each_cons, ih, complete_append, List.flatMap_cons]
    rfl

theorem each_map (f : β → Outcome γ) (g : α → β) (as : List α) :
    each f (as.map g) = each (fun a => f (g a)) as := by
  induction as with
  | nil => rfl
  | cons a as ih => rw [List.map_cons, each_cons, each_cons, ih]

/-- What stands for the first item comes first, and `bind` goes on behind it. -/
theorem cons_bind (a : α) (outcome : Outcome α) (f : α → Outcome β) :
    (cons a outcome).bind f = f a ++ outcome.bind f := by
  rw [bind, cons, each_cons, append_assoc]
  rfl

end Outcome

end PathPatterns
