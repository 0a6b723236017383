import Mathlib.Data.List.Forall2

/-!
# Lists

Facts about lists that do not depend on what is modelled: lists without repeats as `List.eraseDups`
makes them, lists that are split, lists that are related element by element, and functions with
failures that are applied to a whole list.

## Main results

* `eraseDups_append_eraseDups`: repeats may be left out of two lists before they are put together.
* `mapM_eq_ok_iff`: `List.mapM` succeeds exactly if the function does so on each element.
-/

namespace PathPatterns

/-! ## Repeats -/

section EraseDups

variable {α : Type} [BEq α]

/-- Induction along `List.eraseDups`: behind the first element, the elements equal to it are left
out before `motive` is used again. -/
@[elab_as_elim]
theorem eraseDups_induction {motive : List α → Prop} (nil : motive [])
    (cons : ∀ a as, motive (as.filter fun b => !b == a) → motive (a :: as)) (as : List α) :
    motive as := by
  induction hn : as.length using Nat.strongRecOn generalizing as with
  | ind n ih =>
    cases as with
    | nil => exact nil
    | cons a as =>
      have hlength := List.length_filter_le (fun b => !b == a) as
      rw [List.length_cons] at hn
      exact cons a as (ih _ (by omega) _ rfl)

variable [LawfulBEq α] {as bs : List α}

/-- `List.eraseDups` leaves no element twice. -/
theorem nodup_eraseDups (as : List α) : as.eraseDups.Nodup := by
  induction as using eraseDups_induction with
  | nil => simp
  | cons a as ih =>
    rw [List.eraseDups_cons, List.nodup_cons]
    exact ⟨by simp, ih⟩

/-- `List.eraseDups` changes nothing in a list that has no element twice. -/
theorem eraseDups_eq_self (h : as.Nodup) : as.eraseDups = as := by
  induction as with
  | nil => rfl
  | cons a as ih =>
    obtain ⟨hnot, hnodup⟩ := List.nodup_cons.1 h
    have hkept : as.filter (fun b => !b == a) = as :=
      List.filter_eq_self.2 fun b hb => by simpa using ne_of_mem_of_not_mem hb hnot
    rw [List.eraseDups_cons, hkept, ih hnodup]

/-- Repeats may be left out before elements are dropped by `p`, or after that: equal elements are
kept or dropped together. -/
theorem eraseDups_filter (p : α → Bool) (as : List α) :
    (as.filter p).eraseDups = as.eraseDups.filter p := by
  induction as using eraseDups_induction with
  | nil => rfl
  | cons a as ih =>
    rw [List.eraseDups_cons]
    cases ha : p a with
    | true =>
      rw [List.filter_cons_of_pos ha, List.filter_cons_of_pos ha, List.eraseDups_cons, ← ih,
        List.filter_filter, List.filter_filter]
      simp only [Bool.and_comm]
    | false =>
      -- the first element is dropped, and those equal to it with it
      have hdrop : as.filter p = (as.filter fun b => !b == a).filter p := by
        rw [List.filter_filter]
        refine List.filter_congr fun b _ => ?_
        by_cases hb : b = a
        · simp [hb, ha]
        · simp [hb]
      rw [List.filter_cons_of_neg (by simp [ha]), List.filter_cons_of_neg (by simp [ha]), ← ih,
        hdrop]

/-- A list `bs` whose elements all stand in `as` already adds nothing but repeats behind it. -/
theorem eraseDups_append_of_subset (h : bs ⊆ as) : (as ++ bs).eraseDups = as.eraseDups := by
  have hnone : bs.removeAll as = [] :=
    List.filter_eq_nil_iff.2 fun b hb => by simpa using h hb
  rw [List.eraseDups_append, hnone, List.eraseDups_nil, List.append_nil]

/-- Repeats may be left out of two lists before they are put together, and again after that. -/
theorem eraseDups_append_eraseDups (as bs : List α) :
    (as.eraseDups ++ bs.eraseDups).eraseDups = (as ++ bs).eraseDups := by
  have hmem : bs.eraseDups.removeAll as.eraseDups = bs.eraseDups.removeAll as :=
    List.filter_congr fun b _ => by simp
  rw [List.eraseDups_append, List.eraseDups_append, eraseDups_eq_self (nodup_eraseDups as), hmem,
    List.removeAll, eraseDups_filter, eraseDups_eq_self (nodup_eraseDups bs), ← eraseDups_filter]
  rfl

end EraseDups

/-! ## Splitting a list -/

/-- A list is split into three parts, with `P`, `Q` and `R`, at the second cut first or at the first
cut first. -/
theorem exists_append_append_iff {α : Type} {P Q R : List α → Prop} {as : List α} :
    (∃ front rest, as = front ++ rest ∧ P front ∧
        ∃ middle back, rest = middle ++ back ∧ Q middle ∧ R back) ↔
      ∃ start back, as = start ++ back ∧
        (∃ front middle, start = front ++ middle ∧ P front ∧ Q middle) ∧ R back := by
  constructor
  · rintro ⟨front, _, rfl, hfront, middle, back, rfl, hmiddle, hback⟩
    exact ⟨front ++ middle, back, by simp, ⟨front, middle, rfl, hfront, hmiddle⟩, hback⟩
  · rintro ⟨_, back, rfl, ⟨front, middle, rfl, hfront, hmiddle⟩, hback⟩
    exact ⟨front, middle ++ back, by simp, hfront, middle, back, rfl, hmiddle, hback⟩

/-! ## Related lists -/

section Related

variable {α β : Type} {as : List α} {bs : List β}

/-- What stands on the right of lists related by `R` is related to an element on the left. -/
theorem exists_of_mem_of_forall₂ {R : α → β → Prop} (h : List.Forall₂ R as bs) {b : β}
    (hb : b ∈ bs) : ∃ a ∈ as, R a b := by
  induction h with
  | nil => simp at hb
  | cons hab _ ih =>
    rcases List.mem_cons.1 hb with rfl | hb
    · exact ⟨_, by simp, hab⟩
    · obtain ⟨a, ha, hrelated⟩ := ih hb
      exact ⟨a, by simp [ha], hrelated⟩

/-- Relations `p` and `q` that agree on the elements of `as` relate it to the same lists. -/
theorem forall₂_congr_of_mem {p q : α → β → Prop} (h : ∀ a ∈ as, ∀ b, p a b ↔ q a b) :
    List.Forall₂ p as bs ↔ List.Forall₂ q as bs := by
  induction as generalizing bs with
  | nil => simp only [List.forall₂_nil_left_iff]
  | cons a as ih =>
    obtain ⟨ha, has⟩ := List.forall_mem_cons.1 h
    simp only [List.forall₂_cons_left_iff, ha, ih has]

/-- If a partial function `f` has values exactly where `p` holds, and `R` relates these elements to
their values, the list of all values is related to the list of these elements. -/
theorem forall₂_filter_filterMap {R : α → β → Prop} {p : α → Prop} [DecidablePred p]
    {f : α → Option β} (hsome : ∀ a, p a → ∃ b, f a = some b ∧ R a b)
    (hnone : ∀ a, ¬ p a → f a = none) : List.Forall₂ R (as.filter p) (as.filterMap f) := by
  induction as with
  | nil => exact .nil
  | cons a as ih =>
    by_cases ha : p a
    · obtain ⟨b, hb, hab⟩ := hsome a ha
      rw [List.filter_cons_of_pos (by simpa using ha), List.filterMap_cons_some hb]
      exact .cons hab ih
    · rw [List.filter_cons_of_neg (by simpa using ha), List.filterMap_cons_none (hnone a ha)]
      exact ih

end Related

/-! ## Functions with failures -/

section MapM

variable {α β ε : Type} {f : α → Except ε β} {as : List α} {bs : List β}

/-- `List.mapM` succeeds exactly if `f` does so on each element, and gives what `f` gives there. -/
theorem mapM_eq_ok_iff : as.mapM f = .ok bs ↔ List.Forall₂ (fun a b => f a = .ok b) as bs := by
  induction as generalizing bs with
  | nil => cases bs <;> simp [pure, Except.pure]
  | cons a as ih =>
    rw [List.mapM_cons, List.forall₂_cons_left_iff]
    cases ha : f a with
    | error e => simp [bind, Except.bind]
    | ok b =>
      cases has : as.mapM f with
      | error e =>
        simp only [has, reduceCtorEq, false_iff] at ih
        simp [bind, Except.bind, ih]
      | ok rest =>
        simp only [bind, Except.bind, pure, Except.pure, Except.ok.injEq, ← ih, has]
        refine ⟨?_, ?_⟩
        · rintro rfl
          exact ⟨b, rest, rfl, rfl, rfl⟩
        · rintro ⟨_, _, rfl, rfl, rfl⟩
          rfl

theorem exists_of_mem_of_mapM (h : as.mapM f = .ok bs) {b : β} (hb : b ∈ bs) :
    ∃ a ∈ as, f a = .ok b :=
  exists_of_mem_of_forall₂ (mapM_eq_ok_iff.1 h) hb

end MapM

end PathPatterns
