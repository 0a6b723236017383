import Std.Data.ExtTreeSet
import PathPatterns.Entity

/-!
# Children of directories

A tree in memory keeps the children of a directory in order: by path, and on equal paths a directory
before a file. A path may be both.

## Main definitions

* `Child`: an element of the sets of children in a tree, in the order of those sets.
-/

namespace PathPatterns

/-- The kind of a child; a directory comes before a file. -/
inductive ChildKind
  /-- The child is a directory. -/
  | directory
  /-- The child is a file. -/
  | file
deriving Repr, DecidableEq, Ord

namespace ChildKind

/-- The kind under which a child is reported. -/
def entityKind : ChildKind → EntityKind
  | directory => .directory
  | file => .file

instance : Std.TransOrd ChildKind where
  eq_swap {a b} := by cases a <;> cases b <;> rfl
  isLE_trans {a b c} := by cases a <;> cases b <;> cases c <;> decide

instance : Std.LawfulEqOrd ChildKind where
  compare_self {a} := by cases a <;> rfl
  eq_of_compare {a b} := by cases a <;> cases b <;> decide

end ChildKind

/-- A child of a directory, by its whole path and not by its name. -/
structure Child where
  /-- The whole path of the child. -/
  path : String
  /-- The kind of the child. -/
  kind : ChildKind
deriving Repr, DecidableEq

namespace Child

/-- The item under which a child is reported. -/
def item (child : Child) : Item :=
  ⟨child.path, child.kind.entityKind⟩

instance : Ord Child where
  compare := compareLex (compareOn Child.path) (compareOn Child.kind)

/-- Children are compared by their paths first, and on equal paths by their kinds. -/
theorem compare_eq (a b : Child) :
    compare a b = (compare a.path b.path).then (compare a.kind b.kind) := rfl

instance : Std.TransOrd Child :=
  inferInstanceAs (Std.TransCmp (compareLex (compareOn Child.path) (compareOn Child.kind)))

instance : Std.LawfulEqOrd Child where
  compare_self {a} := by simp
  eq_of_compare {a b} h := by
    rw [compare_eq, Ordering.then_eq_eq] at h
    obtain ⟨hp, hk⟩ := h
    cases a
    cases b
    rw [Child.mk.injEq]
    exact ⟨Std.LawfulEqOrd.eq_of_compare hp, Std.LawfulEqOrd.eq_of_compare hk⟩

end Child

end PathPatterns
