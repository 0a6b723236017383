import Std.Data.ExtTreeMap
import PathPatterns.Handle

/-!
# Registries

A registry holds handles in named slots and numbers the instances that it makes, so that no two of
them are the same.

## Main definitions

* `Registry.parse`, `Registry.anything`, `Registry.combine`: the operations that give out globs,
  with the slot that takes the glob; `Registry.put` is a copy of a handle.
-/

namespace PathPatterns

/-- Handles in named slots, and the count from which new instances are numbered. -/
structure Registry where
  /-- The handle in each slot that is taken. -/
  slots : Std.ExtTreeMap String Handle
  /-- How many instances have been numbered. -/
  issued : Nat

namespace Registry

/-- The registry without handles. -/
def empty : Registry := ⟨∅, 0⟩

/-- The handle in a slot, if the slot is taken. -/
def get? (registry : Registry) (slot : String) : Option Handle :=
  registry.slots[slot]?

/-- Puts a handle into a slot, in place of the one before. -/
def put (registry : Registry) (slot : String) (handle : Handle) : Registry :=
  { registry with slots := registry.slots.insert slot handle }

/-- The instance that is made next; `issued` counts on whenever it may be used. -/
def fresh (registry : Registry) : Identity :=
  .created registry.issued

/-- Puts a handle that may lead to the `fresh` instance into a slot, and numbers on. -/
def issue (registry : Registry) (slot : String) (handle : Handle) : Registry :=
  { slots := registry.slots.insert slot handle, issued := registry.issued + 1 }

/-- Reads a pattern into a slot. A pattern that is rejected changes nothing. -/
def parse (registry : Registry) (env : Environment) (slot text : String) :
    Except PatternError Registry := do
  return registry.issue slot ⟨registry.fresh, ← Glob.parse env text⟩

/-- Puts the universal glob into a slot; no instance is made for it. -/
def anything (registry : Registry) (slot : String) : Registry :=
  registry.put slot .anything

/-- Puts the union of some operands into a slot; `Handle.combine` decides whether it is a new
instance. -/
def combine (registry : Registry) (slot : String) (operands : List Handle) : Registry :=
  registry.issue slot (.combine registry.fresh operands)

/-- After `put`, the slot holds what was put there, and the other slots what they held. -/
theorem get?_put (registry : Registry) (slot other : String) (handle : Handle) :
    (registry.put slot handle).get? other =
      if slot = other then some handle else registry.get? other := by
  simp [get?, put, Std.ExtTreeMap.getElem?_insert]

/-- After `issue`, the slot holds what was issued there, and the other slots what they held. -/
theorem get?_issue (registry : Registry) (slot other : String) (handle : Handle) :
    (registry.issue slot handle).get? other =
      if slot = other then some handle else registry.get? other := by
  simp [get?, issue, Std.ExtTreeMap.getElem?_insert]

end Registry

end PathPatterns
