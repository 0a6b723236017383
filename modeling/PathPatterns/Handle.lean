import PathPatterns.Glob

/-!
# Handles

A glob is shared through handles. Reading a pattern makes an instance of its own, copying a handle
keeps the instance, and all handles of the universal glob lead to one instance. Combining handles
makes a new instance only where no operand can serve.

## Main definitions

* `Handle.same`: the operation `ptr_eq`.
* `Handle.combine`: the operation `combine`, given the identity that a new instance would have.
-/

namespace PathPatterns

/-- Which instance a handle leads to. -/
inductive Identity
  /-- The shared instance of the universal glob. -/
  | universal
  /-- The instance that was made as number `serial`. -/
  | created (serial : Nat)
deriving Repr, DecidableEq

/-- A glob together with the instance that holds it. -/
structure Handle where
  /-- The instance. -/
  identity : Identity
  /-- The glob that it holds. -/
  glob : Glob
deriving Repr, DecidableEq

namespace Handle

/-- The universal glob, always in its shared instance. -/
def anything : Handle := ⟨.universal, .anything⟩

/-- Whether two handles lead to the same instance; their globs are not compared. -/
def same (a b : Handle) : Bool :=
  a.identity == b.identity

/-- The union of the operands: the universal glob if there is no operand or one of them has its
text, the common instance if all operands share one, and otherwise the instance `fresh` with the
alternatives of all. -/
def combine (fresh : Identity) : List Handle → Handle
  | [] => anything
  | first :: rest =>
    let operands := first :: rest
    if operands.any fun operand => operand.glob.isAnything then anything
    else if operands.all first.same then first
    else ⟨fresh, .join (operands.map Handle.glob)⟩

/-- The number of globs with different texts among the operands of `combine`. -/
def countDistinct (operands : List Handle) : Nat :=
  (operands.map fun operand => operand.glob.text).eraseDups.length

end Handle

end PathPatterns
