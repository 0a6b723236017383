import PathPatterns.Regex.Basic
import Std.Data.TreeMap

/-!
# Ranges of code points

A set of characters is written as ranges of code points. The written form is unique: the ranges
ascend, and a code point that is not in the set stands between any two of them.
-/

namespace PathPatterns

/-- The code points from `first` to `last`. -/
structure CodeRange where
  /-- The least code point. -/
  first : Nat
  /-- The greatest code point. -/
  last : Nat
deriving Repr, DecidableEq

namespace CodeRange

/-- The greatest code point that there is. -/
def greatest : Nat := 0x10FFFF

/-- The code point of one character. -/
def ofChar (c : Char) : CodeRange := ⟨c.toNat, c.toNat⟩

/-- A range in front of ranges that begin no earlier: it takes in those that overlap or touch it. -/
def absorb (r : CodeRange) : List CodeRange → List CodeRange
  | [] => [r]
  | next :: rest =>
    if next.first ≤ r.last + 1 then absorb ⟨r.first, Nat.max r.last next.last⟩ rest
    else r :: next :: rest

/-- The written form of the code points in any of some ranges. Of ranges with one beginning only the
longest counts, and the others follow in the order of their beginnings. -/
def join (ranges : List CodeRange) : List CodeRange :=
  let lasts : Std.TreeMap Nat Nat :=
    ranges.foldl (fun lasts r => lasts.alter r.first fun last => some (last.getD 0 |>.max r.last)) ∅
  (lasts.toList.map fun (first, last) => ⟨first, last⟩).foldr absorb []

/-- The written form of the code points from `next` on that are in none of some ascending ranges. -/
def gaps (next : Nat) : List CodeRange → List CodeRange
  | [] => if next ≤ greatest then [⟨next, greatest⟩] else []
  | r :: rest =>
    if next < r.first then ⟨next, r.first - 1⟩ :: gaps (r.last + 1) rest
    else gaps (r.last + 1) rest

end CodeRange

/-- The characters of a class, as ranges in their written form. -/
def CharClass.codeRanges : CharClass → List CodeRange
  | .char c => [.ofChar c]
  | .oneOf members => CodeRange.join (members.map .ofChar)
  | .noneOf excluded => CodeRange.gaps 0 (CodeRange.join (excluded.map .ofChar))

end PathPatterns
