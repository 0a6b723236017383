import PathPatterns.Regex.CodeRange

/-!
# Characters as sequences of bytes

A text is read byte by byte, in UTF-8. A range of characters becomes sequences of byte ranges: each
sequence stands for the characters whose first byte is in its first range, whose second byte is in
its second range, and so on. A range is first cut where the number of bytes changes and around the
surrogates, which are not characters. Then it is cut until its two ends differ in a byte only if
all bytes after that one take every value.
-/

namespace PathPatterns

/-- The bytes from `first` to `last`. -/
structure ByteRange where
  /-- The least byte. -/
  first : UInt8
  /-- The greatest byte. -/
  last : UInt8
deriving Repr, DecidableEq

namespace CodeRange

/-- The code points of a range that are in `block` too, if there is one. -/
def within (r block : CodeRange) : Option CodeRange :=
  if r.first ≤ block.last ∧ block.first ≤ r.last then
    some ⟨Nat.max r.first block.first, Nat.min r.last block.last⟩
  else none

/-- The characters that are one byte long. -/
def ascii : CodeRange := ⟨0, 0x7F⟩

/-- The characters that are two, three, again three, and four bytes long. -/
def longer : List CodeRange :=
  [⟨0x80, 0x7FF⟩, ⟨0x800, 0xD7FF⟩, ⟨0xE000, 0xFFFF⟩, ⟨0x10000, greatest⟩]

/-- Cuts off what a range holds of its last block of `size` code points, unless that is the whole
block or the whole range. -/
def cutEnd (size : Nat) (r : CodeRange) : List CodeRange :=
  let block := r.last / size * size
  if r.last + 1 = block + size ∨ block ≤ r.first then [r]
  else [⟨r.first, block - 1⟩, ⟨block, r.last⟩]

/-- Cuts off what a range holds of its first and its last block of `size` code points, unless that
is the whole block or the whole range. -/
def cut (size : Nat) (r : CodeRange) : List CodeRange :=
  let next := (r.first / size + 1) * size
  if r.first % size = 0 ∨ r.last < next then cutEnd size r
  else ⟨r.first, next - 1⟩ :: cutEnd size ⟨next, r.last⟩

/-- The bytes between those of the first character and those of the last. -/
def encode (r : CodeRange) : List ByteRange :=
  List.zipWith ByteRange.mk (String.utf8EncodeChar (Char.ofNat r.first))
    (String.utf8EncodeChar (Char.ofNat r.last))

/-- The sequences of byte ranges of a range of characters. -/
def byteSequences (r : CodeRange) : List (List ByteRange) :=
  -- each byte after the first one takes 64 values
  let cuts := ((longer.filterMap r.within).flatMap (cut 64)).flatMap (cut (64 * 64))
  ((r.within ascii).toList ++ cuts.flatMap (cut (64 * 64 * 64))).map encode

end CodeRange

/-! ## The tree of some sequences

Sequences that begin with the same range share it. At a place in the tree it is known what can still
follow there. -/

namespace ByteRange

/-- A place in the tree: the sequences that can follow there, in ascending order. -/
abbrev Place := List (List ByteRange)

/-- The places one byte further on, one for each range that can come next. -/
def Place.next (place : Place) : List Place :=
  (place.splitBy fun a b => a.head? == b.head?).map fun group => group.map List.tail

/-- Whether a byte follows at a place. -/
def Place.isInner (place : Place) : Bool :=
  place.any fun rest => !rest.isEmpty

/-- The places of a tree that a byte follows, from the root up to a depth. -/
def placesUpTo : (depth : Nat) → Place → List Place
  | 0, _ => []
  | depth + 1, place =>
    if place.isInner then place :: place.next.flatMap (placesUpTo depth) else []

/-- The places of a tree that a byte follows. No character has more than four bytes. -/
def places (sequences : List (List ByteRange)) : List Place :=
  placesUpTo 4 sequences

end ByteRange

end PathPatterns
