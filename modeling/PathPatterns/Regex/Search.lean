import PathPatterns.Regex.Basic

/-!
# Searching a text

A text of `n` characters has the positions `0, …, n`. A set of positions is a number whose binary
digit `i` tells whether position `i` is in it. An expression takes a set of positions to all
positions at which a match that begins in the set can end; a repetition goes on until nothing is
added. The expression matches somewhere in the text when something is left of the set of all
positions.

## Main definitions

* `Regex.isMatch`: whether a compiled expression has a match anywhere in a text.
-/

namespace PathPatterns

/-- Where the characters of a text stand. -/
structure Occurrences where
  /-- How many characters the text has. -/
  length : Nat
  /-- The characters of the text, each with the positions at which it stands. -/
  table : List (Char × Nat)

namespace Occurrences

/-- Notes that the character `c` stands at position `i`. -/
def mark (c : Char) (i : Nat) : List (Char × Nat) → List (Char × Nat)
  | [] => [(c, 1 <<< i)]
  | (other, positions) :: rest =>
    if other = c then (other, positions ||| (1 <<< i)) :: rest
    else (other, positions) :: mark c i rest

/-- Notes the characters of a text that begins at position `i`. -/
def markAll (i : Nat) (table : List (Char × Nat)) : List Char → List (Char × Nat)
  | [] => table
  | c :: rest => markAll (i + 1) (mark c i table) rest

/-- Where the characters of `text` stand. -/
def ofText (text : List Char) : Occurrences :=
  ⟨text.length, markAll 0 [] text⟩

/-- The positions of a character. -/
def ofChar (occurrences : Occurrences) (c : Char) : Nat :=
  (occurrences.table.lookup c).getD 0

/-- The positions at which one of some characters stands. -/
def ofChars (occurrences : Occurrences) (cs : List Char) : Nat :=
  cs.foldl (fun positions c => positions ||| occurrences.ofChar c) 0

/-- The positions of the members of a class. -/
def ofClass (occurrences : Occurrences) : CharClass → Nat
  | .char c => occurrences.ofChar c
  | .oneOf members => occurrences.ofChars members
  | .noneOf excluded => ((1 <<< occurrences.length) - 1) ^^^ occurrences.ofChars excluded

end Occurrences

namespace Regex

/-- Moves the positions that are in `allowed` over one character and drops the others. -/
def moveOver (allowed positions : Nat) : Nat :=
  (positions &&& allowed) <<< 1

/-- Adds the positions behind a position of the set that come right after positions in `allowed`
only. In the sum a carry runs from each such position through the `allowed` ones behind it. -/
def moveAlong (allowed positions : Nat) : Nat :=
  positions ||| (((positions &&& allowed) + allowed) ^^^ allowed)

/-- Adds to a set what `grow` makes of it, until nothing is added or the rounds are used up. -/
def saturate (grow : Nat → Nat) : Nat → Nat → Nat
  | 0, positions => positions
  | rounds + 1, positions =>
    let grown := positions ||| grow positions
    -- a set that has stopped growing stays as it is
    if grown = positions then positions else saturate grow rounds grown

/-- The ends of the matches that begin in a set of positions; see `testBit_advance`. -/
def advance (text : Occurrences) : Regex → Nat → Nat
  | epsilon, positions => positions
  | one chars, positions => moveOver (text.ofClass chars) positions
  | start, positions => positions &&& 1
  | stop, positions => positions &&& (1 <<< text.length)
  | seq first second, positions => advance text second (advance text first positions)
  | alt left right, positions => advance text left positions ||| advance text right positions
  | star body, positions =>
    match body with
    | one chars => moveAlong (text.ofClass chars) positions
    | body => saturate (advance text body) text.length positions
  | plus body, positions =>
    match body with
    | one chars =>
      let allowed := text.ofClass chars
      moveAlong allowed (moveOver allowed positions)
    | body => saturate (advance text body) text.length (advance text body positions)
  | opt body, positions => positions ||| advance text body positions
  | group body, positions => advance text body positions

/-- All positions of a text of some length, the one behind its last character included. -/
def allPositions (length : Nat) : Nat :=
  (1 <<< (length + 1)) - 1

/-- Whether the expression matches some span of the text; see `isMatch_iff`. -/
def isMatch (r : Regex) (text : String) : Bool :=
  let occurrences := Occurrences.ofText text.toList
  r.advance occurrences (allPositions occurrences.length) != 0

end Regex

end PathPatterns
