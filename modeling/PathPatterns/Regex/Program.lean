import PathPatterns.Regex.ByteRange
import PathPatterns.Regex.LiteralTrie
import PathPatterns.Regex.Normal

/-!
# The size of a compiled expression

Expressions are compiled to programs of states before they are run: one program reads the text
forward to find the end of a match, another one backward to find its beginning. Each may take ten
mebibytes. A state takes 32 bytes, a way on from a state that has several takes 4 more, and a row in
a table of byte ranges 8 more. An expression with a program over the limit is not compiled.

## Main definitions

* `Regex.compiles`: whether compiling an expression with the default size limit succeeds.
-/

namespace PathPatterns

namespace Program

/-- The directions in which a program reads a text. -/
inductive Direction
  /-- From the beginning on. -/
  | forward
  /-- From the end on. -/
  | backward
deriving Repr, DecidableEq

/-- Bytes of a state. -/
def stateBytes : Nat := 32

/-- Bytes of a way on from a state that has several. -/
def wayBytes : Nat := 4

/-- Bytes of a row in a table of byte ranges. -/
def rowBytes : Nat := 8

/-- Bytes of a state with `ways` ways on. -/
def forkBytes (ways : Nat) : Nat :=
  stateBytes + wayBytes * ways

/-- Bytes of a state with a table of `rows` rows. -/
def tableBytes (rows : Nat) : Nat :=
  stateBytes + rowBytes * rows

/-- The sum of some sizes. -/
def total (sizes : List Nat) : Nat :=
  sizes.foldl (fun sum size => sum + size) 0

/-! ## Sets of characters -/

/-- Whether a set holds ASCII characters only. -/
def isAscii (ranges : List CodeRange) : Bool :=
  ranges.all fun r => r.last ≤ CodeRange.ascii.last

/-- Bytes of the states of a set of ASCII characters: one table, and the state after it. -/
def asciiBytes (ranges : List CodeRange) : Nat :=
  tableBytes ranges.length + stateBytes

/-- Bytes of the states of a set of characters. Forward, each place in the tree of its byte
sequences has a table, and places where the same can follow share one. Backward, a fork leads to the
last byte of each sequence, and each byte range in the tree has a state. -/
def setBytes (ranges : List CodeRange) : Direction → Nat
  | .forward =>
    let places := (ByteRange.places (ranges.flatMap CodeRange.byteSequences)).eraseDups
    total (places.map fun place => tableBytes place.next.length) + stateBytes
  | .backward =>
    let sequences := ranges.flatMap CodeRange.byteSequences
    let states := total ((ByteRange.places sequences).map fun place => place.next.length)
    forkBytes sequences.length + stateBytes * states + stateBytes

/-! ## Choices between literals -/

/-- Bytes of the states of a division of a node: one byte needs no table. -/
def divisionBytes (division : LiteralTrie.Node) : Nat :=
  let bytes := division.children.length
  if bytes = 1 then stateBytes else tableBytes bytes

/-- Bytes of the states of a node: a fork with a way to each division that is not empty and a way
to the end for each literal that divides, and the states of the divisions. -/
def nodeBytes (node : LiteralTrie.Node) : Nat :=
  if node.isLeaf then 0
  else
    let divisions := node.divisions.filter fun division => !division.isEmpty
    forkBytes (divisions.length + (node.divisions.length - 1)) + total (divisions.map divisionBytes)

/-- Bytes of the states of some nodes and of the nodes below them, up to a depth. -/
def trieBytes (sum : Nat) : (depth : Nat) → List LiteralTrie.Node → Nat
  | 0, _ => sum
  | depth + 1, nodes =>
    trieBytes (sum + total (nodes.map nodeBytes)) depth
      (nodes.flatMap fun node => node.divisions.flatMap LiteralTrie.Node.children)

/-- The bytes of a literal, in the order in which they are read. -/
def literalBytes (direction : Direction) (chars : List Char) : List UInt8 :=
  let bytes := chars.flatMap String.utf8EncodeChar
  match direction with
  | .forward => bytes
  | .backward => bytes.reverse

/-- Bytes of the states of a choice between literals. -/
def choiceBytes (literals : List (List Char)) (direction : Direction) : Nat :=
  let node := literals.map (literalBytes direction)
  let depth := node.foldl (fun depth bytes => Nat.max depth bytes.length) 0
  trieBytes stateBytes depth [node]

/-! ## Expressions -/

/-- What the programs of an expression are made of, collected before any size is computed. -/
structure Inventory where
  /-- Bytes of the states that do not depend on the direction. -/
  bytes : Nat
  /-- The sets with other than ASCII characters, each with the number of its occurrences. -/
  sets : List (List CodeRange × Nat)
  /-- The choices between literals. -/
  choices : List (List (List Char))

namespace Inventory

/-- Nothing. -/
def nil : Inventory := ⟨0, [], []⟩

/-- Adds states that do not depend on the direction. -/
def addBytes (inventory : Inventory) (bytes : Nat) : Inventory :=
  { inventory with bytes := inventory.bytes + bytes }

/-- One more occurrence of a set in a list of sets. -/
def countSet (ranges : List CodeRange) : List (List CodeRange × Nat) → List (List CodeRange × Nat)
  | [] => [(ranges, 1)]
  | (other, count) :: rest =>
    if other = ranges then (other, count + 1) :: rest else (other, count) :: countSet ranges rest

/-- Adds a set. -/
def addSet (inventory : Inventory) (ranges : List CodeRange) : Inventory :=
  if isAscii ranges then inventory.addBytes (asciiBytes ranges)
  else { inventory with sets := countSet ranges inventory.sets }

/-- Adds a choice between literals. -/
def addChoice (inventory : Inventory) (literals : List (List Char)) : Inventory :=
  { inventory with choices := literals :: inventory.choices }

mutual

/-- Adds what an expression is made of. -/
def add (inventory : Inventory) : Normal → Inventory
  | .empty => inventory.addBytes stateBytes
  | .literal chars =>
    inventory.addBytes (chars.foldl (fun bytes c => bytes + stateBytes * c.utf8Size) 0)
  | .set ranges => inventory.addSet ranges
  | .start => inventory.addBytes stateBytes
  | .stop => inventory.addBytes stateBytes
  -- a repetition goes back or on
  | .star body => add (inventory.addBytes (forkBytes 2)) body
  | .plus body => add (inventory.addBytes (forkBytes 2)) body
  -- an option has a state where its two ways meet
  | .opt body => add (inventory.addBytes (forkBytes 2 + stateBytes)) body
  | .sequence parts => addAll inventory parts
  | .alternation branches =>
    match branches.mapM Normal.literal? with
    | some literals => inventory.addChoice literals
    | none => addAll (inventory.addBytes (forkBytes branches.length + stateBytes)) branches

/-- Adds what some expressions are made of. -/
def addAll (inventory : Inventory) : List Normal → Inventory
  | [] => inventory
  | form :: rest => addAll (add inventory form) rest

end

/-- Bytes of the states of all that is in an inventory. -/
def size (inventory : Inventory) (direction : Direction) : Nat :=
  inventory.bytes
    + total (inventory.sets.map fun (ranges, count) => count * setBytes ranges direction)
    + total (inventory.choices.map fun literals => choiceBytes literals direction)

end Inventory

/-- Whether a program need not look for the place where a match begins or, read backward, ends. -/
def isAnchored (form : Normal) : Direction → Bool
  | .forward =>
    match form with
    | .sequence (.start :: _) => true
    | _ => false
  | .backward =>
    match form with
    | .sequence parts =>
      match parts.getLast? with
      | some .stop => true
      | _ => false
    | _ => false

/-- Bytes of the states in front of an expression: those that pass over a part of the text. -/
def searchBytes (form : Normal) (direction : Direction) : Nat :=
  if isAnchored form direction then stateBytes else forkBytes 2 + tableBytes 1 + stateBytes

/-- Bytes of the states around an expression: only the forward program notes where a match begins
and ends, and both have a state for having found it. -/
def resultBytes : Direction → Nat
  | .forward => 3 * stateBytes
  | .backward => stateBytes

/-- The size of a program of an expression. -/
def size (form : Normal) (inventory : Inventory) (direction : Direction) : Nat :=
  searchBytes form direction + inventory.size direction + resultBytes direction

/-- The size that a program may have at most. -/
def limit : Nat := 10 * 1024 * 1024

end Program

/-- Whether the programs of an expression, forward and backward, keep to the limit. -/
def Regex.compiles (r : Regex) : Bool :=
  let form := r.normal
  let inventory := Program.Inventory.nil.add form
  [.forward, .backward].all fun direction =>
    Program.size form inventory direction ≤ Program.limit

end PathPatterns
