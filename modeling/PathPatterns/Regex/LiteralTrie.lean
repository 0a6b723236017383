import PathPatterns.Pieces

/-!
# Tries of literals

A choice between literals, read as bytes, is read along a trie. A node of the trie is given by the
rests of the literals that lead through it, in the order of the choice. A literal that comes first
must be tried first, so one that ends at a node divides the literals before it from those after it:
only literals of one division share a way on.
-/

namespace PathPatterns

namespace LiteralTrie

/-- A node: what is left of the literals that lead through it. -/
abbrev Node := List (List UInt8)

namespace Node

/-- Whether all literals of a node end there. -/
def isLeaf (node : Node) : Bool :=
  node.all List.isEmpty

/-- The divisions of a node: the literals before, between and after those that end there. Literals
that end there divide only once as long as no other has come. -/
def divisions (node : Node) : List Node :=
  let rest := node.dropWhile List.isEmpty
  if rest.length = node.length then pieces List.isEmpty node
  else [] :: pieces List.isEmpty rest

/-- The nodes that a division leads to, one for each first byte of its literals. -/
def children (division : Node) : List Node :=
  ((division.filterMap List.head?).eraseDups).map fun byte =>
    division.filterMap fun rest => if rest.head? = some byte then some rest.tail else none

end Node

end LiteralTrie

end PathPatterns
