import PathPatterns.Segment

/-!
# Alternatives

A pattern is a list of alternatives. An alternative that starts with a separator and has no
wildcard is a literal path; any other is a list of segments. Separators that stand side by side
separate once, and a separator at the end separates nothing.

## Main definitions

* `Alternative.parse`: the operation `parse_alternative`.
* `Alternative.display`: the display of a segment sequence.
-/

namespace PathPatterns

/-- One of the alternatives of a pattern. -/
inductive Alternative
  /-- A path that stands for itself. -/
  | literal (path : String)
  /-- Segments that follow each other. -/
  | steps (segments : List Segment)
deriving Repr, DecidableEq

namespace Alternative

/-- The segments of an alternative; a `literal` path has none. -/
def segments : Alternative → List Segment
  | literal _ => []
  | steps segments => segments

/-- The text of an alternative, which is read back as the same alternative. -/
def display : Alternative → String
  | literal path => path
  | steps [.root] => "/"
  | steps segments => "/".intercalate (segments.map Segment.display)

/-- The characters that make an alternative more than a `literal` path. -/
def isWildcard (c : Char) : Bool :=
  c == '*' || c == '?' || c == '[' || c == ']'

/-- Whether the text of an alternative is a `literal` path: it starts with a separator and has no
wildcard. -/
def isLiteral (text : List Char) : Bool :=
  text.head?.any Path.isSeparator && !text.any isWildcard

/-- The segments of the tokens of an alternative: an empty first token is the root, other empty
tokens are passed over. -/
def readSegments (tokens : List (List Char)) : Except Fault (List Segment) := do
  let segments ← (tokens.filter fun token => !token.isEmpty).mapM Segment.parse
  -- the text starts with a separator exactly if its first token is empty
  return if tokens.head? = some [] then .root :: segments else segments

/-- Reads an alternative, or gives its first fault, from the left. -/
def parse (text : List Char) : Except Fault Alternative :=
  if isLiteral text then .ok (literal (Path.normalize (String.ofList text)))
  else steps <$> readSegments (Path.components text)

end Alternative

end PathPatterns
