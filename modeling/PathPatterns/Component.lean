import PathPatterns.Path
import PathPatterns.PatternError
import PathPatterns.Regex.Program
import PathPatterns.Regex.Render
import PathPatterns.Regex.Search

/-!
# Components with wildcards

A component of a pattern matches one component of a path. `?` stands for one character and `*` for
any number of characters other than separators and colons; `[abc]` stands for one of the characters
between the brackets, every one of them taken literally; any other character stands for itself.
Brackets do not nest and a class is not empty.

## Main definitions

* `readPieces`, `body`: the operation `expand_segment`, its reading and its writing.
* `Component.parse`: the operation `compile_match`, which compiles the `pathRegex` of a component.
-/

namespace PathPatterns

/-- A part of a component. -/
inductive Piece
  /-- A character that stands for itself. -/
  | char (c : Char)
  /-- `?`: one character other than a separator or a colon. -/
  | anyChar
  /-- `*`: any number of characters other than separators and colons. -/
  | anyRun
  /-- `[…]`: one of the listed characters. -/
  | oneOf (members : List Char)
deriving Repr, DecidableEq

/-- A component as it is written and as it is read; `parse` makes the second from the first. -/
structure Component where
  /-- The component as written in the pattern. -/
  source : String
  /-- The parts that the component is read into. -/
  pieces : List Piece
deriving Repr, DecidableEq

namespace Piece

/-- The characters that `?` stands for, and a run of which `*` stands for. -/
def wildcardClass : CharClass := .noneOf ['/', '\\', ':']

/-- The expression of a part. A character class of the pattern is a group of single characters. -/
def regex : Piece → Regex
  | char c => .char c
  | anyChar => .one wildcardClass
  | anyRun => .star (.one wildcardClass)
  | oneOf members => .group (.union (members.map .char))

/-- The part that a character is read as outside brackets. -/
def ofChar (c : Char) : Piece :=
  if c = '?' then anyChar else if c = '*' then anyRun else char c

end Piece

namespace Component

/-- A class `[…` that is being read, its `]` still to come. -/
structure OpenClass where
  /-- Where its bracket stands, in bytes. -/
  offset : Nat
  /-- Its characters so far, last first. -/
  members : List Char

/-- Reads the parts of a component from left to right. `offset` is the number of bytes read so far,
`opened` the class that is being read, if any, and `done` the parts read so far, last first. -/
def readFrom (offset : Nat) (opened : Option OpenClass) (done : List Piece) :
    List Char → Except Fault (List Piece)
  | [] =>
    match opened with
    | none => .ok done.reverse
    | some pending => .error (.unbalancedBracket pending.offset)
  | c :: rest =>
    let next := offset + c.utf8Size
    match opened with
    | none =>
      if c = '[' then readFrom next (some ⟨offset, []⟩) done rest
      else if c = ']' then .error (.unbalancedBracket offset)
      else readFrom next none (.ofChar c :: done) rest
    | some pending =>
      -- inside brackets only brackets mean something
      if c = '[' then .error (.unbalancedBracket offset)
      else if c = ']' then
        if pending.members.isEmpty then .error .emptyCharacterClass
        else readFrom next none (.oneOf pending.members.reverse :: done) rest
      else readFrom next (some { pending with members := c :: pending.members }) done rest

/-- The parts of a component, or the first fault of its brackets, from the left. -/
def readPieces (token : List Char) : Except Fault (List Piece) :=
  readFrom 0 none [] token

/-- The expression of a component, without anchors: that of each of its `pieces` in turn. -/
def regex (component : Component) : Regex :=
  .concat (component.pieces.map Piece.regex)

/-- The text of the expression of a component, as it stands in that of a pattern. -/
def body (component : Component) : String :=
  component.regex.render

/-- The expression of a separator, in either spelling. -/
def separatorRegex : Regex := .one (.oneOf ['/', '\\'])

/-- The expression for a path whose last component is matched: a separator, the component, the end.
-/
def pathRegex (component : Component) : Regex :=
  .seq separatorRegex (.seq component.regex .stop)

/-- Reads a component, and rejects one whose `pathRegex` is too large to compile. -/
def parse (token : List Char) : Except Fault Component := do
  let component : Component := ⟨String.ofList token, ← readPieces token⟩
  if component.pathRegex.compiles then .ok component else .error .invalidRegex

/-- Whether the last component of `path` is matched; a separator has to stand before it. -/
def matchesPath (component : Component) (path : String) : Bool :=
  component.pathRegex.isMatch path

end Component

end PathPatterns
