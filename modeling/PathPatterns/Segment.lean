import PathPatterns.Component

/-!
# Segments

A segment is one step of a pattern: the root, a drive, one component, one directory (`*`) or any
number of directories (`**`).

## Main definitions

* `Segment.parse`: what `parse_alternative` does with one token.
* `driveLetter?`: the operation `device_letter`.
-/

namespace PathPatterns

/-- A step of a pattern, from the paths reached so far to those reached next. -/
inductive Segment
  /-- The root of the file system. -/
  | root
  /-- The root of a drive; `letter` is in upper case. -/
  | device (letter : Char)
  /-- One component that is matched by its name. -/
  | component (component : Component)
  /-- `*`: exactly one directory. -/
  | anyDirectory
  /-- `**`: any number of directories. -/
  | recursive
deriving Repr, DecidableEq

namespace Segment

/-- The text of a segment; `Alternative.display` puts separators between these. -/
def display : Segment → String
  | root => ""
  | device letter => String.ofList [letter, ':']
  | component c => c.source
  | anyDirectory => "*"
  | recursive => "**"

/-- The drive that a token names, in upper case: an ASCII letter before a colon, and nothing else.
-/
def driveLetter? : List Char → Option Char
  | [letter, ':'] => if letter.isAlpha then some letter.toUpper else none
  | _ => none

/-- Reads a token that stands between two separators and is not empty. `.` and `..` are rejected,
and whatever has no form of its own is a component. -/
def parse (token : List Char) : Except Fault Segment :=
  if token = ['*'] then .ok anyDirectory
  else if token = ['*', '*'] then .ok recursive
  else if token = ['.'] ∨ token = ['.', '.'] then
    .error (.unsupportedNavigation (String.ofList token))
  else
    match driveLetter? token with
    | some letter => .ok (device letter)
    | none => component <$> Component.parse token

end Segment

end PathPatterns
