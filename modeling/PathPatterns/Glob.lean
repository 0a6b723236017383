import PathPatterns.Alternative.Fragment
import PathPatterns.Environment.Template
import PathPatterns.Quoted

/-!
# Globs

A glob is a pattern that has been read: its text as it was given, and its alternatives. Globs are
compared by their texts alone. A glob matches a path by one regular expression over all
alternatives; where that expression is too large to compile, the glob matches nothing.

## Main definitions

* `Glob.parse`: the operation `parse` of a glob, with `parse_pattern` as `readAlternatives`.
* `Glob.anything`, `Glob.isAnything`: the operations `anything` and `is_anything`.
* `Glob.regexSource`, `Glob.regex`, `Glob.isMatch`: the operations `regex_source`, `regex` and
  `is_match`.
-/

namespace PathPatterns

/-- A pattern that has been read: its text and what the text was read as. -/
structure Glob where
  /-- The pattern as it was given, before variables were replaced. -/
  text : String
  /-- The alternatives, in the order of the text. -/
  alternatives : List Alternative
deriving Repr, DecidableEq

namespace Glob

/-- The texts of the alternatives of an expanded pattern, without the empty ones between two `;`. -/
def alternativeTexts (expanded : List Char) : List (List Char) :=
  (pieces (· == ';') expanded).filter fun text => !text.isEmpty

/-- The alternatives of an expanded pattern, or the first fault of the first that has one. -/
def readAlternatives (expanded : List Char) : Except Fault (List Alternative) :=
  match alternativeTexts expanded with
  | [] => .error .emptyPattern
  | texts => texts.mapM Alternative.parse

/-- Reads a pattern in an environment. The text of the glob and of an error is the one before
expansion. -/
def parse (env : Environment) (text : String) : Except PatternError Glob :=
  match readAlternatives (Template.expand env text).toList with
  | .ok alternatives => .ok ⟨text, alternatives⟩
  | .error fault => .error ⟨text, fault⟩

/-- The universal glob, `**/*.*`. -/
def anything : Glob where
  text := "**/*.*"
  alternatives := [.steps [.recursive, .component ⟨"*.*", [.anyRun, .char '.', .anyRun]⟩]]

/-- Whether two globs have the same text, which is all that equality of globs compares. -/
def sameText (a b : Glob) : Bool :=
  a.text == b.text

/-- Whether a glob has the text of `anything`, whatever its alternatives are. -/
def isAnything (glob : Glob) : Bool :=
  glob.sameText anything

/-- The glob of all alternatives of a list of globs, in order, under their texts joined by `;`. -/
def join (globs : List Glob) : Glob where
  text := ";".intercalate (globs.map Glob.text)
  alternatives := globs.flatMap Glob.alternatives

/-- The expression of a glob: any of its alternatives, and then the end of the path. -/
def uncheckedRegex (glob : Glob) : Regex :=
  .seq (.group (.union (glob.alternatives.map Alternative.fragment))) .stop

/-- The text of the expression of a glob, compiled or not. -/
def regexSource (glob : Glob) : String :=
  glob.uncheckedRegex.render

/-- The expression of a glob, unless it is too large to compile. -/
def regex (glob : Glob) : Except PatternError Regex :=
  if glob.uncheckedRegex.compiles then .ok glob.uncheckedRegex
  else .error ⟨glob.text, .invalidRegex⟩

/-- Whether a glob matches a path. A glob without `regex` matches nothing. -/
def isMatch (glob : Glob) (path : String) : Bool :=
  match glob.regex with
  | .ok regex => regex.isMatch path
  | .error _ => false

/-- The text of a glob, quoted and marked as a glob. -/
def debugText (glob : Glob) : String :=
  "Glob(" ++ Quoted.quote glob.text ++ ")"

end Glob

end PathPatterns
