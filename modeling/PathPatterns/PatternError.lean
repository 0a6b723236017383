/-!
# Why a pattern is rejected

A pattern is rejected for one fault. The error names the pattern as it was given, before variables
were replaced.

## Main definitions

* `PatternError.message`: the display of an error of reading a pattern.
-/

namespace PathPatterns

/-- What is wrong with a pattern. -/
inductive Fault
  /-- The pattern has no alternative. -/
  | emptyPattern
  /-- A bracket without its partner, or one that opens inside a class; `offset` is where it stands
  in its component, in bytes. -/
  | unbalancedBracket (offset : Nat)
  /-- A class without members. -/
  | emptyCharacterClass
  /-- A component `.` or `..`. -/
  | unsupportedNavigation (token : String)
  /-- The program of the regular expression is over the limit. -/
  | invalidRegex
deriving Repr, DecidableEq

/-- A fault of a pattern, with the text of the pattern for the message. -/
structure PatternError where
  /-- The pattern as it was given. -/
  pattern : String
  /-- What is wrong with it. -/
  fault : Fault
deriving Repr, DecidableEq

namespace PatternError

/-- The text of an error. An offset counts from the beginning of its component, not of the pattern.
-/
def message (error : PatternError) : String :=
  match error.fault with
  | .emptyPattern => "the glob pattern is empty"
  | .unbalancedBracket offset =>
    "unbalanced bracket at offset " ++ toString offset ++ " in glob pattern '" ++ error.pattern
      ++ "'"
  | .emptyCharacterClass =>
    "empty character class in glob pattern '" ++ error.pattern ++ "'"
  | .unsupportedNavigation token =>
    "'" ++ token ++ "' components are not supported in glob pattern '" ++ error.pattern ++ "'"
  | .invalidRegex =>
    "failed to compile glob pattern '" ++ error.pattern ++ "' into a regular expression"

end PatternError

end PathPatterns
