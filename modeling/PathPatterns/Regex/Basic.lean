/-!
# Regular expressions

Expressions over characters with two anchors: `start` matches the empty span at the beginning of
the text and `stop` the empty span at its end. Grouping is part of the tree, because the text of
an expression shows it: a repetition that applies to more than one character needs a `group`.
-/

namespace PathPatterns

/-- A set of characters that matches one character. -/
inductive CharClass
  /-- Exactly this character. -/
  | char (c : Char)
  /-- Any of the listed characters. -/
  | oneOf (members : List Char)
  /-- Any character that is not listed, line ends included. -/
  | noneOf (excluded : List Char)
deriving Repr, DecidableEq

namespace CharClass

/-- Membership of a character. -/
def contains : CharClass → Char → Bool
  | .char c, d => d == c
  | .oneOf members, d => members.contains d
  | .noneOf excluded, d => !excluded.contains d

@[simp]
theorem contains_char (c d : Char) : (char c).contains d = (d == c) := rfl

@[simp]
theorem contains_oneOf (members : List Char) (d : Char) :
    (oneOf members).contains d = members.contains d := rfl

@[simp]
theorem contains_noneOf (excluded : List Char) (d : Char) :
    (noneOf excluded).contains d = !excluded.contains d := rfl

end CharClass

/-- A regular expression. -/
inductive Regex
  /-- The empty span. -/
  | epsilon
  /-- One character of a class. -/
  | one (chars : CharClass)
  /-- The empty span at the beginning of the text. -/
  | start
  /-- The empty span at the end of the text. -/
  | stop
  /-- One expression after the other. -/
  | seq (first second : Regex)
  /-- Either of two expressions. -/
  | alt (left right : Regex)
  /-- Any number of repetitions. -/
  | star (body : Regex)
  /-- One or more repetitions. -/
  | plus (body : Regex)
  /-- The expression or the empty span. -/
  | opt (body : Regex)
  /-- The expression as a unit; it matches what its body matches. -/
  | group (body : Regex)
deriving Repr, DecidableEq

namespace Regex

/-- Exactly the character `c`. -/
def char (c : Char) : Regex := one (.char c)

/-- The listed expressions one after the other. -/
def concat (parts : List Regex) : Regex :=
  parts.foldr seq epsilon

/-- Any of the listed expressions; the empty span if none is listed. -/
def union : List Regex → Regex
  | [] => epsilon
  | [single] => single
  | first :: rest => alt first (union rest)

@[simp]
theorem concat_nil : concat [] = epsilon := rfl

@[simp]
theorem concat_cons (part : Regex) (parts : List Regex) :
    concat (part :: parts) = seq part (concat parts) := rfl

end Regex

end PathPatterns
