import PathPatterns.Regex.Basic

/-!
# The text of a regular expression

An expression is written in the usual notation: `[…]` and `[^…]` for classes, `|`, `*`, `+`, `?`,
`(?:…)` for a group, `^` and `$` for the two ends of the text. A character with a meaning in that
notation is written with a backslash before it.

## Main definitions

* `Regex.escapeChar`: the operation `escape_char`.
* `Regex.render`: the text that a fragment is built up to.

## Main results

* `toList_render`: writing after some text is that text followed by what is written.
-/

namespace PathPatterns

namespace Regex

/-- The characters that have a meaning of their own in the notation. -/
def isMeta (c : Char) : Bool :=
  "\\.+*?()|[]\x7b\x7d^$#&-~".toList.contains c

/-- The characters that write `c` as itself. -/
def escapeChar (c : Char) : List Char :=
  if isMeta c then ['\\', c] else [c]

/-- `text` followed by the characters that write `c` as itself. -/
def pushEscaped (text : String) (c : Char) : String :=
  if isMeta c then (text.push '\\').push c else text.push c

/-- `text` followed by the notation of a class. -/
def renderClassOnto (text : String) : CharClass → String
  | .char c => pushEscaped text c
  | .oneOf members => (members.foldl pushEscaped (text.push '[')).push ']'
  | .noneOf excluded => (excluded.foldl pushEscaped ((text.push '[').push '^')).push ']'

/-- `text` followed by the notation of an expression. -/
def renderOnto (text : String) : Regex → String
  | epsilon => text
  | one chars => renderClassOnto text chars
  | start => text.push '^'
  | stop => text.push '$'
  | seq first second => renderOnto (renderOnto text first) second
  | alt left right => renderOnto ((renderOnto text left).push '|') right
  | star body => (renderOnto text body).push '*'
  | plus body => (renderOnto text body).push '+'
  | opt body => (renderOnto text body).push '?'
  | group body => (renderOnto (((text.push '(').push '?').push ':') body).push ')'

/-- The notation of an expression, as a string. -/
def render (r : Regex) : String :=
  renderOnto "" r

/-- The notation of a class, as a list of characters that proofs can take apart. -/
def classNotation : CharClass → List Char
  | .char c => escapeChar c
  | .oneOf members => '[' :: members.flatMap escapeChar ++ [']']
  | .noneOf excluded => '[' :: '^' :: excluded.flatMap escapeChar ++ [']']

/-- The notation of an expression, as a list of characters that proofs can take apart. -/
def written : Regex → List Char
  | epsilon => []
  | one chars => classNotation chars
  | start => ['^']
  | stop => ['$']
  | seq first second => first.written ++ second.written
  | alt left right => left.written ++ '|' :: right.written
  | star body => body.written ++ ['*']
  | plus body => body.written ++ ['+']
  | opt body => body.written ++ ['?']
  | group body => '(' :: '?' :: ':' :: body.written ++ [')']

theorem toList_pushEscaped (text : String) (c : Char) :
    (pushEscaped text c).toList = text.toList ++ escapeChar c := by
  unfold pushEscaped escapeChar
  split <;> simp

theorem toList_foldl_pushEscaped (cs : List Char) (text : String) :
    (cs.foldl pushEscaped text).toList = text.toList ++ cs.flatMap escapeChar := by
  induction cs generalizing text with
  | nil => simp
  | cons c cs ih => simp [ih, toList_pushEscaped]

/-- `renderOnto` writes what `written` lists behind the text that is there already. -/
theorem toList_renderOnto (r : Regex) (text : String) :
    (renderOnto text r).toList = text.toList ++ r.written := by
  induction r generalizing text with
  | epsilon => simp [renderOnto, written]
  | one chars =>
    cases chars <;>
      simp [renderOnto, renderClassOnto, written, classNotation, toList_pushEscaped,
        toList_foldl_pushEscaped]
  | start => simp [renderOnto, written]
  | stop => simp [renderOnto, written]
  | seq first second ih₁ ih₂ => simp [renderOnto, written, ih₁, ih₂]
  | alt left right ih₁ ih₂ => simp [renderOnto, written, ih₁, ih₂]
  | star body ih => simp [renderOnto, written, ih]
  | plus body ih => simp [renderOnto, written, ih]
  | opt body ih => simp [renderOnto, written, ih]
  | group body ih => simp [renderOnto, written, ih]

/-- The rendered text of an expression consists of the characters that `written` lists. -/
@[simp]
theorem toList_render (r : Regex) : r.render.toList = r.written := by
  simp [render, toList_renderOnto]

end Regex

end PathPatterns
