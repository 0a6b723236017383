import PathPatterns.Alternative

/-!
# The expression of an alternative

An alternative matches a whole path, or the end of one that begins right after a separator unless
the alternative is anchored by a root or a drive. Segments are joined by separators; a `**` brings
its own, so what it adds depends on whether the text before it ends where a component may begin.

## Main definitions

* `Segment.fragmentParts`: the operation `render` of segment after segment; the flag `atStart` is
  the state of the fragment that is being built.
* `Segment.anyComponents`: the operation `any_components`, which renders `**`.
* `Alternative.fragment`: the operation `regex_fragment`.
-/

namespace PathPatterns

namespace Segment

/-- A component that is not empty, of any characters but separators. -/
def anyComponent : Regex := .plus (.one (.noneOf ['/', '\\']))

/-- A separator, unless a component may begin here already (`atStart`). -/
def entry (atStart : Bool) : List Regex :=
  if atStart then [] else [Component.separatorRegex]

/-- The expression of `**`. Where a component may begin, the directories stand before the separators
that end them, or are joined by separators if nothing follows; elsewhere a separator stands before
each. -/
def anyComponents (atStart isLast : Bool) : Regex :=
  if atStart then
    if isLast then
      .opt (.group (.seq anyComponent
        (.star (.group (.seq Component.separatorRegex anyComponent)))))
    else .star (.group (.seq anyComponent Component.separatorRegex))
  else .star (.group (.seq Component.separatorRegex anyComponent))

/-- The parts of the expression of a list of segments. `atStart` tells whether a component may begin
without a separator. -/
def fragmentParts (atStart : Bool) : List Segment → List Regex
  | [] => []
  | root :: rest => Component.separatorRegex :: fragmentParts true rest
  | device letter :: rest =>
    entry atStart ++ .one (.oneOf [letter, letter.toLower]) :: .char ':' ::
      Component.separatorRegex :: fragmentParts true rest
  | component c :: rest => entry atStart ++ c.regex :: fragmentParts false rest
  | anyDirectory :: rest => entry atStart ++ anyComponent :: fragmentParts false rest
  -- `**` leaves it open whether a component may begin: it may stand for nothing
  | recursive :: rest => anyComponents atStart rest.isEmpty :: fragmentParts atStart rest

/-- Where a path that is matched by the segments begins: at the start of the text if a root or a
drive comes first, and else at the start of any component. -/
def anchor : List Segment → Regex
  | root :: _ => .start
  | device _ :: _ => .start
  | _ => .group (.alt .start Component.separatorRegex)

end Segment

namespace Alternative

/-- The expression of a character of a literal path: any separator matches either spelling. -/
def literalChar (c : Char) : Regex :=
  if Path.isSeparator c then Component.separatorRegex else .char c

/-- The expression of an alternative, from where a path may begin; `Glob.uncheckedRegex` adds the
`stop` at the end of the path. -/
def fragment : Alternative → Regex
  | literal path => .seq .start (.concat (path.toList.map literalChar))
  | steps segments =>
    .seq (Segment.anchor segments) (.concat (Segment.fragmentParts true segments))

end Alternative

end PathPatterns
