import PathPatterns.Regex.CodeRange

/-!
# The normal form of an expression

Expressions that are written differently but are built alike have one normal form. Groups vanish,
sequences and alternations are flat lists, and characters that follow each other are one literal. An
alternation of single characters, or of sets of characters, is one set, and what all branches of
another alternation begin with stands once before it.
-/

namespace PathPatterns

/-- An expression without groups, nested sequences and nested alternations. -/
inductive Normal
  /-- The empty span. -/
  | empty
  /-- Characters that follow each other; there is at least one. -/
  | literal (chars : List Char)
  /-- One character of a set, which has at least two. -/
  | set (ranges : List CodeRange)
  /-- The empty span at the beginning of the text. -/
  | start
  /-- The empty span at the end of the text. -/
  | stop
  /-- Any number of repetitions. -/
  | star (body : Normal)
  /-- One or more repetitions. -/
  | plus (body : Normal)
  /-- The expression or the empty span. -/
  | opt (body : Normal)
  /-- Two or more expressions that follow each other. None of them is empty or a sequence, and no
  two literals stand side by side. -/
  | sequence (parts : List Normal)
  /-- Any of two or more expressions, none of which is an alternation. -/
  | alternation (branches : List Normal)
deriving Repr

namespace Normal

mutual

/-- Whether two forms are equal, as trees. -/
def same : Normal → Normal → Bool
  | empty, empty => true
  | literal a, literal b => a == b
  | set a, set b => a == b
  | start, start => true
  | stop, stop => true
  | star a, star b => same a b
  | plus a, plus b => same a b
  | opt a, opt b => same a b
  | sequence a, sequence b => sameAll a b
  | alternation a, alternation b => sameAll a b
  | _, _ => false

/-- Whether two lists of forms are equal. -/
def sameAll : List Normal → List Normal → Bool
  | [], [] => true
  | a :: as, b :: bs => same a b && sameAll as bs
  | _, _ => false

end

/-- The form of a set of characters: a set of one character is that character. -/
def ofRanges (ranges : List CodeRange) : Normal :=
  match ranges with
  | [r] => if r.first = r.last then literal [Char.ofNat r.first] else set ranges
  | _ => set ranges

/-- The form of a class; one that lists a single character is that character. -/
def ofClass : CharClass → Normal
  | .char c => literal [c]
  | chars => ofRanges chars.codeRanges

/-- The characters of a literal. -/
def literal? : Normal → Option (List Char)
  | literal chars => some chars
  | _ => none

/-- The character of a literal that has only one. -/
def char? : Normal → Option Char
  | literal [c] => some c
  | _ => none

/-- The ranges of a set. -/
def ranges? : Normal → Option (List CodeRange)
  | set ranges => some ranges
  | _ => none

/-- The parts of a sequence. -/
def parts? : Normal → Option (List Normal)
  | sequence parts => some parts
  | _ => none

/-- The branches of a form; one that is no alternation is its only branch. -/
def branches : Normal → List Normal
  | alternation branches => branches
  | form => [form]

/-- The form of parts that follow each other, without empty parts, sequences among the parts or
literals side by side. -/
def ofParts : List Normal → Normal
  | [] => empty
  | [part] => part
  | parts => sequence parts

/-! ## Sequences -/

/-- Parts that follow each other, as they are collected from left to right. -/
structure Parts where
  /-- The characters that the parts end with, last first. -/
  pending : List Char
  /-- The parts before these, last first. -/
  done : List Normal

namespace Parts

/-- No parts. -/
def nil : Parts := ⟨[], []⟩

/-- The parts so far, last first, with the characters at their end as a literal. -/
def close (parts : Parts) : List Normal :=
  if parts.pending.isEmpty then parts.done else literal parts.pending.reverse :: parts.done

/-- One more part, which is no sequence; a literal joins the literal before it. -/
def addPart (parts : Parts) : Normal → Parts
  | empty => parts
  | literal chars => { parts with pending := chars.reverse ++ parts.pending }
  | part => ⟨[], part :: parts.close⟩

/-- One more form; the parts of a sequence join one by one. -/
def add (parts : Parts) : Normal → Parts
  | sequence more => more.foldl addPart parts
  | part => parts.addPart part

/-- The form of the parts. -/
def form (parts : Parts) : Normal :=
  ofParts parts.close.reverse

end Parts

/-! ## Alternations -/

/-- The form of two or more branches that do not begin alike. -/
def merge (branches : List Normal) : Normal :=
  match branches.mapM char? with
  | some chars => ofRanges (CodeRange.join (chars.map .ofChar))
  | none =>
    match branches.mapM ranges? with
    | some ranges => ofRanges (CodeRange.join ranges.flatten)
    | none => alternation branches

/-- How many parts two lists begin with in common. -/
def countCommon (a b : List Normal) : Nat :=
  ((a.zip b).takeWhile fun (x, y) => x.same y).length

/-- The parts that all branches begin with, and what follows them in each branch. Only sequences
have such parts. -/
def splitCommon (branches : List Normal) : List Normal × List Normal :=
  match branches.mapM parts? with
  | some (first :: rest) =>
    let count :=
      rest.foldl (fun count parts => Nat.min count (countCommon first parts)) first.length
    if count = 0 then ([], branches)
    else (first.take count, (first :: rest).map fun parts => ofParts (parts.drop count))
  | _ => ([], branches)

/-- The form of some branches, what they have in common in front. -/
def ofBranches (branches : List Normal) : Normal :=
  match branches.flatMap Normal.branches with
  | [] => empty
  | [branch] => branch
  | flat =>
    let (common, rest) := splitCommon flat
    ((common.foldl Parts.addPart .nil).add (merge (rest.flatMap Normal.branches))).form

/-! ## Expressions -/

/-- Forms that are collected from left to right. -/
inductive Row
  /-- Parts that follow each other. -/
  | inOrder (parts : Parts)
  /-- Branches, last first. -/
  | anyOf (branches : List Normal)

namespace Row

/-- One more form. -/
def add : Row → Normal → Row
  | .inOrder parts, form => .inOrder (parts.add form)
  | .anyOf branches, form => .anyOf (form :: branches)

/-- The form of a row. -/
def form : Row → Normal
  | .inOrder parts => parts.form
  | .anyOf branches => ofBranches branches.reverse

/-- The row with the form of an expression added. The parts of a sequence join a row of parts one by
one, the sides of an alternation join a row of branches. -/
def collect (row : Row) : Regex → Row
  | .epsilon => row.add empty
  | .one chars => row.add (ofClass chars)
  | .start => row.add start
  | .stop => row.add stop
  | .seq first second =>
    match row with
    | .inOrder _ => collect (collect row first) second
    | .anyOf _ => row.add (collect (collect (.inOrder .nil) first) second).form
  | .alt left right =>
    match row with
    | .inOrder _ => row.add (collect (collect (.anyOf []) left) right).form
    | .anyOf _ => collect (collect row left) right
  | .star body => row.add (star (collect (.inOrder .nil) body).form)
  | .plus body => row.add (plus (collect (.inOrder .nil) body).form)
  | .opt body => row.add (opt (collect (.inOrder .nil) body).form)
  | .group body => row.add (collect (.inOrder .nil) body).form

end Row

end Normal

/-- The normal form of an expression. -/
def Regex.normal (r : Regex) : Normal :=
  (Normal.Row.collect (.inOrder .nil) r).form

end PathPatterns
