import PathPatterns.Proofs.Regex.Words
import PathPatterns.Regex.Render

/-!
# Reading the notation of an expression

The notation of expressions, read on its own account: it is told here what the characters of a text
mean, and not how an expression is written. Outside classes a character stands for itself, unless it
is an operator; a backslash takes its meaning from any ASCII punctuation but angle brackets. `[…]`
and `[^…]` are classes, `(?:…)` is a group, `|` separates branches, `*`, `+` and `?` apply to the
part in front of them, and `^` and `$` are the two ends of the text.

The notation has more: counted and lazy repetitions, captures and flags, ranges and nested sets in
classes, an operator for any character. Where one of them begins, reading stops without a result, so
that what is read is read in full.

## Main definitions

* `Notation.read`: the expression that a text notates, if it is well formed.

## Main results

* `Notation.ReadBack.one`: a class is read back from what is written for it.
* `Notation.ReadBack.group_union`: so is a group of branches that are.
* `Notation.read_written`: parts that are read back one by one are read as a sequence.
* `spans_sequence_iff`: a sequence matches what its parts match one after the other.
-/

namespace PathPatterns.Regex

/-- Some expressions one after the other; a single one stands for itself. -/
def sequence : List Regex → Regex
  | [] => epsilon
  | [single] => single
  | first :: rest => seq first (sequence rest)

namespace Notation

/-- The characters with a meaning of their own outside classes. -/
def operators : List Char :=
  ['\\', '.', '+', '*', '?', '(', ')', '|', '[', ']', '{', '}', '^', '$']

/-- The characters with a meaning of their own inside classes. -/
def classOperators : List Char :=
  ['\\', '[', ']', '^', '-', '&', '~']

/-- Whether a backslash takes its meaning from a character. -/
def isEscapable (c : Char) : Bool :=
  0x20 < c.val && c.val < 0x7f && !c.isAlphanum && c != '<' && c != '>'

/-- A choice that is being read, of which some branches are complete. -/
structure Level where
  /-- The branches before the one that is being read, last first. -/
  branches : List Regex
  /-- The parts of the branch that is being read, last first. -/
  parts : List Regex

namespace Level

/-- The choice of which nothing has been read. -/
def empty : Level := ⟨[], []⟩

/-- One more part has been read. -/
def push (level : Level) (part : Regex) : Level :=
  { level with parts := part :: level.parts }

/-- A branch has been read, and another one begins. -/
def next (level : Level) : Level :=
  ⟨sequence level.parts.reverse :: level.branches, []⟩

/-- The choice, when all of it has been read. -/
def close (level : Level) : Regex :=
  union level.next.branches.reverse

/-- Repeats the last part, which has to be a class or a group. -/
def repeatLast (wrap : Regex → Regex) (level : Level) : Option Level :=
  match level.parts with
  | one chars :: parts => some { level with parts := wrap (one chars) :: parts }
  | group body :: parts => some { level with parts := wrap (group body) :: parts }
  | _ => none

end Level

/-- Where a character stands. -/
inductive Place
  /-- Outside classes. -/
  | outside
  /-- Inside a class; `members` are the characters read so far, last first. -/
  | inside (negated : Bool) (members : List Char)

/-- The class of some characters, or of all others if it is `negated`. -/
def classOf (negated : Bool) (members : List Char) : CharClass :=
  if negated then .noneOf members else .oneOf members

/-- Reads the notation of an expression from left to right. `outer` are the choices in which the
groups stand that are open, innermost first, and `level` is the choice that is being read. -/
def readFrom (outer : List Level) (level : Level) : Place → List Char → Option Regex
  | .outside, [] => if outer.isEmpty then some level.close else none
  | .outside, c :: rest =>
    if c ∉ operators then readFrom outer (level.push (.char c)) .outside rest
    else
      match c, rest with
      | '\\', d :: rest =>
        if isEscapable d then readFrom outer (level.push (.char d)) .outside rest else none
      | '[', '^' :: rest => readFrom outer level (.inside true []) rest
      | '[', rest => readFrom outer level (.inside false []) rest
      | '(', '?' :: ':' :: rest => readFrom (level :: outer) .empty .outside rest
      | '|', rest => readFrom outer level.next .outside rest
      | '^', rest => readFrom outer (level.push start) .outside rest
      | '$', rest => readFrom outer (level.push stop) .outside rest
      | ')', rest =>
        match outer with
        | [] => none
        | up :: outer => readFrom outer (up.push (group level.close)) .outside rest
      | '*', rest =>
        match level.repeatLast star with
        | none => none
        | some level => readFrom outer level .outside rest
      | '+', rest =>
        match level.repeatLast plus with
        | none => none
        | some level => readFrom outer level .outside rest
      | '?', rest =>
        match level.repeatLast opt with
        | none => none
        | some level => readFrom outer level .outside rest
      | _, _ => none
  | .inside _ _, [] => none
  | .inside negated members, c :: rest =>
    if c ∉ classOperators then readFrom outer level (.inside negated (c :: members)) rest
    else
      match c, rest with
      | '\\', d :: rest =>
        if isEscapable d then readFrom outer level (.inside negated (d :: members)) rest else none
      | ']', rest =>
        if members.isEmpty then none
        else readFrom outer (level.push (one (classOf negated members.reverse))) .outside rest
      | _, _ => none

/-- The expression that a text notates; `none` if the text is not well formed or uses more of the
notation than is read here. -/
def read (text : String) : Option Regex :=
  readFrom [] .empty .outside text.toList

/-- Whether an expression is read as one part from what is written for it, wherever it stands. -/
def ReadBack (r : Regex) : Prop :=
  ∀ outer level rest,
    readFrom outer level .outside (r.written ++ rest) = readFrom outer (level.push r) .outside rest

variable {outer : List Level} {level up : Level} {c : Char} {rest : List Char}

/-! ## Characters -/

/-- Every character that `escapeChar` writes with a backslash may have one. -/
theorem isEscapable_of_isMeta (h : isMeta c = true) : isEscapable c = true := by
  have hall : ∀ d ∈ "\\.+*?()|[]\x7b\x7d^$#&-~".toList, isEscapable d = true := by
    simp [isEscapable]
  exact hall c (List.contains_iff_mem.1 h)

/-- A character that is written without a backslash has no meaning outside classes. -/
theorem not_mem_operators (h : isMeta c = false) : c ∉ operators := by
  have hall : ∀ d ∈ operators, isMeta d = true := by simp [operators, isMeta]
  intro hmem
  simp [hall c hmem] at h

theorem not_mem_classOperators (h : isMeta c = false) : c ∉ classOperators := by
  have hall : ∀ d ∈ classOperators, isMeta d = true := by simp [classOperators, isMeta]
  intro hmem
  simp [hall c hmem] at h

/-- Outside classes a character that is none of the `operators` stands for itself. -/
theorem readFrom_of_not_mem_operators (h : c ∉ operators) :
    readFrom outer level .outside (c :: rest) =
      readFrom outer (level.push (.char c)) .outside rest := by
  rw [readFrom.eq_def]
  exact if_pos h

/-- Inside a class a character that is none of the `classOperators` is a member. -/
theorem readFrom_of_not_mem_classOperators {negated : Bool} {members : List Char}
    (h : c ∉ classOperators) :
    readFrom outer level (.inside negated members) (c :: rest) =
      readFrom outer level (.inside negated (c :: members)) rest := by
  rw [readFrom.eq_def]
  exact if_pos h

/-- Outside classes a backslash makes a character stand for itself. -/
theorem readFrom_of_isEscapable (h : isEscapable c = true) :
    readFrom outer level .outside ('\\' :: c :: rest) =
      readFrom outer (level.push (.char c)) .outside rest :=
  (show _ = if isEscapable c then _ else none from rfl).trans (if_pos h)

/-- Inside a class a backslash makes a character a member of it. -/
theorem readFrom_inside_of_isEscapable {negated : Bool} {members : List Char}
    (h : isEscapable c = true) :
    readFrom outer level (.inside negated members) ('\\' :: c :: rest) =
      readFrom outer level (.inside negated (c :: members)) rest :=
  (show _ = if isEscapable c then _ else none from rfl).trans (if_pos h)

/-- A character is read back, whether `escapeChar` writes it with a backslash or not. -/
theorem ReadBack.char (c : Char) : ReadBack (.char c) := by
  intro outer level rest
  rw [Regex.char, written, classNotation, escapeChar]
  cases hmeta : isMeta c with
  | true => exact readFrom_of_isEscapable (isEscapable_of_isMeta hmeta)
  | false =>
    exact readFrom_of_not_mem_operators (not_mem_operators hmeta)

/-! ## Classes -/

/-- The characters that are written for `members` join the class that is being read, last first. -/
theorem readFrom_members (negated : Bool) (members before : List Char) :
    readFrom outer level (.inside negated before) (members.flatMap escapeChar ++ rest) =
      readFrom outer level (.inside negated (members.reverse ++ before)) rest := by
  induction members generalizing before with
  | nil => rfl
  | cons c members ih =>
    have hfirst : ∀ more, readFrom outer level (.inside negated before) (escapeChar c ++ more) =
        readFrom outer level (.inside negated (c :: before)) more := by
      intro more
      rw [escapeChar]
      cases hmeta : isMeta c with
      | true => exact readFrom_inside_of_isEscapable (isEscapable_of_isMeta hmeta)
      | false =>
        exact readFrom_of_not_mem_classOperators (not_mem_classOperators hmeta)
    rw [List.flatMap_cons, List.append_assoc, hfirst, ih, List.reverse_cons, List.append_assoc]
    rfl

/-- A class whose first character is written by `escapeChar` is not negated: only an operator would
say so. -/
theorem readFrom_class (c : Char) (more : List Char) :
    readFrom outer level .outside ('[' :: (escapeChar c ++ more)) =
      readFrom outer level (.inside false []) (escapeChar c ++ more) := by
  rw [escapeChar]
  cases hmeta : isMeta c with
  | true => rfl
  | false =>
    have hcaret : c ≠ '^' := by
      rintro rfl
      exact absurd hmeta (by decide)
    simp [readFrom, operators, hcaret]

/-- A class that is not empty is read back, negated or not; an empty one is not read at all. -/
theorem ReadBack.one (negated : Bool) {members : List Char} (h : members ≠ []) :
    ReadBack (.one (classOf negated members)) := by
  intro outer level rest
  -- members are collected in reverse, and the class is closed if there is one
  have hclose : readFrom outer level (.inside negated members.reverse) (']' :: rest) =
      readFrom outer (level.push (.one (classOf negated members))) .outside rest := by
    cases hrev : members.reverse with
    | nil => exact absurd (List.reverse_eq_nil_iff.1 hrev) h
    | cons last others =>
      rw [← List.reverse_reverse members, hrev]
      rfl
  rw [← hclose]
  cases negated with
  | true =>
    rw [written, classOf, if_pos rfl, classNotation]
    simp only [List.cons_append, List.append_assoc, List.nil_append]
    have hopen : ∀ more, readFrom outer level .outside ('[' :: '^' :: more) =
        readFrom outer level (.inside true []) more := fun _ => rfl
    rw [hopen, readFrom_members, List.append_nil]
  | false =>
    rw [written, classOf, if_neg (by simp), classNotation]
    simp only [List.cons_append, List.append_assoc, List.nil_append]
    -- a first member is read on its own, as a `^` there would negate the class
    cases members with
    | nil => exact absurd rfl h
    | cons c members =>
      rw [List.flatMap_cons, List.append_assoc, readFrom_class, ← List.append_assoc,
        ← List.flatMap_cons, readFrom_members, List.append_nil]

/-! ## Parts -/

/-- A repetition of a class is read back if the class is, as `*` applies to the class alone. -/
theorem ReadBack.star_one {chars : CharClass} (h : ReadBack (.one chars)) :
    ReadBack (.star (.one chars)) := by
  intro outer level rest
  rw [written, List.append_assoc, h]
  rfl

theorem ReadBack.stop : ReadBack .stop :=
  fun _ _ _ => rfl

/-- Branches that are read back join the choice in which they stand, up to the `)` of its group. -/
theorem readFrom_union {branches : List Regex} (hne : branches ≠ [])
    (h : ∀ branch ∈ branches, ReadBack branch) (before : List Regex) :
    readFrom (up :: outer) ⟨before, []⟩ .outside ((union branches).written ++ ')' :: rest) =
      readFrom outer (up.push (group (union (before.reverse ++ branches)))) .outside rest := by
  induction branches generalizing before with
  | nil => exact absurd rfl hne
  | cons branch branches ih =>
    obtain ⟨hbranch, hbranches⟩ := List.forall_mem_cons.1 h
    cases branches with
    | nil =>
      have hclose : readFrom (up :: outer) (Level.push ⟨before, []⟩ branch) .outside (')' :: rest) =
          readFrom outer (up.push (group (union (branch :: before).reverse))) .outside rest := rfl
      rw [union, hbranch, hclose, List.reverse_cons]
    | cons next branches =>
      -- the branch that ends is put in front of those that have been read
      have hnext : ∀ more, readFrom (up :: outer) (Level.push ⟨before, []⟩ branch) .outside
          ('|' :: more) = readFrom (up :: outer) ⟨branch :: before, []⟩ .outside more :=
        fun _ => rfl
      rw [union, written, List.append_assoc, hbranch, List.cons_append, hnext,
        ih (by simp) hbranches, List.reverse_cons, List.append_assoc]
      · rfl
      · simp

/-- A group of branches is read back if `ReadBack` holds of each of the branches. -/
theorem ReadBack.group_union {branches : List Regex} (hne : branches ≠ [])
    (h : ∀ branch ∈ branches, ReadBack branch) : ReadBack (.group (union branches)) := by
  intro outer level rest
  have hopen : ∀ more, readFrom outer level .outside ('(' :: '?' :: ':' :: more) =
      readFrom (level :: outer) ⟨[], []⟩ .outside more := fun _ => rfl
  rw [written]
  simp only [List.cons_append, List.append_assoc, List.nil_append]
  rw [hopen, readFrom_union hne h, List.reverse_nil, List.nil_append]

/-! ## Whole texts -/

/-- Parts of which `ReadBack` holds join the branch that is being read, in order. -/
theorem readFrom_written {parts : List Regex} (h : ∀ part ∈ parts, ReadBack part)
    (before : List Regex) :
    readFrom outer ⟨[], before⟩ .outside (parts.flatMap written ++ rest) =
      readFrom outer ⟨[], parts.reverse ++ before⟩ .outside rest := by
  induction parts generalizing before with
  | nil => rfl
  | cons part parts ih =>
    obtain ⟨hpart, hparts⟩ := List.forall_mem_cons.1 h
    rw [List.flatMap_cons, List.append_assoc, hpart, Level.push, ih hparts, List.reverse_cons,
      List.append_assoc]
    rfl

/-- What is written for parts that are read back, one after the other, is read as their
`sequence`. -/
theorem read_written {parts : List Regex} (h : ∀ part ∈ parts, ReadBack part) {text : String}
    (htext : text.toList = parts.flatMap written) : read text = some (sequence parts) := by
  have hread : readFrom [] ⟨[], []⟩ .outside (parts.flatMap written ++ []) =
      readFrom [] ⟨[], parts.reverse ++ []⟩ .outside [] := readFrom_written h []
  have hclose : readFrom [] ⟨[], parts.reverse⟩ .outside [] =
      some (sequence parts.reverse.reverse) := rfl
  rw [List.append_nil, List.append_nil] at hread
  rw [read, htext, Level.empty, hread, hclose, List.reverse_reverse]

end Notation

variable {text : List Char} {i j : Nat}

/-- A `sequence` matches what its parts match one after the other, as `concat` does. -/
theorem spans_sequence_iff {parts : List Regex} :
    (sequence parts).Spans text i j ↔ (concat parts).Spans text i j := by
  induction parts generalizing i with
  | nil => rfl
  | cons part parts ih =>
    cases parts with
    | nil => simp [sequence, concat, Spans.seq_iff, Spans.epsilon_iff]
    | cons next parts =>
      rw [sequence, concat_cons, Spans.seq_iff, Spans.seq_iff]
      · simp only [ih]
      · simp

/-- A span of two lists of expressions is cut at some `j` into a span of each. -/
theorem spans_concat_append_iff {first second : List Regex} {k : Nat} :
    (concat (first ++ second)).Spans text i k ↔
      ∃ j, (concat first).Spans text i j ∧ (concat second).Spans text j k := by
  induction first generalizing i with
  | nil => simp [Spans.epsilon_iff]
  | cons part parts ih =>
    simp only [List.cons_append, concat_cons, Spans.seq_iff, ih]
    exact ⟨fun ⟨m, hpart, j, hfirst, hsecond⟩ => ⟨j, ⟨m, hpart, hfirst⟩, hsecond⟩,
      fun ⟨j, ⟨m, hpart, hfirst⟩, hsecond⟩ => ⟨m, hpart, j, hfirst, hsecond⟩⟩

end PathPatterns.Regex
