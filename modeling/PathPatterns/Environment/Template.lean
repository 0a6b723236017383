import PathPatterns.Environment

/-!
# Text with references to variables

Text is read once, from left to right, into single characters and references `%NAME%` or
`${NAME}`. Expanding it writes the value of each variable that is set and keeps the reference to
any other as it stands. Values are not read again.

## Main definitions

* `Template.expand`: the operation `expand_env_vars`.

## Main results

* `text_parse`: the parts of a text write that text.
* `expand_eq_self`: expansion changes nothing where no variable is set.
-/

namespace PathPatterns

/-- How a reference encloses the name of its variable. -/
inductive Quoting
  /-- The form `%NAME%`. -/
  | percent
  /-- The form `${NAME}`. -/
  | braces
deriving Repr, DecidableEq

/-- A part of a text with references. -/
inductive TemplatePart
  /-- A character that stands for itself. -/
  | char (c : Char)
  /-- A reference to a variable. -/
  | reference (quoting : Quoting) (name : List Char)
deriving Repr, DecidableEq

namespace TemplatePart

/-- The characters with which a part is written. -/
def text : TemplatePart → List Char
  | .char c => [c]
  | .reference .percent name => '%' :: name ++ ['%']
  | .reference .braces name => '$' :: '{' :: name ++ ['}']

/-- The characters that a part stands for: a reference to a variable that is not set stands for
itself. -/
def expand (env : Environment) : TemplatePart → List Char
  | .char c => [c]
  | .reference quoting name =>
    match env.value? (String.ofList name) with
    | some value => value.toList
    | none => (reference quoting name).text

end TemplatePart

namespace Template

/-- A name starts with an ASCII letter or an underscore. -/
def isNameStart (c : Char) : Bool :=
  c.isAlpha || c == '_'

/-- A name goes on with ASCII letters, digits and underscores. -/
def isNameChar (c : Char) : Bool :=
  c.isAlphanum || c == '_'

/-- The name at the start of `text`, if there is one and `closing` follows it. -/
def name? (closing : Char) (text : List Char) : Option (List Char) :=
  if text.head?.any isNameStart && (text.dropWhile isNameChar).head? == some closing then
    some (text.takeWhile isNameChar)
  else none

/-- The reference at the start of `text`, in either quoting, if there is one. -/
def reference? : List Char → Option TemplatePart
  | '%' :: rest => (name? '%' rest).map (.reference .percent)
  | '$' :: '{' :: rest => (name? '}' rest).map (.reference .braces)
  | _ => none

/-- The parts of a text after its first `skip` characters, which an earlier part already covers. -/
def parseFrom (skip : Nat) : List Char → List TemplatePart
  | [] => []
  | c :: rest =>
    match skip with
    | skip + 1 => parseFrom skip rest
    | 0 =>
      -- a reference is taken whole, so none starts inside another
      match reference? (c :: rest) with
      | some part => part :: parseFrom (part.text.length - 1) rest
      | none => .char c :: parseFrom 0 rest

/-- The parts of a text: at each place the reference that starts there, or else one character. -/
def parse (text : List Char) : List TemplatePart :=
  parseFrom 0 text

/-- The text that the parts write, whatever the variables are set to. -/
def text (parts : List TemplatePart) : List Char :=
  parts.flatMap TemplatePart.text

/-- The text with its references replaced by the values of their variables; values are not read
again. -/
def expand (env : Environment) (text : String) : String :=
  String.ofList ((parse text.toList).flatMap (TemplatePart.expand env))

/-- What `name?` reads stands at the start of `text`, and `closing` follows it. -/
theorem eq_append_of_name? {closing : Char} {text name : List Char}
    (h : name? closing text = some name) : ∃ rest, text = name ++ closing :: rest := by
  unfold name? at h
  split at h
  · rename_i hc
    obtain ⟨-, hc⟩ := Bool.and_eq_true_iff.1 hc
    cases hd : text.dropWhile isNameChar with
    | nil => simp [hd] at hc
    | cons d after =>
      have hd' : d = closing := by simpa [hd] using hc
      refine ⟨after, ?_⟩
      rw [← Option.some.inj h, ← hd', ← hd, List.takeWhile_append_dropWhile]
  · simp at h

/-- A reference that is read is how `text` starts. -/
theorem eq_append_of_reference? {text : List Char} {part : TemplatePart}
    (h : reference? text = some part) : ∃ rest, text = part.text ++ rest := by
  unfold reference? at h
  split at h
  · obtain ⟨name, hn, rfl⟩ := Option.map_eq_some_iff.1 h
    obtain ⟨rest, rfl⟩ := eq_append_of_name? hn
    exact ⟨rest, by simp [TemplatePart.text]⟩
  · obtain ⟨name, hn, rfl⟩ := Option.map_eq_some_iff.1 h
    obtain ⟨rest, rfl⟩ := eq_append_of_name? hn
    exact ⟨rest, by simp [TemplatePart.text]⟩
  · simp at h

/-- Every part is written with at least one character, so reading makes progress. -/
theorem length_text_pos (part : TemplatePart) : 0 < part.text.length := by
  cases part with
  | char c => simp [TemplatePart.text]
  | reference quoting name => cases quoting <;> simp [TemplatePart.text]

/-- Skipping the first `skip` characters is leaving them out. -/
theorem parseFrom_eq (skip : Nat) (t : List Char) :
    parseFrom skip t = parse (t.drop skip) := by
  induction t generalizing skip with
  | nil => cases skip <;> rfl
  | cons c rest ih =>
    cases skip with
    | zero => rfl
    | succ skip => simp [parseFrom, ih]

/-- Where a reference starts, it is the first part, and the rest is read after it. -/
theorem parse_of_reference? {rest : List Char} {part : TemplatePart}
    (h : reference? (part.text ++ rest) = some part) :
    parse (part.text ++ rest) = part :: parse rest := by
  cases hp : part.text with
  | nil => exact absurd (length_text_pos part) (by simp [hp])
  | cons c cs =>
    rw [hp] at h
    rw [parse, List.cons_append, parseFrom, ← List.cons_append, h]
    simp [parseFrom_eq, hp]

/-- Where no reference starts, the first part is one character. -/
theorem parse_of_reference?_eq_none {c : Char} {rest : List Char}
    (h : reference? (c :: rest) = none) : parse (c :: rest) = .char c :: parse rest := by
  rw [parse, parseFrom, h, parse]

/-- Induction along the parts of a text: where a text begins, either a reference starts, or one
character stands for itself. -/
@[elab_as_elim]
theorem parse_induction {motive : List Char → Prop} (nil : motive [])
    (char : ∀ c rest, reference? (c :: rest) = none → motive rest → motive (c :: rest))
    (reference : ∀ part rest, reference? (part.text ++ rest) = some part → motive rest →
      motive (part.text ++ rest))
    (t : List Char) : motive t := by
  induction hn : t.length using Nat.strongRecOn generalizing t with
  | ind n ih =>
    cases t with
    | nil => exact nil
    | cons c rest =>
      cases h : reference? (c :: rest) with
      | none => exact char c rest h (ih rest.length (by simp [← hn]) rest rfl)
      | some part =>
        obtain ⟨after, ha⟩ := eq_append_of_reference? h
        rw [ha] at h hn ⊢
        -- a reference is written with at least one character
        have hpos := length_text_pos part
        exact reference part after h (ih after.length (by simp [← hn]; omega) after rfl)

/-- The parts of a text write that text, so nothing is lost by reading it. -/
theorem text_parse (t : List Char) : text (parse t) = t := by
  induction t using parse_induction with
  | nil => rfl
  | char c rest h ih =>
    rw [parse_of_reference?_eq_none h]
    simpa [text, TemplatePart.text] using ih
  | reference part rest h ih =>
    rw [parse_of_reference? h]
    simpa [text] using ih

/-- `expand` changes nothing in an environment in which no name has a value. -/
theorem expand_eq_self {env : Environment} (h : ∀ name, env.value? name = none) (t : String) :
    expand env t = t := by
  have hpart : TemplatePart.expand env = TemplatePart.text := by
    funext part
    cases part <;> simp [TemplatePart.expand, TemplatePart.text, h]
  have ht := text_parse t.toList
  rw [expand, hpart]
  simp only [text] at ht
  rw [ht, String.ofList_toList]

end Template

end PathPatterns
