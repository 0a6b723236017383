import Mathlib.Data.List.Infix
import Mathlib.Logic.ExistsUnique
import PathPatterns.Environment.Template

/-!
# Texts by their references

A text can be written in exactly one way as plain texts with references between them, such that no
reference starts inside a plain text, not even one that would run into what follows. Expansion puts
the value of its variable in the place of each of these references and keeps the plain texts, so
that nothing in a value counts as a reference.

## Main definitions

* `Reference`: a name between the signs of a reference.
* `Factorization`: plain texts with references between them.
* `Factorization.IsFree`: no reference starts inside a plain text.

## Main results

* `reference?_eq_some_iff`: which reference a text starts with.
* `expand_append_cons`: what is on either side of a semicolon is expanded for itself.
* `Factorization.parse_text`: the parts of a text are those of its factorization.
* `expand_by_references`: what a text is expanded to, reference by reference.
-/

namespace PathPatterns

namespace Template

/-- Whether a text names a variable: a letter or an underscore, and then letters, digits and
underscores. -/
def IsName : List Char → Prop
  | [] => False
  | c :: rest => isNameStart c = true ∧ ∀ d ∈ rest, isNameChar d = true

/-- A reference to a variable, whose name is one. -/
structure Reference where
  /-- How the name is enclosed. -/
  quoting : Quoting
  /-- The name of the variable. -/
  name : List Char
  /-- The name is one. -/
  isName : IsName name

namespace Reference

/-- The reference as a part of a text. -/
def part (reference : Reference) : TemplatePart :=
  .reference reference.quoting reference.name

/-- The text of the reference. -/
def text (reference : Reference) : List Char :=
  reference.part.text

/-- What the reference stands for: the value of its variable, or itself if there is none. -/
def value (env : Environment) (reference : Reference) : List Char :=
  match env.value? (String.ofList reference.name) with
  | some value => value.toList
  | none => reference.text

variable {reference other : Reference}

/-- References are told apart by their parts: `part` keeps the quoting and the name. -/
theorem part_inj : reference.part = other.part ↔ reference = other := by
  obtain ⟨quoting, name, _⟩ := reference
  obtain ⟨quoting', name', _⟩ := other
  simp [part]

theorem part_ne_char (c : Char) : reference.part ≠ .char c := by
  simp [part]

end Reference

/-! ## Where references start -/

section Starts

variable {closing c : Char} {text name plain rest : List Char} {part : TemplatePart}

theorem isNameChar_of_isNameStart (h : isNameStart c = true) : isNameChar c = true := by
  rw [isNameStart, Bool.or_eq_true] at h
  rw [isNameChar, Char.isAlphanum, Bool.or_eq_true, Bool.or_eq_true]
  exact h.imp .inl id

theorem IsName.isNameChar (h : IsName name) : ∀ c ∈ name, isNameChar c = true := by
  cases name with
  | nil => exact h.elim
  | cons c name => exact List.forall_mem_cons.2 ⟨isNameChar_of_isNameStart h.1, h.2⟩

/-- `name?` reads a text up to `closing` exactly if it is a name, as long as `closing` cannot belong
to one. -/
theorem name?_eq_some_iff (h : isNameChar closing = false) :
    name? closing text = some name ↔ IsName name ∧ ∃ rest, text = name ++ closing :: rest := by
  constructor
  · intro hname
    refine ⟨?_, eq_append_of_name? hname⟩
    unfold name? at hname
    split at hname
    · rename_i hstart
      obtain rfl := Option.some.inj hname
      cases text with
      | nil => simp at hstart
      | cons c text =>
        have hc : isNameStart c = true := by
          simp only [List.head?_cons, Option.any_some, Bool.and_eq_true] at hstart
          exact hstart.1
        rw [List.takeWhile_cons_of_pos (isNameChar_of_isNameStart hc)]
        exact ⟨hc, fun d hd => List.all_eq_true.1 List.all_takeWhile d hd⟩
    · simp at hname
  · rintro ⟨hname, rest, rfl⟩
    have hnot : ¬ isNameChar closing = true := by simp [h]
    -- the name is what is taken, since the closing character ends it
    rw [name?, List.takeWhile_append_of_pos hname.isNameChar,
      List.dropWhile_append_of_pos hname.isNameChar, List.takeWhile_cons_of_neg hnot,
      List.dropWhile_cons_of_neg hnot]
    cases name with
    | nil => exact hname.elim
    | cons c name => simp [hname.1]

/-- `reference?` reads the reference that a text begins with, if there is one. -/
theorem reference?_eq_some_iff :
    reference? text = some part ↔
      ∃ reference : Reference, reference.part = part ∧ reference.text <+: text := by
  constructor
  · intro h
    unfold reference? at h
    split at h
    · obtain ⟨name, hname, rfl⟩ := Option.map_eq_some_iff.1 h
      obtain ⟨hvalid, rest, rfl⟩ := (name?_eq_some_iff rfl).1 hname
      refine ⟨⟨.percent, name, hvalid⟩, rfl, rest, ?_⟩
      simp [Reference.text, Reference.part, TemplatePart.text]
    · obtain ⟨name, hname, rfl⟩ := Option.map_eq_some_iff.1 h
      obtain ⟨hvalid, rest, rfl⟩ := (name?_eq_some_iff rfl).1 hname
      refine ⟨⟨.braces, name, hvalid⟩, rfl, rest, ?_⟩
      simp [Reference.text, Reference.part, TemplatePart.text]
    · simp at h
  · rintro ⟨⟨quoting, name, hvalid⟩, rfl, rest, rfl⟩
    -- the name is read up to its closing character
    have hread : ∀ closing, isNameChar closing = false →
        name? closing (name ++ [closing] ++ rest) = some name := fun closing hclosing =>
      (name?_eq_some_iff hclosing).2 ⟨hvalid, rest, by simp⟩
    cases quoting with
    | percent =>
      show (name? '%' (name ++ ['%'] ++ rest)).map _ = _
      rw [hread '%' rfl]
      rfl
    | braces =>
      show (name? '}' (name ++ ['}'] ++ rest)).map _ = _
      rw [hread '}' rfl]
      rfl

/-- A reference is written with the characters of its name and with the signs around it. -/
theorem Reference.isNameChar_or_mem {reference : Reference} (h : c ∈ reference.text) :
    isNameChar c = true ∨ c ∈ ['%', '$', '{', '}'] := by
  obtain ⟨quoting, name, hvalid⟩ := reference
  cases quoting with
  | percent =>
    have hc : c = '%' ∨ c ∈ name := by
      simpa [Reference.text, Reference.part, TemplatePart.text, or_comm] using h
    exact hc.symm.imp (hvalid.isNameChar c) (by rintro rfl; decide)
  | braces =>
    have hc : (c = '$' ∨ c = '{' ∨ c = '}') ∨ c ∈ name := by
      simpa [Reference.text, Reference.part, TemplatePart.text, or_assoc, or_comm] using h
    exact hc.symm.imp (hvalid.isNameChar c) (by rintro (rfl | rfl | rfl) <;> decide)

/-- Whether no reference starts inside `plain`, with `rest` behind it. -/
def NoneStarts (plain rest : List Char) : Prop :=
  ∀ before after, plain = before ++ after → after ≠ [] →
    ∀ reference : Reference, ¬ reference.text <+: after ++ rest

@[simp]
theorem noneStarts_nil (rest : List Char) : NoneStarts [] rest := by
  intro before after happend hne
  exact absurd (List.append_eq_nil_iff.1 happend.symm).2 hne

/-- `NoneStarts` holds of a text exactly if no reference starts at its first character and none
inside the rest. -/
theorem noneStarts_cons_iff :
    NoneStarts (c :: plain) rest ↔
      reference? (c :: (plain ++ rest)) = none ∧ NoneStarts plain rest := by
  rw [Option.eq_none_iff_forall_ne_some]
  constructor
  · intro h
    refine ⟨fun part hpart => ?_, fun before after happend hne => ?_⟩
    · obtain ⟨reference, -, hprefix⟩ := reference?_eq_some_iff.1 hpart
      exact h [] _ rfl (by simp) reference hprefix
    · exact h (c :: before) after (by rw [happend, List.cons_append]) hne
  · rintro ⟨hnone, h⟩ before after happend hne reference hprefix
    cases before with
    | nil =>
      obtain rfl : c :: plain = after := happend
      exact hnone _ (reference?_eq_some_iff.2 ⟨reference, rfl, hprefix⟩)
    | cons d before => exact h before after (List.cons.inj happend).2 hne reference hprefix

/-- Where no reference starts inside `plain`, each of its characters is a part of its own. -/
theorem parse_append_of_noneStarts (h : NoneStarts plain rest) :
    parse (plain ++ rest) = plain.map .char ++ parse rest := by
  induction plain with
  | nil => rfl
  | cons c plain ih =>
    obtain ⟨hnone, hplain⟩ := noneStarts_cons_iff.1 h
    rw [List.cons_append, parse_of_reference?_eq_none hnone, ih hplain, List.map_cons,
      List.cons_append]

end Starts

/-! ## Semicolons -/

/-- No reference reaches up to a semicolon, so one behind a text does not change which reference the
text starts with. -/
theorem reference?_append_cons (text rest : List Char) :
    reference? (text ++ ';' :: rest) = reference? text := by
  have hprefix : ∀ reference : Reference,
      reference.text <+: text ++ ';' :: rest ↔ reference.text <+: text := by
    refine fun reference => ⟨fun h => ?_, fun h => h.trans (List.prefix_append ..)⟩
    rcases Nat.le_total reference.text.length text.length with hlength | hlength
    · exact List.prefix_of_prefix_length_le h (List.prefix_append ..) hlength
    · obtain ⟨back, hback⟩ :=
        List.prefix_of_prefix_length_le (List.prefix_append text (';' :: rest)) h hlength
      cases back with
      | nil => rw [← hback, List.append_nil]
      | cons c back =>
        -- the character behind the text would be the semicolon
        obtain ⟨more, hmore⟩ := h
        rw [← hback, List.append_assoc, List.append_cancel_left_eq] at hmore
        obtain rfl : c = ';' := (List.cons.inj hmore).1
        have hsign := reference.isNameChar_or_mem (c := ';') (by simp [← hback])
        exact absurd hsign (by decide)
  ext part
  simp only [reference?_eq_some_iff, hprefix]

/-- By `parse`, the parts of a text with a semicolon in it are those on either side of it, and the
semicolon itself. -/
theorem parse_append_cons (text rest : List Char) :
    parse (text ++ ';' :: rest) = parse text ++ .char ';' :: parse rest := by
  induction text using parse_induction with
  | nil => exact parse_of_reference?_eq_none rfl
  | char c text h ih =>
    have hreference := reference?_append_cons (c :: text) rest
    rw [h, List.cons_append] at hreference
    rw [List.cons_append, parse_of_reference?_eq_none hreference, ih,
      parse_of_reference?_eq_none h, List.cons_append]
  | reference part text h ih =>
    -- the reference is in front of the semicolon
    have hreference := reference?_append_cons (part.text ++ text) rest
    rw [h, List.append_assoc] at hreference
    rw [List.append_assoc, parse_of_reference? hreference, ih, parse_of_reference? h,
      List.cons_append]

/-- `expand` treats what is on either side of a semicolon for itself, as lists of characters. -/
theorem expand_append_cons (env : Environment) (text rest : String) :
    (expand env (text ++ ";" ++ rest)).toList =
      (expand env text).toList ++ ';' :: (expand env rest).toList := by
  have hjoined : (text ++ ";" ++ rest).toList = text.toList ++ ';' :: rest.toList := by
    simp
  simp only [expand, String.toList_ofList, hjoined, parse_append_cons]
  simp [TemplatePart.expand]

/-! ## Plain texts and references -/

/-- Plain texts with references between them, possibly empty ones. -/
inductive Factorization
  /-- A plain text at the end. -/
  | last (plain : List Char)
  /-- A plain text with a reference behind it, and what stands behind that. -/
  | cons (plain : List Char) (reference : Reference) (rest : Factorization)

namespace Factorization

/-- The text that a factorization writes. -/
def text : Factorization → List Char
  | last plain => plain
  | cons plain reference rest => plain ++ (reference.text ++ rest.text)

/-- Whether no reference starts inside a plain text, not even one that would run into what
follows. -/
def IsFree : Factorization → Prop
  | last plain => NoneStarts plain []
  | cons plain reference rest => NoneStarts plain (reference.text ++ rest.text) ∧ rest.IsFree

/-- The references, in order. -/
def references : Factorization → List Reference
  | last _ => []
  | cons _ reference rest => reference :: rest.references

/-- The text with the values of the references in their places; the plain texts stay. -/
def expand (env : Environment) : Factorization → List Char
  | last plain => plain
  | cons plain reference rest => plain ++ (reference.value env ++ rest.expand env)

/-- The parts of the text: one for each character of a plain text, and the references. -/
def parts : Factorization → List TemplatePart
  | last plain => plain.map .char
  | cons plain reference rest => plain.map .char ++ reference.part :: rest.parts

/-- The factorization with one more character at the start of its first plain text. -/
def push (c : Char) : Factorization → Factorization
  | last plain => last (c :: plain)
  | cons plain reference rest => cons (c :: plain) reference rest

variable {f g : Factorization} {c : Char} {env : Environment}

@[simp]
theorem text_push (c : Char) (f : Factorization) : (f.push c).text = c :: f.text := by
  cases f <;> rfl

/-- `push` keeps `IsFree` where no reference starts at the new character. -/
theorem isFree_push (hnone : reference? (c :: f.text) = none) (h : f.IsFree) :
    (f.push c).IsFree := by
  cases f with
  | last plain => exact noneStarts_cons_iff.2 ⟨by simpa [Factorization.text] using hnone, h⟩
  | cons plain ref rest => exact ⟨noneStarts_cons_iff.2 ⟨hnone, h.1⟩, h.2⟩

/-- Every text has a factorization that `IsFree`: the one from which it is read. -/
theorem exists_isFree (text : List Char) : ∃ f : Factorization, f.text = text ∧ f.IsFree := by
  induction text using parse_induction with
  | nil => exact ⟨last [], rfl, noneStarts_nil []⟩
  | char c rest hnone ih =>
    obtain ⟨f, rfl, hfree⟩ := ih
    exact ⟨f.push c, text_push c f, isFree_push hnone hfree⟩
  | reference part rest hpart ih =>
    obtain ⟨f, rfl, hfree⟩ := ih
    obtain ⟨ref, rfl, -⟩ := reference?_eq_some_iff.1 hpart
    exact ⟨cons [] ref f, rfl, noneStarts_nil _, hfree⟩

/-- The parts of a text are those of each factorization of it that `IsFree`. -/
theorem parse_text (h : f.IsFree) : parse f.text = f.parts := by
  induction f with
  | last plain =>
    have hparse := parse_append_of_noneStarts h
    rw [List.append_nil] at hparse
    rw [Factorization.text, hparse]
    exact List.append_nil _
  | cons plain ref rest ih =>
    obtain ⟨hplain, hrest⟩ := h
    have hread : reference? (ref.part.text ++ rest.text) = some ref.part :=
      reference?_eq_some_iff.2 ⟨ref, rfl, List.prefix_append ..⟩
    rw [Factorization.text, parse_append_of_noneStarts hplain, Reference.text,
      parse_of_reference? hread, ih hrest, parts]

/-- Lists of parts that are characters up to a reference show this reference, what stands in front
of it and what behind it. -/
theorem append_part_inj {plain plain' : List Char} {ref ref' : Reference}
    {after after' : List TemplatePart}
    (h : plain.map .char ++ ref.part :: after = plain'.map .char ++ ref'.part :: after') :
    plain = plain' ∧ ref = ref' ∧ after = after' := by
  induction plain generalizing plain' with
  | nil =>
    cases plain' with
    | nil => simpa [Reference.part_inj] using h
    | cons c plain' => exact absurd (List.cons.inj h).1 (ref.part_ne_char c)
  | cons c plain ih =>
    cases plain' with
    | nil => exact absurd (List.cons.inj h).1.symm (ref'.part_ne_char c)
    | cons d plain' =>
      obtain ⟨hc, hrest⟩ := List.cons.inj h
      obtain ⟨rfl, rfl, rfl⟩ := ih hrest
      exact ⟨by rw [TemplatePart.char.inj hc], rfl, rfl⟩

/-- Different factorizations have different parts. -/
theorem parts_injective : Function.Injective parts := by
  -- no reference is among the parts of a plain text
  have hplain : ∀ (text plain : List Char) (ref : Reference) (after : List TemplatePart),
      text.map .char ≠ plain.map .char ++ ref.part :: after := by
    intro text plain ref after h
    have hmem : ref.part ∈ text.map TemplatePart.char := by simp [h]
    obtain ⟨c, -, hc⟩ := List.mem_map.1 hmem
    exact ref.part_ne_char c hc.symm
  intro f g h
  induction f generalizing g with
  | last plain =>
    cases g with
    | last plain' =>
      have hinj : Function.Injective TemplatePart.char := fun _ _ => TemplatePart.char.inj
      rw [List.map_injective_iff.2 hinj h]
    | cons plain' ref rest => exact absurd h (hplain _ _ _ _)
  | cons plain ref rest ih =>
    cases g with
    | last plain' => exact absurd h.symm (hplain _ _ _ _)
    | cons plain' ref' rest' =>
      obtain ⟨rfl, rfl, hrest⟩ := append_part_inj h
      rw [ih hrest]

/-- A text has no two factorizations that satisfy `IsFree`. -/
theorem IsFree.unique (hf : f.IsFree) (hg : g.IsFree) (h : f.text = g.text) : f = g := by
  apply parts_injective
  rw [← parse_text hf, ← parse_text hg, h]

/-- Expanding the parts of a factorization one by one is `Factorization.expand`. -/
theorem flatMap_expand_parts (f : Factorization) (env : Environment) :
    f.parts.flatMap (TemplatePart.expand env) = f.expand env := by
  have hchars : ∀ text : List Char, (text.map .char).flatMap (TemplatePart.expand env) = text := by
    intro text
    induction text with
    | nil => rfl
    | cons c text ih => rw [List.map_cons, List.flatMap_cons, ih]; rfl
  induction f with
  | last plain => exact hchars plain
  | cons plain ref rest ih =>
    rw [parts, List.flatMap_append, List.flatMap_cons, hchars, ih]
    rfl

/-- A factorization without a reference whose variable has a value is expanded to its `text`. -/
theorem expand_eq_text
    (h : ∀ reference ∈ f.references, env.value? (String.ofList reference.name) = none) :
    f.expand env = f.text := by
  induction f with
  | last plain => rfl
  | cons plain ref rest ih =>
    obtain ⟨href, hrest⟩ := List.forall_mem_cons.1 h
    rw [expand, ih hrest, Reference.value, href, Factorization.text]

end Factorization

/-- A text is expanded reference by reference. There is exactly one `Factorization` of it that
`IsFree`, and `expand` replaces each of its references by the value of its variable, if it has one.
A text is therefore kept where none of these variables has a value, and what is on either side of a
semicolon is expanded for itself. -/
theorem expand_by_references (text : String) :
    (∃! f : Factorization, f.text = text.toList ∧ f.IsFree) ∧
    (∀ f : Factorization, f.text = text.toList → f.IsFree → ∀ env : Environment,
      (expand env text).toList = f.expand env ∧
      ((∀ reference ∈ f.references, env.value? (String.ofList reference.name) = none) →
        expand env text = text)) ∧
    ∀ (env : Environment) (other : String),
      expand env (text ++ ";" ++ other) = expand env text ++ ";" ++ expand env other := by
  refine ⟨?_, fun f htext hfree env => ?_, fun env other => ?_⟩
  · obtain ⟨f, htext, hfree⟩ := Factorization.exists_isFree text.toList
    exact ⟨f, ⟨htext, hfree⟩, fun g hg => hg.2.unique hfree (hg.1.trans htext.symm)⟩
  · have hexpand : (expand env text).toList = f.expand env := by
      rw [expand, String.toList_ofList, ← htext, Factorization.parse_text hfree,
        Factorization.flatMap_expand_parts]
    refine ⟨hexpand, fun hnone => String.toList_injective ?_⟩
    rw [hexpand, Factorization.expand_eq_text hnone, htext]
  · apply String.toList_injective
    rw [expand_append_cons]
    simp

/-- A text with a sign in front of a reference, one that belongs to two references at first sight,
and a value that looks like a reference. -/
def adjacentReferences : Factorization :=
  .cons "a%".toList ⟨.percent, ['A'], by simp [IsName, isNameStart]⟩
    (.cons "B%".toList ⟨.braces, ['B'], by simp [IsName, isNameStart]⟩ (.last []))

/-- The text of `adjacentReferences` is expanded to the values of its two references, and what the
first of them stands for is not expanded again. -/
theorem expand_adjacentReferences :
    adjacentReferences.text = "a%%A%B%${B}".toList ∧ adjacentReferences.IsFree ∧
      (expand (.ofList [("A", "%B%".toUTF8), ("B", "b".toUTF8)]) "a%%A%B%${B}").toList =
        "a%%B%B%b".toList := by
  have htext : adjacentReferences.text = "a%%A%B%${B}".toList := by decide
  have hfree : adjacentReferences.IsFree := by
    have hfirst : NoneStarts "a%".toList "%A%B%${B}".toList :=
      noneStarts_cons_iff.2 ⟨rfl, noneStarts_cons_iff.2 ⟨rfl, noneStarts_nil _⟩⟩
    have hsecond : NoneStarts "B%".toList "${B}".toList :=
      noneStarts_cons_iff.2 ⟨rfl, noneStarts_cons_iff.2 ⟨rfl, noneStarts_nil _⟩⟩
    exact ⟨hfirst, hsecond, noneStarts_nil _⟩
  refine ⟨htext, hfree, ?_⟩
  rw [((expand_by_references _).2.1 _ htext hfree _).1]
  decide +kernel

end Template

end PathPatterns
