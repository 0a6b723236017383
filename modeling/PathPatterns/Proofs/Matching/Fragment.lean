import PathPatterns.Alternative.Fragment
import PathPatterns.Proofs.Matching.Fits

/-!
# The expression of an alternative matches what fits it

The expressions of segments follow each other with separators between them. Where a component is
open the words that follow begin with it; elsewhere they are empty or begin with the separator in
front of the next component.

## Main results

* `mem_language_fragmentParts_iff`: the words of the expressions of some segments are the texts
  whose components the segments take.
* `mem_language_fragmentParts_of_wellFormed`: the same for all segments of an alternative, a root at
  their start included.
-/

namespace PathPatterns

namespace Path

/-- Which components a text brings: those of a path, if a component is open in front of it, and else
those behind the separator with which it begins. -/
def Brings (opened : Bool) (text : List Char) (names : List (List Char)) : Prop :=
  if opened then names = components text else Follows text names

variable {text : List Char} {name : List Char} {names : List (List Char)}

@[simp]
theorem brings_true_iff : Brings true text names ↔ names = components text := Iff.rfl

@[simp]
theorem brings_false_iff : Brings false text names ↔ Follows text names := Iff.rfl

/-- A text that `Brings` a component begins with it, or with the separator in front of it. -/
theorem brings_cons_iff {opened : Bool} :
    Brings opened text (name :: names) ↔
      ∃ rest, (if opened then text = name ++ rest
          else ∃ c, Path.isSeparator c = true ∧ text = c :: (name ++ rest)) ∧
        (∀ c ∈ name, isSeparator c = false) ∧ Follows rest names := by
  cases opened with
  | true =>
    -- the open component is the first one of the whole text
    rw [brings_true_iff, eq_comm, components_eq_cons_iff]
    simp
  | false =>
    rw [brings_false_iff]
    cases text with
    | nil => simp [Follows]
    | cons c text =>
      simp only [Follows, eq_comm (b := components text), components_eq_cons_iff]
      refine ⟨?_, ?_⟩
      · rintro ⟨hc, rest, rfl, hname, hrest⟩
        exact ⟨rest, by simpa using hc, hname, hrest⟩
      · rintro ⟨rest, htext, hname, hrest⟩
        obtain ⟨hc, rfl⟩ : isSeparator c = true ∧ text = name ++ rest := by simpa using htext
        exact ⟨hc, rest, rfl, hname, hrest⟩

/-- Only the empty text `Brings` no component, or nothing but an open one. -/
theorem exists_brings_iff {opened : Bool} :
    (∃ names, Brings opened text names ∧ names = if opened then [[]] else []) ↔ text = [] := by
  cases opened with
  | true =>
    simp only [brings_true_iff, if_pos, exists_eq_right]
    rw [eq_comm, components_eq_cons_iff]
    refine ⟨?_, ?_⟩
    · rintro ⟨rest, rfl, -, hrest⟩
      cases text with
      | nil => rfl
      | cons c text => exact absurd hrest.2.symm (components_ne_nil text)
    · rintro rfl
      exact ⟨[], rfl, by simp, rfl⟩
  | false =>
    cases text with
    | nil => simp [Follows]
    | cons c text => simp [Follows, (components_ne_nil text).symm]

end Path

namespace Segment

open scoped Computability

variable {word : List Char} {names : List (List Char)}

theorem mem_language_anyComponent : word ∈ anyComponent.language ↔ Path.IsName word := by
  rw [anyComponent, Regex.mem_language_plus_one, Path.IsName]
  simp [Path.isSeparator]

/-- `entry` puts a separator in front of the words of `L`, unless a component is open. -/
theorem mem_language_entry_mul_iff {opened : Bool} {L : Language Char} :
    word ∈ (Regex.concat (entry opened)).language * L ↔
      if opened then word ∈ L
      else ∃ c rest, Path.isSeparator c = true ∧ word = c :: rest ∧ rest ∈ L := by
  cases opened with
  | true => simp [entry]
  | false =>
    simp only [entry, Bool.false_eq_true, if_false, Regex.concat_cons, Regex.concat_nil,
      Regex.language_seq, Regex.language_epsilon, mul_one, Language.mem_mul,
      Component.mem_language_separatorRegex]
    refine ⟨?_, ?_⟩
    · rintro ⟨_, ⟨c, rfl, hc⟩, rest, hrest, rfl⟩
      exact ⟨c, rest, hc, rfl, hrest⟩
    · rintro ⟨c, rest, hc, rfl, hrest⟩
      exact ⟨[c], ⟨c, rfl, hc⟩, rest, hrest, rfl⟩

/-- An expression that stands for single components, those with `P`, takes one, and what follows it
takes the others. -/
theorem mem_entry_mul_iff {opened : Bool} {L M : Language Char} {P : List Char → Prop}
    {Q : List (List Char) → Prop} (hL : ∀ name, name ∈ L ↔ P name)
    (hP : ∀ name, P name → ∀ c ∈ name, Path.isSeparator c = false)
    (hM : ∀ rest, rest ∈ M ↔ ∃ names, Path.Follows rest names ∧ Q names) :
    word ∈ (Regex.concat (entry opened)).language * (L * M) ↔
      ∃ names, Path.Brings opened word names ∧
        ∃ name more, names = name :: more ∧ P name ∧ Q more := by
  have hmul : ∀ text, text ∈ L * M ↔
      ∃ name rest, text = name ++ rest ∧ P name ∧ ∃ more, Path.Follows rest more ∧ Q more := by
    intro text
    rw [Language.mem_mul]
    simp only [hL, hM]
    refine ⟨?_, ?_⟩
    · rintro ⟨name, hname, rest, hrest, rfl⟩
      exact ⟨name, rest, rfl, hname, hrest⟩
    · rintro ⟨name, rest, rfl, hname, hrest⟩
      exact ⟨name, hname, rest, hrest, rfl⟩
  rw [mem_language_entry_mul_iff]
  simp only [hmul]
  refine ⟨fun h => ?_, ?_⟩
  · -- an open component begins the word, another one stands behind a separator
    obtain ⟨name, rest, more, htext, hname, hrest, hmore⟩ : ∃ name rest more,
        (if opened = true then word = name ++ rest
          else ∃ c, Path.isSeparator c = true ∧ word = c :: (name ++ rest)) ∧
        P name ∧ Path.Follows rest more ∧ Q more := by
      cases opened with
      | true =>
        obtain ⟨name, rest, hword, hname, more, hrest, hmore⟩ := h
        exact ⟨name, rest, more, hword, hname, hrest, hmore⟩
      | false =>
        obtain ⟨c, _, hc, hword, name, rest, rfl, hname, more, hrest, hmore⟩ := h
        exact ⟨name, rest, more, ⟨c, hc, hword⟩, hname, hrest, hmore⟩
    have hbrings := Path.brings_cons_iff.2 ⟨rest, htext, hP name hname, hrest⟩
    exact ⟨name :: more, hbrings, name, more, rfl, hname, hmore⟩
  · rintro ⟨_, hbrings, name, more, rfl, hname, hmore⟩
    obtain ⟨rest, htext, -, hrest⟩ := Path.brings_cons_iff.1 hbrings
    cases opened with
    | true => exact ⟨name, rest, htext, hname, more, hrest, hmore⟩
    | false =>
      obtain ⟨c, hc, hword⟩ := htext
      exact ⟨c, name ++ rest, hc, hword, name, rest, rfl, hname, more, hrest, hmore⟩

/-! ## Any number of directories -/

/-- The words of `separatorRegex` with `anyComponent` behind it are a separator and a name. -/
theorem mem_separator_mul_anyComponent_iff :
    word ∈ Component.separatorRegex.language * anyComponent.language ↔
      ∃ c name, word = c :: name ∧ Path.isSeparator c = true ∧ Path.IsName name := by
  simp only [Language.mem_mul, Component.mem_language_separatorRegex, mem_language_anyComponent]
  refine ⟨?_, ?_⟩
  · rintro ⟨_, ⟨c, rfl, hc⟩, name, hname, rfl⟩
    exact ⟨c, name, rfl, hc, hname⟩
  · rintro ⟨c, name, rfl, hc, hname⟩
    exact ⟨[c], ⟨c, rfl, hc⟩, name, hname, rfl⟩

/-- The words of `anyComponent` with `separatorRegex` behind it are a name and a separator. -/
theorem mem_anyComponent_mul_separator_iff :
    word ∈ anyComponent.language * Component.separatorRegex.language ↔
      ∃ name c, word = name ++ [c] ∧ Path.isSeparator c = true ∧ Path.IsName name := by
  simp only [Language.mem_mul, Component.mem_language_separatorRegex, mem_language_anyComponent]
  refine ⟨?_, ?_⟩
  · rintro ⟨name, hname, _, ⟨c, rfl, hc⟩, rfl⟩
    exact ⟨name, c, rfl, hc, hname⟩
  · rintro ⟨name, c, rfl, hc, hname⟩
    exact ⟨name, hname, [c], ⟨c, rfl, hc⟩, rfl⟩

/-- Names with a separator in front of each come in front of what `rest` brings where no component
is open. -/
theorem exists_follows_flatten_append {words back : List (List Char)} {rest : List Char}
    (hrest : Path.Follows rest back)
    (hwords : ∀ word ∈ words,
      word ∈ Component.separatorRegex.language * anyComponent.language) :
    ∃ front, Path.Follows (words.flatten ++ rest) (front ++ back) ∧
      ∀ name ∈ front, name ≠ [] := by
  induction words with
  | nil => exact ⟨[], hrest, by simp⟩
  | cons first words ih =>
    obtain ⟨front, hfollows, hfront⟩ := ih fun word hword => hwords word (by simp [hword])
    obtain ⟨c, name, rfl, hc, hname⟩ :=
      mem_separator_mul_anyComponent_iff.1 (hwords first (by simp))
    refine ⟨name :: front, ?_, List.forall_mem_cons.2 ⟨hname.1, hfront⟩⟩
    rw [List.flatten_cons, List.append_assoc, List.cons_append]
    exact ⟨hc, (Path.components_eq_cons_iff.2 ⟨_, rfl, hname.2, hfollows⟩).symm⟩

/-- A text that brings `front` and then other components begins with the names in `front`, with a
separator in front of each. -/
theorem exists_mem_kstar_of_follows {front back : List (List Char)}
    (hfollows : Path.Follows word (front ++ back)) (hfront : ∀ name ∈ front, name ≠ []) :
    ∃ text rest, word = text ++ rest ∧ Path.Follows rest back ∧
      text ∈ (Component.separatorRegex.language * anyComponent.language)∗ := by
  induction front generalizing word with
  | nil => exact ⟨[], word, rfl, hfollows, Language.nil_mem_kstar _⟩
  | cons name front ih =>
    obtain ⟨hname, hfront⟩ := List.forall_mem_cons.1 hfront
    obtain ⟨after, htext, hsep, hafter⟩ :=
      Path.brings_cons_iff.1 (Path.brings_false_iff.2 hfollows)
    obtain ⟨c, hc, rfl⟩ := htext
    obtain ⟨text, rest, rfl, hrest, htext⟩ := ih hafter hfront
    refine ⟨(c :: name) ++ text, rest, by simp, hrest, Regex.mem_kstar_cons ?_ htext⟩
    exact mem_separator_mul_anyComponent_iff.2 ⟨c, name, rfl, hc, hname, hsep⟩

/-- Names with a separator in front of each bring themselves in front of what follows, where no
component is open. -/
theorem mem_kstar_separator_mul_iff {L : Language Char} {Q : List (List Char) → Prop}
    (hL : ∀ rest, rest ∈ L ↔ ∃ names, Path.Follows rest names ∧ Q names) :
    word ∈ (Component.separatorRegex.language * anyComponent.language)∗ * L ↔
      ∃ names, Path.Follows word names ∧
        ∃ front back, names = front ++ back ∧ (∀ name ∈ front, name ≠ []) ∧ Q back := by
  rw [Language.mem_mul]
  simp only [hL]
  refine ⟨?_, ?_⟩
  · rintro ⟨text, htext, rest, ⟨back, hrest, hback⟩, rfl⟩
    obtain ⟨words, rfl, hwords⟩ := Language.mem_kstar.1 htext
    obtain ⟨front, hfollows, hfront⟩ := exists_follows_flatten_append hrest hwords
    exact ⟨_, hfollows, front, back, rfl, hfront, hback⟩
  · rintro ⟨_, hfollows, front, back, rfl, hfront, hback⟩
    obtain ⟨text, rest, rfl, hrest, htext⟩ := exists_mem_kstar_of_follows hfollows hfront
    exact ⟨text, htext, rest, ⟨back, hrest, hback⟩, rfl⟩

/-- Names with a separator behind each come in front of the components of what follows them, as the
separator of each ends its name. -/
theorem exists_components_flatten_append {words : List (List Char)} (path : List Char)
    (hwords : ∀ word ∈ words,
      word ∈ anyComponent.language * Component.separatorRegex.language) :
    ∃ front, Path.components (words.flatten ++ path) = front ++ Path.components path ∧
      ∀ name ∈ front, name ≠ [] := by
  induction words with
  | nil => exact ⟨[], rfl, by simp⟩
  | cons first words ih =>
    obtain ⟨front, hcomponents, hfront⟩ := ih fun word hword => hwords word (by simp [hword])
    obtain ⟨name, c, rfl, hc, hname⟩ :=
      mem_anyComponent_mul_separator_iff.1 (hwords first (by simp))
    refine ⟨name :: front, ?_, List.forall_mem_cons.2 ⟨hname.1, hfront⟩⟩
    rw [List.flatten_cons, List.append_assoc, List.append_assoc, List.singleton_append,
      Path.components_append_cons hc, Path.components_of_forall_not hname.2, hcomponents]
    rfl

/-- A text with the components `front` and then others begins with the names in `front`, with a
separator behind each, if these are names and something follows them. -/
theorem exists_mem_kstar_of_components_eq {front back : List (List Char)}
    (hcomponents : Path.components word = front ++ back) (hfront : ∀ name ∈ front, name ≠ [])
    (hback : back ≠ []) :
    ∃ text path, word = text ++ path ∧ Path.components path = back ∧
      text ∈ (anyComponent.language * Component.separatorRegex.language)∗ := by
  induction front generalizing word with
  | nil => exact ⟨[], word, rfl, hcomponents, Language.nil_mem_kstar _⟩
  | cons name front ih =>
    obtain ⟨hname, hfront⟩ := List.forall_mem_cons.1 hfront
    obtain ⟨after, rfl, hsep, hafter⟩ := Path.components_eq_cons_iff.1 hcomponents
    -- something follows the name, so a separator does
    cases after with
    | nil =>
      have hnil : front ++ back = [] := hafter
      exact absurd (List.append_eq_nil_iff.1 hnil).2 hback
    | cons c after =>
      obtain ⟨hc, hafter⟩ := hafter
      obtain ⟨text, path, rfl, hpath, htext⟩ := ih hafter.symm hfront
      refine ⟨(name ++ [c]) ++ text, path, by simp, hpath, Regex.mem_kstar_cons ?_ htext⟩
      exact mem_anyComponent_mul_separator_iff.2 ⟨name, c, rfl, hc, hname, hsep⟩

/-- Names with a separator behind each bring themselves in front of a component that is open. -/
theorem mem_kstar_anyComponent_mul_iff {L : Language Char} {Q : List (List Char) → Prop}
    (hL : ∀ path, path ∈ L ↔ Q (Path.components path)) (hQ : ∀ names, Q names → names ≠ []) :
    word ∈ (anyComponent.language * Component.separatorRegex.language)∗ * L ↔
      ∃ front back, Path.components word = front ++ back ∧ (∀ name ∈ front, name ≠ []) ∧
        Q back := by
  rw [Language.mem_mul]
  refine ⟨?_, ?_⟩
  · rintro ⟨text, htext, path, hpath, rfl⟩
    obtain ⟨words, rfl, hwords⟩ := Language.mem_kstar.1 htext
    obtain ⟨front, hcomponents, hfront⟩ := exists_components_flatten_append path hwords
    exact ⟨front, _, hcomponents, hfront, (hL path).1 hpath⟩
  · rintro ⟨front, back, hcomponents, hfront, hback⟩
    obtain ⟨text, path, rfl, rfl, htext⟩ :=
      exists_mem_kstar_of_components_eq hcomponents hfront (hQ back hback)
    exact ⟨text, htext, path, (hL path).2 hback, rfl⟩

/-- A name, and names with a separator in front of each, are the texts with components that a `**`
takes where one is open. -/
theorem mem_anyComponent_mul_kstar_iff :
    word ∈ anyComponent.language *
        (Component.separatorRegex.language * anyComponent.language)∗ ↔
      recursive.Takes (Path.components word) := by
  have hone : ∀ rest : List Char, rest ∈ (1 : Language Char) ↔
      ∃ names, Path.Follows rest names ∧ names = [] := by
    intro rest
    rw [Language.mem_one]
    simpa using (@Path.exists_brings_iff rest false).symm
  have hstar : ∀ rest : List Char,
      rest ∈ (Component.separatorRegex.language * anyComponent.language)∗ ↔
        ∃ names, Path.Follows rest names ∧ recursive.Takes names := by
    intro rest
    rw [← mul_one (_∗), mem_kstar_separator_mul_iff hone]
    simp [Takes]
  -- as for one component where one is open, with the others behind it
  have hentry := @mem_entry_mul_iff word true _ _ _ _
    (fun _ => mem_language_anyComponent) (fun _ hname => hname.2) hstar
  rw [mem_language_entry_mul_iff, if_pos rfl] at hentry
  rw [hentry]
  simp only [Path.brings_true_iff, exists_eq_left]
  refine ⟨?_, fun h => ?_⟩
  · rintro ⟨name, more, hcomponents, hname, hmore⟩
    rw [hcomponents]
    exact List.forall_mem_cons.2 ⟨hname.1, hmore⟩
  · cases hcomponents : Path.components word with
    | nil => exact absurd hcomponents (Path.components_ne_nil word)
    | cons name more =>
      rw [hcomponents] at h
      obtain ⟨hname, hmore⟩ := List.forall_mem_cons.1 h
      have hmem : name ∈ Path.components word := by simp [hcomponents]
      exact ⟨name, more, rfl, Path.isName_of_mem_components hmem hname, hmore⟩

/-! ## Segments one after the other -/

/-- The name of a drive is its letter, capital or not, and a colon. -/
theorem mem_drive_iff {letter : Char} :
    word ∈ (Regex.one (.oneOf [letter, letter.toLower])).language * (Regex.char ':').language ↔
      (device letter).Takes [word] := by
  simp only [Language.mem_mul, Regex.mem_language_one, Regex.mem_language_char, Takes]
  refine ⟨?_, ?_⟩
  · rintro ⟨_, ⟨c, rfl, hc⟩, _, rfl, rfl⟩
    simpa using hc
  · rintro (h | h)
    · exact ⟨[letter], ⟨letter, rfl, by simp⟩, [':'], rfl, by simpa using h.symm⟩
    · exact ⟨[letter.toLower], ⟨letter.toLower, rfl, by simp⟩, [':'], rfl, by simpa using h.symm⟩

/-- Neither letter of a drive separates, so the name of a drive is a single component. -/
theorem not_separator_of_takes_device {letter : Char} (h : letter.isUpper = true)
    {name : List Char} (hname : (device letter).Takes [name]) :
    ∀ c ∈ name, Path.isSeparator c = false := by
  obtain ⟨hupper, hlower⟩ := not_separator_of_isUpper h
  rcases hname with hname | hname
  · obtain rfl : name = [letter, ':'] := by simpa using hname
    exact List.forall_mem_cons.2 ⟨hupper, by simp [Path.isSeparator]⟩
  · obtain rfl : name = [letter.toLower, ':'] := by simpa using hname
    exact List.forall_mem_cons.2 ⟨hlower, by simp [Path.isSeparator]⟩

/-- Behind a separator a component is open, so what follows is a whole path. -/
theorem mem_separator_mul_iff {L : Language Char} {Q : List (List Char) → Prop}
    (hL : ∀ path, path ∈ L ↔ Q (Path.components path)) (hQ : ∀ names, Q names → names ≠ []) :
    word ∈ Component.separatorRegex.language * L ↔ ∃ names, Path.Follows word names ∧ Q names := by
  simp only [Language.mem_mul, Component.mem_language_separatorRegex, hL]
  refine ⟨?_, ?_⟩
  · rintro ⟨_, ⟨c, rfl, hc⟩, path, hpath, rfl⟩
    exact ⟨_, ⟨hc, rfl⟩, hpath⟩
  · rintro ⟨names, hfollows, hnames⟩
    cases word with
    | nil => exact absurd hfollows (hQ names hnames)
    | cons c path =>
      obtain ⟨hc, rfl⟩ := hfollows
      exact ⟨[c], ⟨c, rfl, hc⟩, path, hnames, rfl⟩

/-- The words of a `**` in front of other segments, or at the end of all, where it may not leave an
open component alone; `ihOpen` and `ihClosed` tell the words of the other segments where a component
is open and where none is. -/
theorem mem_language_recursive_iff {segments : List Segment} {opened : Bool}
    (ihOpen : ∀ path, path ∈ (Regex.concat (fragmentParts true segments)).language ↔
      TakeToEnd true segments (Path.components path))
    (ihClosed : ∀ rest, rest ∈ (Regex.concat (fragmentParts false segments)).language ↔
      ∃ names, Path.Follows rest names ∧ TakeToEnd false segments names) :
    word ∈ (Regex.concat (fragmentParts opened (recursive :: segments))).language ↔
      ∃ names, Path.Brings opened word names ∧ TakeToEnd opened (recursive :: segments) names := by
  rw [fragmentParts, Regex.concat_cons, Regex.language_seq, anyComponents]
  cases opened with
  | false =>
    -- a separator stands in front of each name
    refine (mem_kstar_separator_mul_iff ihClosed).trans ?_
    refine exists_congr fun names => and_congr_right fun _ => ?_
    rw [takeToEnd_cons_iff (by simp)]
    rfl
  | true =>
    cases segments with
    | nil =>
      -- nothing follows, so there is a first name, or one empty component
      have hempty : word ∈ (1 : Language Char) ↔ Path.components word = [[]] := by
        rw [Language.mem_one]
        simpa [eq_comm] using (@Path.exists_brings_iff word true).symm
      simp only [Path.brings_true_iff, exists_eq_left, takeToEnd_recursive_iff, fragmentParts,
        Regex.concat_nil, Regex.language_epsilon, mul_one]
      refine (or_congr hempty mem_anyComponent_mul_kstar_iff).trans (or_congr_right ?_)
      exact (and_iff_right (Path.components_ne_nil word)).symm
    | cons next rest =>
      -- a separator stands behind each name
      simp only [Path.brings_true_iff, exists_eq_left]
      rw [takeToEnd_cons_iff (by simp)]
      exact mem_kstar_anyComponent_mul_iff ihOpen fun _ => ne_nil_of_takeToEnd

/-- The words of `fragmentParts` are the texts whose components the segments take, by induction on
the segments, for an open and a closed component at once. -/
theorem mem_language_fragmentParts_iff {segments : List Segment}
    (hwf : ∀ segment ∈ segments, segment.WellFormed) (hroot : root ∉ segments) {opened : Bool} :
    word ∈ (Regex.concat (fragmentParts opened segments)).language ↔
      ∃ names, Path.Brings opened word names ∧ TakeToEnd opened segments names := by
  -- along the segments, with a component open in front of them or not
  induction segments generalizing opened word with
  | nil =>
    simp only [takeToEnd_nil_iff]
    rw [Path.exists_brings_iff]
    exact Language.mem_one word
  | cons segment segments ih =>
    obtain ⟨hsegment, hsegments⟩ := List.forall_mem_cons.1 hwf
    obtain ⟨hne, hrest⟩ := not_or.1 (mt List.mem_cons.2 hroot)
    have ih : ∀ {opened : Bool} word,
        word ∈ (Regex.concat (fragmentParts opened segments)).language ↔
          ∃ names, Path.Brings opened word names ∧ TakeToEnd opened segments names :=
      fun word => ih hsegments hrest
    have ihOpen : ∀ path, path ∈ (Regex.concat (fragmentParts true segments)).language ↔
        TakeToEnd true segments (Path.components path) := by
      simp [ih]
    have ihClosed : ∀ rest, rest ∈ (Regex.concat (fragmentParts false segments)).language ↔
        ∃ names, Path.Follows rest names ∧ TakeToEnd false segments names := ih
    cases segment with
    | root => exact absurd rfl hne
    | device letter =>
      rw [fragmentParts, Regex.language_concat_append, Regex.concat_cons, Regex.concat_cons,
        Regex.concat_cons, Regex.language_seq, Regex.language_seq, Regex.language_seq,
        ← mul_assoc (Regex.language (.one _)), mem_entry_mul_iff (fun _ => mem_drive_iff)
          (fun _ => not_separator_of_takes_device hsegment)
          fun _ => mem_separator_mul_iff ihOpen fun _ => ne_nil_of_takeToEnd]
      simp only [takeToEnd_cons_iff_of_single (fun front => @takes_device_iff front letter)
        (by simp), leavesOpen]
    | component c =>
      rw [fragmentParts, Regex.language_concat_append, Regex.concat_cons, Regex.language_seq,
        mem_entry_mul_iff (fun _ => Component.mem_language_regex_iff hsegment)
          (fun _ hname => hname.not_separator hsegment) ihClosed]
      simp only [takeToEnd_cons_iff_of_single (fun _ => Iff.rfl (a := (component c).Takes _))
        (by simp), leavesOpen]
    | anyDirectory =>
      rw [fragmentParts, Regex.language_concat_append, Regex.concat_cons, Regex.language_seq,
        mem_entry_mul_iff (fun _ => mem_language_anyComponent) (fun _ hname => hname.2) ihClosed]
      simp only [takeToEnd_cons_iff_of_single (fun _ => Iff.rfl (a := anyDirectory.Takes _))
        (by simp), leavesOpen]
      -- a component of a path that is not empty is a name
      refine exists_congr fun names => and_congr_right fun hbrings => ?_
      refine exists_congr fun name => exists_congr fun more => and_congr_right fun hnames => ?_
      rw [hnames] at hbrings
      obtain ⟨_, -, hsep, -⟩ := Path.brings_cons_iff.1 hbrings
      exact and_congr_left' ⟨fun hname => hname.1, fun hname => ⟨hname, hsep⟩⟩
    | recursive => exact mem_language_recursive_iff ihOpen ihClosed

/-- The words of `fragmentParts` of all segments of an alternative, the root included, are the paths
whose components the segments take up to the end. -/
theorem mem_language_fragmentParts_of_wellFormed {segments : List Segment}
    (h : (Alternative.steps segments).WellFormed) :
    word ∈ (Regex.concat (fragmentParts true segments)).language ↔
      TakeToEnd true segments (Path.components word) := by
  obtain ⟨-, hwf, hroot⟩ := h
  have hopen : ∀ {segments : List Segment}, (∀ segment ∈ segments, segment.WellFormed) →
      root ∉ segments → ∀ path, path ∈ (Regex.concat (fragmentParts true segments)).language ↔
        TakeToEnd true segments (Path.components path) := by
    intro segments hwf hroot path
    rw [mem_language_fragmentParts_iff hwf hroot]
    simp
  by_cases hmem : root ∈ segments
  · -- the root is the first segment, and a separator stands for it
    cases segments with
    | nil => simp at hmem
    | cons segment rest =>
      obtain rfl : segment = root := by
        rcases List.mem_cons.1 hmem with h | h
        · exact h.symm
        · exact absurd h hroot
      have hroot : root ∉ rest := hroot
      have hrest := hopen (List.forall_mem_cons.1 hwf).2 hroot
      rw [fragmentParts, Regex.concat_cons, Regex.language_seq,
        mem_separator_mul_iff hrest fun _ => ne_nil_of_takeToEnd,
        takeToEnd_cons_iff_of_single (P := fun name => name = []) (by simp [Takes]) (by simp)]
      refine ⟨?_, ?_⟩
      · rintro ⟨names, hfollows, hnames⟩
        have hcomponents : Path.components word = [] :: names :=
          Path.components_eq_cons_iff.2 ⟨word, rfl, by simp, hfollows⟩
        exact ⟨[], names, hcomponents, rfl, hnames⟩
      · rintro ⟨_, names, hcomponents, rfl, hnames⟩
        obtain ⟨_, rfl, -, hfollows⟩ := Path.components_eq_cons_iff.1 hcomponents
        exact ⟨names, hfollows, hnames⟩
  · exact hopen hwf hmem word

/-- No part of the expression of segments has an anchor; only in front of the whole an anchor may
stand. -/
theorem anchorFree_fragmentParts {segments : List Segment} {opened : Bool} :
    ∀ part ∈ fragmentParts opened segments, part.AnchorFree := by
  have hentry : ∀ opened, ∀ part ∈ entry opened, part.AnchorFree := by
    intro opened part hpart
    cases opened with
    | true => simp [entry] at hpart
    | false =>
      rw [List.mem_singleton.1 hpart]
      exact trivial
  -- the part of each segment is a class, a component or a group of them
  induction segments generalizing opened with
  | nil => simp [fragmentParts]
  | cons segment segments ih =>
    cases segment with
    | root => exact List.forall_mem_cons.2 ⟨trivial, ih⟩
    | device letter =>
      refine List.forall_mem_append.2 ⟨hentry opened, ?_⟩
      exact List.forall_mem_cons.2 ⟨trivial, List.forall_mem_cons.2
        ⟨trivial, List.forall_mem_cons.2 ⟨trivial, ih⟩⟩⟩
    | component c =>
      refine List.forall_mem_append.2 ⟨hentry opened, ?_⟩
      exact List.forall_mem_cons.2 ⟨c.anchorFree_regex, ih⟩
    | anyDirectory =>
      refine List.forall_mem_append.2 ⟨hentry opened, ?_⟩
      exact List.forall_mem_cons.2 ⟨trivial, ih⟩
    | recursive =>
      refine List.forall_mem_cons.2 ⟨?_, ih⟩
      rw [anyComponents]
      split
      · split
        · exact ⟨trivial, trivial, trivial⟩
        · exact ⟨trivial, trivial⟩
      · exact ⟨trivial, trivial⟩

end Segment

end PathPatterns
