import Mathlib.Computability.Language
import PathPatterns.Regex.Language

/-!
# The words of an expression

An expression without anchors matches a span for its characters alone, wherever the span stands.
Such an expression has a language of words, built by union, product and repetition.

## Main results

* `spans_iff_reads`: an expression without anchors matches exactly the spans that hold one of its
  words.
* `spans_length_iff`: an expression without anchors matches up to the end of a text exactly if what
  is left of the text is one of its words.
-/

namespace PathPatterns

namespace Regex

/-- An expression in which neither end of the text occurs, so that what stands around a span does
not matter. -/
def AnchorFree : Regex → Prop
  | epsilon => True
  | one _ => True
  | start => False
  | stop => False
  | seq first second => first.AnchorFree ∧ second.AnchorFree
  | alt left right => left.AnchorFree ∧ right.AnchorFree
  | star body => body.AnchorFree
  | plus body => body.AnchorFree
  | opt body => body.AnchorFree
  | group body => body.AnchorFree

open scoped Computability

/-- The words of an expression, as a language of Mathlib. An anchor has none. -/
def language : Regex → Language Char
  | epsilon => 1
  | one chars => {word | ∃ c, word = [c] ∧ chars.contains c = true}
  | start => 0
  | stop => 0
  | seq first second => first.language * second.language
  | alt left right => left.language + right.language
  | star body => body.language∗
  | plus body => body.language * body.language∗
  | opt body => 1 + body.language
  | group body => body.language

theorem mem_language_one {chars : CharClass} {word : List Char} :
    word ∈ (one chars).language ↔ ∃ c, word = [c] ∧ chars.contains c = true := Iff.rfl

@[simp]
theorem mem_language_char {c : Char} {word : List Char} :
    word ∈ (char c).language ↔ word = [c] := by
  rw [char, mem_language_one]
  simp

@[simp]
theorem language_epsilon : epsilon.language = 1 := rfl

@[simp]
theorem language_seq (a b : Regex) : (seq a b).language = a.language * b.language := rfl

@[simp]
theorem language_star (a : Regex) : (star a).language = a.language∗ := rfl

@[simp]
theorem language_plus (a : Regex) : (plus a).language = a.language * a.language∗ := rfl

@[simp]
theorem language_group (a : Regex) : (group a).language = a.language := rfl

/-- The words of the `concat` of two lists are those of the one before those of the other. -/
theorem language_concat_append (first second : List Regex) :
    (concat (first ++ second)).language =
      (concat first).language * (concat second).language := by
  induction first with
  | nil => simp
  | cons part parts ih => simp [ih, mul_assoc]

/-- The `union` of some branches has the words of each, if there is a branch. -/
theorem mem_language_union {branches : List Regex} (h : branches ≠ []) {word : List Char} :
    word ∈ (union branches).language ↔ ∃ branch ∈ branches, word ∈ branch.language := by
  induction branches with
  | nil => exact absurd rfl h
  | cons branch rest ih =>
    cases rest with
    | nil => simp [union]
    | cons next rest =>
      rw [union, language, Language.mem_add, ih (by simp)]
      · simp
      · simp

/-- A word in front of words of a repetition makes a word of it. -/
theorem mem_kstar_cons {L : Language Char} {first rest : List Char} (hf : first ∈ L)
    (hr : rest ∈ L∗) : first ++ rest ∈ L∗ := by
  rw [← Language.one_add_self_mul_kstar_eq_kstar]
  exact .inr (Language.append_mem_mul hf hr)

/-- A repeated class has the words that hold only members of `chars`. -/
theorem mem_language_star_one {chars : CharClass} {word : List Char} :
    word ∈ (star (one chars)).language ↔ ∀ c ∈ word, chars.contains c = true := by
  rw [language_star, Language.mem_kstar]
  refine ⟨?_, fun h => ⟨word.map fun c => [c], ?_, ?_⟩⟩
  · rintro ⟨words, rfl, hwords⟩ c hc
    obtain ⟨single, hsingle, hc⟩ := List.mem_flatten.1 hc
    obtain ⟨d, rfl, hd⟩ := hwords single hsingle
    rwa [List.mem_singleton.1 hc]
  · -- a word falls into its characters
    rw [← List.flatMap_def, List.flatMap_singleton']
  · intro single hsingle
    obtain ⟨c, hc, rfl⟩ := List.mem_map.1 hsingle
    exact ⟨c, rfl, h c hc⟩

/-- A class repeated at least once has the words that are not empty and hold only members of
`chars`. -/
theorem mem_language_plus_one {chars : CharClass} {word : List Char} :
    word ∈ (plus (one chars)).language ↔ word ≠ [] ∧ ∀ c ∈ word, chars.contains c = true := by
  rw [language_plus, ← language_star, Language.mem_mul]
  simp only [mem_language_star_one]
  refine ⟨?_, ?_⟩
  · rintro ⟨_, ⟨c, rfl, hc⟩, rest, hrest, rfl⟩
    exact ⟨by simp, List.forall_mem_cons.2 ⟨hc, hrest⟩⟩
  · rintro ⟨hne, hall⟩
    cases word with
    | nil => exact absurd rfl hne
    | cons c rest =>
      obtain ⟨hc, hrest⟩ := List.forall_mem_cons.1 hall
      exact ⟨[c], ⟨c, rfl, hc⟩, rest, hrest, rfl⟩

/-- Whether `text` holds a word of a language from position `i` up to position `j`. -/
def Reads (text : List Char) (L : Language Char) (i j : Nat) : Prop :=
  ∃ word rest, text.drop i = word ++ rest ∧ word ∈ L ∧ j = i + word.length

variable {text : List Char} {L M : Language Char} {i j k : Nat}

/-- The language of the empty word is read without going on. -/
theorem reads_one_iff : Reads text 1 i j ↔ j = i := by
  refine ⟨?_, ?_⟩
  · rintro ⟨word, rest, -, hw, rfl⟩
    rw [(Language.mem_one word).1 hw]
    rfl
  · rintro rfl
    exact ⟨[], text.drop j, rfl, Language.nil_mem_one, rfl⟩

/-- A word of two languages together is one of either. -/
theorem reads_add_iff : Reads text (L + M) i j ↔ Reads text L i j ∨ Reads text M i j := by
  refine ⟨?_, ?_⟩
  · rintro ⟨word, rest, hd, hw | hw, hj⟩
    · exact .inl ⟨word, rest, hd, hw, hj⟩
    · exact .inr ⟨word, rest, hd, hw, hj⟩
  · rintro (⟨word, rest, hd, hw, hj⟩ | ⟨word, rest, hd, hw, hj⟩)
    · exact ⟨word, rest, hd, .inl hw, hj⟩
    · exact ⟨word, rest, hd, .inr hw, hj⟩

/-- A word of a product is read as two words: one of `L`, and behind it one of `M`. -/
theorem reads_mul_iff : Reads text (L * M) i k ↔ ∃ j, Reads text L i j ∧ Reads text M j k := by
  refine ⟨?_, ?_⟩
  · rintro ⟨word, rest, hd, hw, rfl⟩
    obtain ⟨u, hu, v, hv, rfl⟩ := Language.mem_mul.1 hw
    rw [List.append_assoc] at hd
    refine ⟨i + u.length, ⟨u, v ++ rest, hd, hu, rfl⟩, ⟨v, rest, ?_, hv, ?_⟩⟩
    · rw [← List.drop_drop, hd, List.drop_left]
    · rw [List.length_append, Nat.add_assoc]
  · rintro ⟨j, ⟨u, after, hd, hu, rfl⟩, ⟨v, rest, hd', hv, rfl⟩⟩
    rw [← List.drop_drop, hd, List.drop_left] at hd'
    refine ⟨u ++ v, rest, ?_, Language.append_mem_mul hu hv, ?_⟩
    · rw [hd, hd', List.append_assoc]
    · rw [List.length_append, Nat.add_assoc]

/-- A repetition matches the spans that hold repeated words, if its body matches the spans that hold
one (`h`). -/
theorem spans_star_iff_reads {a : Regex}
    (h : ∀ {i j}, a.Spans text i j ↔ Reads text a.language i j) :
    (star a).Spans text i j ↔ Reads text (a.language∗) i j := by
  refine ⟨fun hs => ?_, ?_⟩
  · -- each way through the body reads one more word
    generalize hr : star a = r at hs
    induction hs with
    | starNil i =>
      exact ⟨[], text.drop i, rfl, Language.nil_mem_kstar _, rfl⟩
    | starCons first rest _ ih =>
      injection hr with hb
      subst hb
      rw [← Language.one_add_self_mul_kstar_eq_kstar, reads_add_iff, reads_mul_iff]
      exact .inr ⟨_, h.1 first, ih rfl⟩
    | _ => simp at hr
  · rintro ⟨word, rest, hd, hw, rfl⟩
    -- one way through the body for each of the words that are repeated
    obtain ⟨words, rfl, hwords⟩ := Language.mem_kstar.1 hw
    clear hw
    induction words generalizing i with
    | nil => exact .starNil i
    | cons first words ih =>
      rw [List.flatten_cons, List.append_assoc] at hd
      rw [List.flatten_cons, List.length_append, ← Nat.add_assoc]
      refine .starCons (h.2 ⟨first, _, hd, hwords first (by simp), rfl⟩) (ih ?_ ?_)
      · exact fun word hword => hwords word (by simp [hword])
      · rw [← List.drop_drop, hd, List.drop_left]

/-- An `AnchorFree` expression matches exactly the spans that hold one of its words, by induction on
the expression. -/
theorem spans_iff_reads {r : Regex} (h : r.AnchorFree) :
    r.Spans text i j ↔ Reads text r.language i j := by
  induction r generalizing i j with
  | epsilon => rw [Spans.epsilon_iff, language, reads_one_iff]
  | one chars =>
    rw [Spans.one_iff]
    refine ⟨?_, ?_⟩
    · rintro ⟨⟨c, hc, hm⟩, rfl⟩
      obtain ⟨hi, rfl⟩ := List.getElem?_eq_some_iff.1 hc
      exact ⟨[text[i]], _, List.drop_eq_getElem_cons hi, ⟨_, rfl, hm⟩, rfl⟩
    · rintro ⟨word, rest, hd, ⟨c, rfl, hm⟩, rfl⟩
      refine ⟨⟨c, ?_, hm⟩, rfl⟩
      rw [← List.head?_drop, hd]
      rfl
  | start => exact absurd h id
  | stop => exact absurd h id
  | seq a b ih₁ ih₂ =>
    rw [Spans.seq_iff, language, reads_mul_iff]
    simp only [ih₁ h.1, ih₂ h.2]
  | alt a b ih₁ ih₂ => rw [Spans.alt_iff, language, reads_add_iff, ih₁ h.1, ih₂ h.2]
  | star a ih => exact spans_star_iff_reads (ih h)
  | plus a ih =>
    rw [Spans.plus_iff, language, reads_mul_iff]
    simp only [ih h, spans_star_iff_reads (ih h)]
  | opt a ih => rw [Spans.opt_iff, language, reads_add_iff, reads_one_iff, ih h]
  | group a ih => rw [Spans.group_iff, language, ih h]

/-- An `AnchorFree` expression matches up to the end of a text exactly if what is left of the text
is one of its words. -/
theorem spans_length_iff {r : Regex} (h : r.AnchorFree) (hi : i ≤ text.length) :
    r.Spans text i text.length ↔ text.drop i ∈ r.language := by
  rw [spans_iff_reads h]
  refine ⟨?_, fun hw => ⟨text.drop i, [], by simp, hw, ?_⟩⟩
  · rintro ⟨word, rest, hd, hw, hj⟩
    -- the word reaches up to the end, so nothing is left behind it
    have hlength := congrArg List.length hd
    rw [List.length_drop, List.length_append] at hlength
    have hrest : rest = [] := by
      apply List.length_eq_zero_iff.1
      omega
    rw [hrest, List.append_nil] at hd
    rwa [hd]
  · rw [List.length_drop]
    omega

/-- The `concat` of expressions without anchors has none. -/
theorem anchorFree_concat {parts : List Regex} (h : ∀ part ∈ parts, part.AnchorFree) :
    (concat parts).AnchorFree := by
  induction parts with
  | nil => exact trivial
  | cons part parts ih =>
    exact ⟨h part (by simp), ih fun other hother => h other (by simp [hother])⟩

/-- The `union` of some branches matches the spans that one of them matches, if there is a
branch. -/
theorem spans_union_iff {branches : List Regex} (h : branches ≠ []) :
    (union branches).Spans text i j ↔ ∃ branch ∈ branches, branch.Spans text i j := by
  induction branches with
  | nil => exact absurd rfl h
  | cons branch rest ih =>
    cases rest with
    | nil => simp [union]
    | cons next rest => simp [union, Spans.alt_iff, ih]

end Regex

end PathPatterns
