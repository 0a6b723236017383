import PathPatterns.Regex.Search

/-!
# What an expression matches

`r.Spans text i j` says that `r` matches the characters of `text` from position `i` up to position
`j`. It is stated by one rule for each way of matching, without reference to how a text is searched.

## Main results

* `testBit_advance`: an expression takes a set of positions to exactly the ends of the spans that
  begin in it.
* `isMatch_iff`: searching finds a match if and only if there is a span.
-/

namespace PathPatterns

namespace Regex

/-- The spans of `text` that an expression matches, from one position to another. -/
inductive Spans (text : List Char) : Regex → Nat → Nat → Prop
  /-- The empty expression matches an empty span anywhere. -/
  | epsilon (i : Nat) : Spans text epsilon i i
  /-- A class matches one of its characters. -/
  | one {chars : CharClass} {i : Nat} {c : Char} (at_i : text[i]? = some c)
      (mem : chars.contains c = true) : Spans text (one chars) i (i + 1)
  /-- `start` matches before the first character. -/
  | start : Spans text start 0 0
  /-- `stop` matches after the last character. -/
  | stop : Spans text stop text.length text.length
  /-- A sequence matches two spans that follow each other. -/
  | seq {a b : Regex} {i j k : Nat} (first : Spans text a i j) (second : Spans text b j k) :
      Spans text (seq a b) i k
  /-- An alternation matches what its left side matches. -/
  | left {a b : Regex} {i j : Nat} (h : Spans text a i j) : Spans text (alt a b) i j
  /-- An alternation matches what its right side matches. -/
  | right {a b : Regex} {i j : Nat} (h : Spans text b i j) : Spans text (alt a b) i j
  /-- No repetition at all. -/
  | starNil {a : Regex} (i : Nat) : Spans text (star a) i i
  /-- One repetition and then any number of them. -/
  | starCons {a : Regex} {i j k : Nat} (first : Spans text a i j)
      (rest : Spans text (star a) j k) : Spans text (star a) i k
  /-- One repetition and then any number of them. -/
  | plus {a : Regex} {i j k : Nat} (first : Spans text a i j)
      (rest : Spans text (star a) j k) : Spans text (plus a) i k
  /-- An option matches an empty span. -/
  | optNone {a : Regex} (i : Nat) : Spans text (opt a) i i
  /-- An option matches what its body matches. -/
  | optSome {a : Regex} {i j : Nat} (h : Spans text a i j) : Spans text (opt a) i j
  /-- A group matches what its body matches. -/
  | group {a : Regex} {i j : Nat} (h : Spans text a i j) : Spans text (group a) i j

namespace Spans

variable {text : List Char} {a b : Regex} {i j k : Nat}

/-- A span ends where it begins or later, and within the text unless it is empty. -/
theorem le_and_le_length {r : Regex} (h : r.Spans text i j) :
    i ≤ j ∧ (i < j → j ≤ text.length) := by
  induction h with
  | epsilon => omega
  | one at_i =>
    have := (List.getElem?_eq_some_iff.1 at_i).1
    omega
  | start => omega
  | stop => omega
  | seq _ _ ih₁ ih₂ => omega
  | left _ ih => exact ih
  | right _ ih => exact ih
  | starNil => omega
  | starCons _ _ ih₁ ih₂ => omega
  | plus _ _ ih₁ ih₂ => omega
  | optNone => omega
  | optSome _ ih => exact ih
  | group _ ih => exact ih

theorem epsilon_iff : Regex.epsilon.Spans text i j ↔ j = i :=
  ⟨fun h => by cases h; rfl, by rintro rfl; exact .epsilon j⟩

/-- A class matches exactly the spans that hold one character, a member of `chars`. -/
theorem one_iff {chars : CharClass} :
    (Regex.one chars).Spans text i j ↔
      (∃ c, text[i]? = some c ∧ chars.contains c = true) ∧ j = i + 1 := by
  constructor
  · intro h
    cases h with
    | one at_i mem => exact ⟨⟨_, at_i, mem⟩, rfl⟩
  · rintro ⟨⟨c, at_i, mem⟩, rfl⟩
    exact .one at_i mem

/-- `start` matches only the empty span before the first character. -/
theorem start_iff : Regex.start.Spans text i j ↔ i = 0 ∧ j = 0 := by
  constructor
  · intro h
    cases h
    exact ⟨rfl, rfl⟩
  · rintro ⟨rfl, rfl⟩
    exact .start

/-- `stop` matches only the empty span behind the last character. -/
theorem stop_iff : Regex.stop.Spans text i j ↔ i = text.length ∧ j = text.length := by
  constructor
  · intro h
    cases h
    exact ⟨rfl, rfl⟩
  · rintro ⟨rfl, rfl⟩
    exact .stop

/-- A span of a sequence is cut at some `j` into a span of `a` and one of `b`. -/
theorem seq_iff : (Regex.seq a b).Spans text i k ↔ ∃ j, a.Spans text i j ∧ b.Spans text j k := by
  constructor
  · intro h
    cases h with
    | seq first second => exact ⟨_, first, second⟩
  · rintro ⟨j, first, second⟩
    exact .seq first second

/-- A span of an alternation is one of its left or of its right side. -/
theorem alt_iff : (Regex.alt a b).Spans text i j ↔ a.Spans text i j ∨ b.Spans text i j := by
  constructor
  · intro h
    cases h with
    | left h => exact .inl h
    | right h => exact .inr h
  · rintro (h | h)
    · exact .left h
    · exact .right h

/-- A span of a repetition is empty, or a span of its body comes first and a repetition follows. -/
theorem star_iff :
    (Regex.star a).Spans text i k ↔
      k = i ∨ ∃ j, a.Spans text i j ∧ (Regex.star a).Spans text j k := by
  constructor
  · intro h
    cases h with
    | starNil => exact .inl rfl
    | starCons first rest => exact .inr ⟨_, first, rest⟩
  · rintro (rfl | ⟨j, first, rest⟩)
    · exact .starNil k
    · exact .starCons first rest

/-- A span of `plus a` is one of `a` with one of `star a` behind it. -/
theorem plus_iff :
    (Regex.plus a).Spans text i k ↔
      ∃ j, a.Spans text i j ∧ (Regex.star a).Spans text j k := by
  constructor
  · intro h
    cases h with
    | plus first rest => exact ⟨_, first, rest⟩
  · rintro ⟨j, first, rest⟩
    exact .plus first rest

/-- A span of `opt a` is empty or one of `a`. -/
theorem opt_iff : (Regex.opt a).Spans text i j ↔ j = i ∨ a.Spans text i j := by
  constructor
  · intro h
    cases h with
    | optNone => exact .inl rfl
    | optSome h => exact .inr h
  · rintro (rfl | h)
    · exact .optNone j
    · exact .optSome h

/-- Grouping changes the text of an expression, not its spans. -/
theorem group_iff : (Regex.group a).Spans text i j ↔ a.Spans text i j := by
  constructor
  · intro h
    cases h with
    | group h => exact h
  · exact .group

end Spans

end Regex

/-! ## Repetition -/

namespace Regex

/-- At most `n` steps of the relation `R` lead from one position to another. -/
inductive Chain (R : Nat → Nat → Prop) : Nat → Nat → Nat → Prop
  | nil (n i : Nat) : Chain R n i i
  | cons {n i j k : Nat} (first : R i j) (rest : Chain R n j k) : Chain R (n + 1) i k

variable {R : Nat → Nat → Prop} {grow : Nat → Nat}

/-- More steps than are needed may be allowed. -/
theorem Chain.mono {m n i j : Nat} (h : Chain R m i j) (hmn : m ≤ n) : Chain R n i j := by
  induction h generalizing n with
  | nil => exact .nil n _
  | cons first rest ih =>
    cases n with
    | zero => omega
    | succ n => exact .cons first (ih (by omega))

/-- `saturate` keeps the positions that are in the set already. -/
theorem testBit_saturate_of_testBit {n positions i : Nat} (h : positions.testBit i = true) :
    (saturate grow n positions).testBit i = true := by
  induction n generalizing positions with
  | zero => exact h
  | succ n ih =>
    rw [saturate]
    split
    · exact h
    · exact ih (by simp [h])

/-- A set that does not grow holds what a chain from it reaches, however long the chain. -/
theorem testBit_of_chain_of_closed {positions : Nat}
    (hclosed : ∀ {i j}, positions.testBit i = true → R i j → positions.testBit j = true)
    {n i j : Nat} (h : Chain R n i j) (hi : positions.testBit i = true) :
    positions.testBit j = true := by
  induction h with
  | nil => exact hi
  | cons first _ ih => exact ih (hclosed hi first)

/-- What a chain of at most `n` steps reaches, `n` rounds of `saturate` add, if one round of `grow`
adds what one step reaches. -/
theorem testBit_saturate_of_chain
    (hgrow : ∀ s j, (grow s).testBit j = true ↔ ∃ i, s.testBit i = true ∧ R i j)
    {n positions i j : Nat} (hi : positions.testBit i = true) (h : Chain R n i j) :
    (saturate grow n positions).testBit j = true := by
  induction n generalizing positions i with
  | zero =>
    cases h
    exact hi
  | succ n ih =>
    rw [saturate]
    have hgrown : ∀ {i j}, positions.testBit i = true → R i j →
        (positions ||| grow positions).testBit j = true := by
      intro i j hi hij
      simp [(hgrow positions j).2 ⟨i, hi, hij⟩]
    split
    · rename_i hfix
      exact testBit_of_chain_of_closed (fun hi hr => hfix ▸ hgrown hi hr) h hi
    · cases h with
      | nil => exact testBit_saturate_of_testBit (by simp [hi])
      | cons first rest => exact ih (hgrown hi first) rest

/-- Conversely, `n` rounds of `saturate` add only what a chain of at most `n` steps reaches. -/
theorem exists_chain_of_testBit_saturate
    (hgrow : ∀ s j, (grow s).testBit j = true ↔ ∃ i, s.testBit i = true ∧ R i j)
    {n positions j : Nat} (h : (saturate grow n positions).testBit j = true) :
    ∃ i, positions.testBit i = true ∧ Chain R n i j := by
  induction n generalizing positions with
  | zero => exact ⟨j, h, .nil 0 j⟩
  | succ n ih =>
    rw [saturate] at h
    split at h
    · exact ⟨j, h, .nil _ j⟩
    · obtain ⟨i, hi, hc⟩ := ih h
      rw [Nat.testBit_or, Bool.or_eq_true] at hi
      rcases hi with hi | hi
      · exact ⟨i, hi, hc.mono (by omega)⟩
      · obtain ⟨i', hi', hr⟩ := (hgrow _ _).1 hi
        exact ⟨i', hi', .cons hr hc⟩

variable {text : List Char} {a : Regex} {i j : Nat}

/-- A chain of spans of `a` is a span of `star a`. -/
theorem spans_star_of_chain {n : Nat} (h : Chain (a.Spans text) n i j) :
    (star a).Spans text i j := by
  induction h with
  | nil => exact .starNil _
  | cons first _ ih => exact .starCons first ih

/-- A span of `star a` is a chain of spans of `a` that are not empty, so `j - i` bounds the length
of the chain. -/
theorem chain_of_spans_star (h : (star a).Spans text i j) :
    Chain (a.Spans text) (j - i) i j := by
  generalize hr : star a = r at h
  induction h with
  | starNil i => exact .nil _ i
  | @starCons b i m k first rest _ ih =>
    injection hr with hb
    subst hb
    have h₁ := first.le_and_le_length.1
    have h₂ := rest.le_and_le_length.1
    rcases Nat.eq_or_lt_of_le h₁ with heq | hlt
    · subst heq
      exact ih rfl
    · exact (Chain.cons first (ih rfl)).mono (by omega)
  | _ => simp at hr

/-- Chains of the length of the text are enough for every span of `star a`. -/
theorem chain_length_iff :
    Chain (a.Spans text) text.length i j ↔ (star a).Spans text i j := by
  constructor
  · exact spans_star_of_chain
  · intro h
    have hle := h.le_and_le_length
    exact (chain_of_spans_star h).mono (by omega)

end Regex

/-! ## Moving along a class -/

/-- The last digit and the other digits of a sum with a carry, where one number, `s &&& m`, has only
digits of the other. -/
theorem digits_of_sum (s m : Nat) (carry : Bool) :
    ((s &&& m) + m + carry.toNat) % 2 = (m % 2 + (s % 2) * (m % 2) + carry.toNat) % 2 ∧
      ((s &&& m) + m + carry.toNat) / 2 = (s / 2 &&& m / 2) + m / 2 +
        (m.testBit 0 && (s.testBit 0 || carry)).toNat := by
  have hhalf : (s &&& m) / 2 = (s / 2 &&& m / 2) := Nat.and_div_two
  have hlow : (s &&& m) % 2 = 1 ↔ s % 2 = 1 ∧ m % 2 = 1 := Nat.and_mod_two_eq_one
  rw [← hhalf]
  generalize s &&& m = t at hlow
  simp only [Nat.testBit_zero]
  rcases Nat.mod_two_eq_zero_or_one s with hs | hs <;>
    rcases Nat.mod_two_eq_zero_or_one m with hm | hm <;> cases carry <;>
    simp [hs, hm] at hlow ⊢ <;> omega

/-- A carry runs from a digit of `s`, or from below, through the digits of `m` that follow. -/
theorem testBit_sum_xor (s m : Nat) (carry : Bool) (j : Nat) :
    (s ||| (((s &&& m) + m + carry.toNat) ^^^ m)).testBit j = true ↔
      (∃ i, s.testBit i = true ∧ i ≤ j ∧ ∀ k, i ≤ k → k < j → m.testBit k = true) ∨
        carry = true ∧ ∀ k, k < j → m.testBit k = true := by
  -- digit by digit: with the last digits gone, the carry is what they leave
  induction j generalizing s m carry with
  | zero =>
    -- the run is empty, so the digit is set by itself or by the carry
    have hdigit : (s ||| (((s &&& m) + m + carry.toNat) ^^^ m)).testBit 0 = true ↔
        s.testBit 0 = true ∨ carry = true := by
      rw [Nat.testBit_or, Nat.testBit_xor]
      simp only [Nat.testBit_zero, (digits_of_sum s m carry).1]
      rcases Nat.mod_two_eq_zero_or_one s with hs | hs <;>
        rcases Nat.mod_two_eq_zero_or_one m with hm | hm <;> cases carry <;> simp [hs, hm]
    rw [hdigit]
    simp
  | succ j ih =>
    rw [Nat.testBit_succ, Nat.or_div_two, Nat.xor_div_two, (digits_of_sum s m carry).2, ih]
    simp only [← Nat.testBit_succ, Bool.and_eq_true, Bool.or_eq_true]
    constructor
    · rintro (⟨i, hi, hij, hrun⟩ | ⟨⟨hm, hs⟩, hrun⟩)
      · refine .inl ⟨i + 1, hi, by omega, fun k hik hkj => ?_⟩
        cases k with
        | zero => omega
        | succ k => exact hrun k (by omega) (by omega)
      · have hall : ∀ k, k < j + 1 → m.testBit k = true := by
          intro k hk
          cases k with
          | zero => exact hm
          | succ k => exact hrun k (by omega)
        rcases hs with hs | hs
        · exact .inl ⟨0, hs, by omega, fun k _ hk => hall k hk⟩
        · exact .inr ⟨hs, hall⟩
    · rintro (⟨i, hi, hij, hrun⟩ | ⟨hs, hrun⟩)
      · cases i with
        | zero =>
          exact .inr ⟨⟨hrun 0 (by omega) (by omega), .inl hi⟩,
            fun k hk => hrun (k + 1) (by omega) (by omega)⟩
        | succ i =>
          exact .inl ⟨i, hi, by omega, fun k hik hkj => hrun (k + 1) (by omega) (by omega)⟩
      · exact .inr ⟨⟨hrun 0 (by omega), .inr hs⟩, fun k hk => hrun (k + 1) (by omega)⟩

namespace Regex

/-- `moveOver` reaches the positions right behind allowed positions of the set. -/
theorem testBit_moveOver (allowed positions j : Nat) :
    (moveOver allowed positions).testBit j = true ↔
      ∃ i, positions.testBit i = true ∧ allowed.testBit i = true ∧ j = i + 1 := by
  simp only [moveOver, Nat.testBit_shiftLeft, Nat.testBit_and, Bool.and_eq_true, decide_eq_true_eq]
  constructor
  · rintro ⟨hj, hi, hm⟩
    exact ⟨j - 1, hi, hm, by omega⟩
  · rintro ⟨i, hi, hm, rfl⟩
    exact ⟨by omega, by simpa using hi, by simpa using hm⟩

/-- `moveAlong` reaches each position with only allowed ones between it and one of the set. -/
theorem testBit_moveAlong (allowed positions j : Nat) :
    (moveAlong allowed positions).testBit j = true ↔
      ∃ i, positions.testBit i = true ∧ i ≤ j ∧
        ∀ k, i ≤ k → k < j → allowed.testBit k = true := by
  have h := testBit_sum_xor positions allowed false j
  simpa [moveAlong] using h

/-- A span of a repeated class is one in which every character is a member of `chars`. -/
theorem spans_star_one_iff {chars : CharClass} :
    (star (one chars)).Spans text i j ↔
      i ≤ j ∧ ∀ k, i ≤ k → k < j → ∃ c, text[k]? = some c ∧ chars.contains c = true := by
  constructor
  · intro h
    generalize hr : star (one chars) = r at h
    -- each pass of the repetition reads one character
    induction h with
    | starNil i => exact ⟨Nat.le_refl i, fun k hik hki => by omega⟩
    | starCons first rest _ ih =>
      injection hr with hb
      subst hb
      obtain ⟨hc, rfl⟩ := Spans.one_iff.1 first
      obtain ⟨hle, hall⟩ := ih rfl
      refine ⟨by omega, fun k hik hkj => ?_⟩
      rcases Nat.eq_or_lt_of_le hik with rfl | hlt
      · exact hc
      · exact hall k hlt hkj
    | _ => simp at hr
  · rintro ⟨hle, hall⟩
    obtain ⟨n, rfl⟩ : ∃ n, j = i + n := ⟨j - i, by omega⟩
    clear hle
    induction n generalizing i with
    | zero => exact .starNil i
    | succ n ih =>
      obtain ⟨c, hc, hm⟩ := hall i (Nat.le_refl i) (by omega)
      rw [show i + (n + 1) = i + 1 + n by omega] at hall ⊢
      exact .starCons (.one hc hm) (ih fun k hik hkj => hall k (by omega) hkj)

end Regex

/-! ## Searching -/

namespace Occurrences

/-- `mark` adds the position `i` to the character `c` and changes nothing else in the table. -/
theorem testBit_lookup_mark (c d : Char) (i j : Nat) (table : List (Char × Nat)) :
    (((mark c i table).lookup d).getD 0).testBit j = true ↔
      ((table.lookup d).getD 0).testBit j = true ∨ d = c ∧ j = i := by
  have hbit : ∀ positions : Nat, (positions ||| (1 <<< i)).testBit j = true ↔
      positions.testBit j = true ∨ j = i := by
    intro positions
    rw [Nat.testBit_or, Nat.one_shiftLeft, Nat.testBit_two_pow, Bool.or_eq_true,
      decide_eq_true_eq]
    exact or_congr_right ⟨Eq.symm, Eq.symm⟩
  induction table with
  | nil =>
    have h0 := hbit 0
    -- a character that is not in the table has no positions yet
    by_cases h : d = c
    · simpa [mark, List.lookup_cons, h] using h0
    · have hne : (d == c) = false := by simpa using h
      simp [mark, List.lookup_cons, h, hne]
  | cons entry rest ih =>
    obtain ⟨other, positions⟩ := entry
    rw [mark]
    split
    · rename_i h
      subst h
      by_cases h : d = other
      · simpa [List.lookup_cons, h] using hbit positions
      · have hne : (d == other) = false := by simpa using h
        simp [List.lookup_cons, h, hne]
    · rename_i hother
      by_cases h : d = other
      · simp [h, hother]
      · have hne : (d == other) = false := by simpa using h
        simpa [List.lookup_cons, hne] using ih

/-- `markAll` adds the positions of the characters of `text`, counted from `i`, and nothing else. -/
theorem testBit_lookup_markAll (text : List Char) (c : Char) (i j : Nat)
    (table : List (Char × Nat)) :
    (((markAll i table text).lookup c).getD 0).testBit j = true ↔
      ((table.lookup c).getD 0).testBit j = true ∨ i ≤ j ∧ text[j - i]? = some c := by
  induction text generalizing i table with
  | nil => simp [markAll]
  | cons d rest ih =>
    rw [markAll, ih, testBit_lookup_mark, or_assoc]
    refine or_congr_right ?_
    constructor
    · rintro (⟨rfl, rfl⟩ | ⟨hle, h⟩)
      · simp
      · refine ⟨by omega, ?_⟩
        rwa [show j - i = j - (i + 1) + 1 by omega, List.getElem?_cons_succ]
    · rintro ⟨hle, h⟩
      rcases Nat.eq_or_lt_of_le hle with rfl | hlt
      · simp at h
        exact .inl ⟨h.symm, rfl⟩
      · rw [show j - i = j - (i + 1) + 1 by omega, List.getElem?_cons_succ] at h
        exact .inr ⟨hlt, h⟩

/-- The positions of a character are those at which it stands in `text`. -/
theorem testBit_ofChar (text : List Char) (c : Char) (j : Nat) :
    ((ofText text).ofChar c).testBit j = true ↔ text[j]? = some c := by
  simp [ofChar, ofText, testBit_lookup_markAll]

/-- The positions of some characters are those at which one of `cs` stands. -/
theorem testBit_ofChars (text cs : List Char) (j : Nat) :
    ((ofText text).ofChars cs).testBit j = true ↔ ∃ c, text[j]? = some c ∧ c ∈ cs := by
  have hfold : ∀ start : Nat, (cs.foldl
      (fun positions c => positions ||| (ofText text).ofChar c) start).testBit j = true ↔
        start.testBit j = true ∨ ∃ c, text[j]? = some c ∧ c ∈ cs := by
    induction cs with
    | nil => simp
    | cons c cs ih =>
      intro start
      rw [List.foldl_cons, ih, Nat.testBit_or, Bool.or_eq_true, testBit_ofChar, or_assoc]
      refine or_congr_right ?_
      constructor
      · rintro (h | ⟨d, hd, hm⟩)
        · exact ⟨c, h, by simp⟩
        · exact ⟨d, hd, by simp [hm]⟩
      · rintro ⟨d, hd, hm⟩
        rcases List.mem_cons.1 hm with rfl | hm
        · exact .inl hd
        · exact .inr ⟨d, hd, hm⟩
  simpa [ofChars] using hfold 0

/-- The positions of a class are those at which one of its characters stands; for `noneOf` these are
the positions within the text that are left. -/
theorem testBit_ofClass (text : List Char) (chars : CharClass) (j : Nat) :
    ((ofText text).ofClass chars).testBit j = true ↔
      ∃ c, text[j]? = some c ∧ chars.contains c = true := by
  cases chars with
  | char c => simp [ofClass, testBit_ofChar]
  | oneOf members => simp [ofClass, testBit_ofChars]
  | noneOf excluded =>
    have hbit := testBit_ofChars text excluded j
    rw [ofClass, Nat.testBit_xor, Nat.one_shiftLeft, Nat.testBit_two_pow_sub_one]
    by_cases hj : j < text.length
    · have hget : text[j]? = some text[j] := List.getElem?_eq_getElem hj
      simp only [hget, Option.some.injEq, exists_eq_left'] at hbit ⊢
      have hlength : (ofText text).length = text.length := rfl
      cases hb : ((ofText text).ofChars excluded).testBit j <;> simp_all
    · have hget : text[j]? = none := List.getElem?_eq_none (by omega)
      have hlength : (ofText text).length = text.length := rfl
      cases hb : ((ofText text).ofChars excluded).testBit j <;> simp_all

end Occurrences

namespace Regex

/-- What a repetition does to a set, if its body takes every set to the ends of its spans (`ih`). -/
theorem testBit_advance_star (body : Regex)
    (ih : ∀ positions j, (body.advance (.ofText text) positions).testBit j = true ↔
      ∃ i, positions.testBit i = true ∧ body.Spans text i j) (positions j : Nat) :
    ((star body).advance (.ofText text) positions).testBit j = true ↔
      ∃ i, positions.testBit i = true ∧ (star body).Spans text i j := by
  have hsaturate : (saturate (body.advance (.ofText text)) text.length positions).testBit j = true ↔
      ∃ i, positions.testBit i = true ∧ (star body).Spans text i j := by
    simp only [← chain_length_iff]
    constructor
    · exact exists_chain_of_testBit_saturate ih
    · rintro ⟨i, hi, h⟩
      exact testBit_saturate_of_chain ih hi h
  -- a repeated class is one addition, and any other body is repeated until nothing is new
  cases body with
  | one chars =>
    simp only [advance, testBit_moveAlong, spans_star_one_iff, Occurrences.testBit_ofClass]
  | _ => exact hsaturate

/-- `plus` advances by its body once and then by the repetition of the body. -/
theorem advance_plus (text : Occurrences) (body : Regex) (positions : Nat) :
    (plus body).advance text positions =
      (star body).advance text (body.advance text positions) := by
  cases body <;> rfl

/-- `advance` takes a set of positions to exactly the ends of the spans that begin in it. -/
theorem testBit_advance (text : List Char) (r : Regex) (positions j : Nat) :
    (r.advance (.ofText text) positions).testBit j = true ↔
      ∃ i, positions.testBit i = true ∧ r.Spans text i j := by
  induction r generalizing positions j with
  | epsilon => simp [advance, Spans.epsilon_iff]
  | one chars =>
    simp only [advance, testBit_moveOver, Spans.one_iff, Occurrences.testBit_ofClass]
  | start =>
    simp only [advance, Spans.start_iff, Nat.testBit_and, Bool.and_eq_true]
    constructor
    · rintro ⟨hj, h1⟩
      have : j = 0 := Nat.testBit_one_eq_true_iff_self_eq_zero.1 h1
      subst this
      exact ⟨0, hj, rfl, rfl⟩
    · rintro ⟨i, hi, rfl, rfl⟩
      exact ⟨hi, by simp⟩
  | stop =>
    simp only [advance, Spans.stop_iff, Nat.testBit_and, Bool.and_eq_true,
      Nat.one_shiftLeft, Nat.testBit_two_pow, decide_eq_true_eq]
    constructor
    · rintro ⟨hj, rfl⟩
      exact ⟨_, hj, rfl, rfl⟩
    · rintro ⟨i, hi, rfl, rfl⟩
      exact ⟨hi, rfl⟩
  | seq a b ih₁ ih₂ =>
    simp only [advance, ih₂, ih₁, Spans.seq_iff]
    constructor
    · rintro ⟨m, ⟨i, hi, h₁⟩, h₂⟩
      exact ⟨i, hi, m, h₁, h₂⟩
    · rintro ⟨i, hi, m, h₁, h₂⟩
      exact ⟨m, ⟨i, hi, h₁⟩, h₂⟩
  | alt a b ih₁ ih₂ =>
    simp only [advance, Nat.testBit_or, Bool.or_eq_true, ih₁, ih₂, Spans.alt_iff]
    constructor
    · rintro (⟨i, hi, h⟩ | ⟨i, hi, h⟩)
      · exact ⟨i, hi, .inl h⟩
      · exact ⟨i, hi, .inr h⟩
    · rintro ⟨i, hi, h | h⟩
      · exact .inl ⟨i, hi, h⟩
      · exact .inr ⟨i, hi, h⟩
  | star a ih => exact testBit_advance_star a ih positions j
  | plus a ih =>
    rw [advance_plus, testBit_advance_star a ih]
    simp only [ih, Spans.plus_iff]
    constructor
    · rintro ⟨m, ⟨i, hi, h₁⟩, h₂⟩
      exact ⟨i, hi, m, h₁, h₂⟩
    · rintro ⟨i, hi, m, h₁, h₂⟩
      exact ⟨m, ⟨i, hi, h₁⟩, h₂⟩
  | opt a ih =>
    simp only [advance, Nat.testBit_or, Bool.or_eq_true, ih, Spans.opt_iff]
    constructor
    · rintro (h | ⟨i, hi, h⟩)
      · exact ⟨j, h, .inl rfl⟩
      · exact ⟨i, hi, .inr h⟩
    · rintro ⟨i, hi, rfl | h⟩
      · exact .inl hi
      · exact .inr ⟨i, hi, h⟩
  | group a ih => simp only [advance, ih, Spans.group_iff]

/-- `isMatch` finds a match if and only if the expression has a span that begins in the text. -/
theorem isMatch_iff (r : Regex) (text : String) :
    r.isMatch text = true ↔
      ∃ i j, i ≤ text.toList.length ∧ r.Spans text.toList i j := by
  have hall : ∀ i, (allPositions text.toList.length).testBit i = true ↔
      i ≤ text.toList.length := by
    intro i
    rw [allPositions, Nat.one_shiftLeft, Nat.testBit_two_pow_sub_one, decide_eq_true_eq]
    omega
  have hmatch : r.isMatch text =
      (r.advance (.ofText text.toList) (allPositions text.toList.length) != 0) := rfl
  rw [hmatch, bne_iff_ne]
  constructor
  · intro h
    obtain ⟨j, hj⟩ := Nat.exists_testBit_of_ne_zero h
    obtain ⟨i, hi, hs⟩ := (testBit_advance _ _ _ _).1 hj
    exact ⟨i, j, (hall i).1 hi, hs⟩
  · rintro ⟨i, j, hi, hs⟩ hzero
    have := (testBit_advance text.toList r _ j).2 ⟨i, (hall i).2 hi, hs⟩
    simp [hzero] at this

end Regex

end PathPatterns
