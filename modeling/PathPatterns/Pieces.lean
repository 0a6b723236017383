/-!
# Cutting text into pieces

`pieces isDelimiter text` cuts a list, of characters for instance, at every delimiter. Text with
`n` delimiters has `n + 1` pieces, some of them possibly empty, and none of them holds a
delimiter.

## Main results

* `pieces_of_forall_not`: text without a delimiter is its own only piece.
* `pieces_append_cons`: a delimiter between two texts separates their pieces.
* `pieces_intercalate`: pieces that are joined are the pieces of the whole.
-/

namespace PathPatterns

variable {α : Type}

/-- Puts an element in front of the first piece; where there is none, it is a piece of its own. -/
def pushFront (c : α) : List (List α) → List (List α)
  | [] => [[c]]
  | piece :: rest => (c :: piece) :: rest

/-- The pieces of `text` between its delimiters, empty pieces included. -/
def pieces (isDelimiter : α → Bool) (text : List α) : List (List α) :=
  text.foldr (fun c rest => if isDelimiter c then [] :: rest else pushFront c rest) [[]]

variable {isDelimiter : α → Bool}

/-- Empty text is one empty piece, not no piece. -/
@[simp]
theorem pieces_nil : pieces isDelimiter [] = [[]] := rfl

/-- A delimiter in front of `text` puts an empty piece before the pieces of `text`. -/
theorem pieces_cons_of_delimiter {c : α} (h : isDelimiter c = true) (text : List α) :
    pieces isDelimiter (c :: text) = [] :: pieces isDelimiter text := by
  simp [pieces, h]

/-- Any other element in front of `text` belongs to its first piece. -/
theorem pieces_cons_of_not_delimiter {c : α} (h : isDelimiter c = false) (text : List α) :
    pieces isDelimiter (c :: text) = pushFront c (pieces isDelimiter text) := by
  simp [pieces, h]

/-- There is always a first piece, so taking the head of `pieces` loses nothing. -/
theorem pieces_ne_nil (text : List α) : pieces isDelimiter text ≠ [] := by
  cases text with
  | nil => simp
  | cons c text =>
    cases h : isDelimiter c with
    | true => simp [pieces_cons_of_delimiter h]
    | false =>
      rw [pieces_cons_of_not_delimiter h]
      cases pieces isDelimiter text <;> simp [pushFront]

/-- Text without a delimiter is its own only piece. -/
theorem pieces_of_forall_not {text : List α} (h : ∀ c ∈ text, isDelimiter c = false) :
    pieces isDelimiter text = [text] := by
  induction text with
  | nil => rfl
  | cons c text ih =>
    rw [pieces_cons_of_not_delimiter (h c (by simp)), ih fun d hd => h d (by simp [hd])]
    rfl

/-- A delimiter between `before` and `after` separates the pieces of the one from those of the
other. -/
theorem pieces_append_cons {c : α} (h : isDelimiter c = true) (before after : List α) :
    pieces isDelimiter (before ++ c :: after) =
      pieces isDelimiter before ++ pieces isDelimiter after := by
  induction before with
  | nil => simp [pieces_cons_of_delimiter h]
  | cons d before ih =>
    cases hd : isDelimiter d with
    | true => simp [pieces_cons_of_delimiter hd, ih]
    | false =>
      simp only [List.cons_append, pieces_cons_of_not_delimiter hd, ih]
      cases hp : pieces isDelimiter before with
      | nil => exact absurd hp (pieces_ne_nil before)
      | cons piece rest => rfl

/-- Elements may be replaced before or after the text is cut, as long as `f` keeps which ones are
delimiters. -/
theorem pieces_map {f : α → α} (h : ∀ c, isDelimiter (f c) = isDelimiter c) (text : List α) :
    pieces isDelimiter (text.map f) = (pieces isDelimiter text).map (List.map f) := by
  induction text with
  | nil => rfl
  | cons c text ih =>
    rw [List.map_cons]
    cases hc : isDelimiter c with
    | true =>
      rw [pieces_cons_of_delimiter ((h c).trans hc), pieces_cons_of_delimiter hc, ih]
      rfl
    | false =>
      rw [pieces_cons_of_not_delimiter ((h c).trans hc), pieces_cons_of_not_delimiter hc, ih]
      cases pieces isDelimiter text <;> rfl

/-- No piece holds a delimiter, whatever the text. -/
theorem not_delimiter_of_mem_pieces {text piece : List α}
    (h : piece ∈ pieces isDelimiter text) {c : α} (hc : c ∈ piece) : isDelimiter c = false := by
  induction text generalizing piece with
  | nil => simp_all
  | cons d text ih =>
    cases hd : isDelimiter d with
    | true =>
      rw [pieces_cons_of_delimiter hd] at h
      rcases List.mem_cons.1 h with rfl | h
      · simp at hc
      · exact ih h hc
    | false =>
      rw [pieces_cons_of_not_delimiter hd] at h
      cases hp : pieces isDelimiter text with
      | nil => exact absurd hp (pieces_ne_nil text)
      | cons first rest =>
        rw [hp, pushFront] at h
        rcases List.mem_cons.1 h with rfl | h
        · rcases List.mem_cons.1 hc with rfl | hc
          · exact hd
          · exact ih (by simp [hp]) hc
        · exact ih (by simp [hp, h]) hc

/-- An element that is no delimiter is in a piece exactly if it is in the text. -/
theorem exists_mem_pieces_iff {c : α} (h : isDelimiter c = false) {text : List α} :
    (∃ piece ∈ pieces isDelimiter text, c ∈ piece) ↔ c ∈ text := by
  induction text with
  | nil => simp
  | cons d text ih =>
    cases hd : isDelimiter d with
    | true =>
      have hne : c ≠ d := fun heq => by simp [heq, hd] at h
      simp [pieces_cons_of_delimiter hd, ih, hne]
    | false =>
      rw [pieces_cons_of_not_delimiter hd, List.mem_cons, ← ih]
      cases hp : pieces isDelimiter text with
      | nil => exact absurd hp (pieces_ne_nil text)
      | cons first rest => simp [pushFront, or_assoc]

/-- `parts` that are joined by one delimiter `d` are the pieces of the whole, if there is a part at
all and none holds a delimiter. -/
theorem pieces_intercalate {d : α} (hd : isDelimiter d = true) {parts : List (List α)}
    (hne : parts ≠ []) (h : ∀ part ∈ parts, ∀ c ∈ part, isDelimiter c = false) :
    pieces isDelimiter ([d].intercalate parts) = parts := by
  induction parts with
  | nil => exact absurd rfl hne
  | cons part parts ih =>
    obtain ⟨hpart, hparts⟩ := List.forall_mem_cons.1 h
    cases parts with
    | nil => simpa using pieces_of_forall_not hpart
    | cons next parts =>
      rw [List.intercalate_cons_cons, List.append_assoc, List.singleton_append,
        pieces_append_cons hd, pieces_of_forall_not hpart, ih (by simp) hparts,
        List.singleton_append]

end PathPatterns
