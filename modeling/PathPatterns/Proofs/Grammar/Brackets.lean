import Mathlib.Data.String.Basic
import PathPatterns.Alternative

/-!
# Brackets

The text of a component is that of its parts, one after the other. Text that is not of this form has
a first fault among its brackets: everything in front of the fault is the text of parts, or of parts
and a class that is still open. Reading a component tells which of the two it is.

## Main results

* `exists_reads_or_bracketFault`: every text is that of parts, or has a fault.
* `readPieces_eq_ok_iff`: reading succeeds exactly with the parts that a token is the text of.
* `readPieces_of_bracketFault`: where the brackets of a token have a fault, reading fails with it.
-/

namespace PathPatterns

/-- Where a reading is told in advance, and there is a reading or a fault, what `result` comes to
tells which of the two there is. -/
theorem result_iff_of_total {α ε : Type} {result : Except ε α} {reads : α → Prop}
    {hasFault : ε → Prop} (hreads : ∀ a, reads a → result = .ok a)
    (hfault : ∀ e, hasFault e → result = .error e)
    (htotal : (∃ a, reads a) ∨ ∃ e, hasFault e) :
    (∀ a, result = .ok a ↔ reads a) ∧ ∀ e, result = .error e ↔ hasFault e := by
  obtain ⟨b, hb⟩ | ⟨f, hf⟩ := htotal
  · obtain rfl := hreads b hb
    refine ⟨fun a => ⟨fun heq => ?_, hreads a⟩, fun e => ⟨fun heq => ?_, hfault e⟩⟩
    · obtain rfl := Except.ok.inj heq
      exact hb
    · cases heq
  · obtain rfl := hfault f hf
    refine ⟨fun a => ⟨fun heq => ?_, hreads a⟩, fun e => ⟨fun heq => ?_, hfault e⟩⟩
    · cases heq
    · obtain rfl := Except.error.inj heq
      exact hf

/-- Whether a character opens or closes a class. -/
def isBracket (c : Char) : Bool :=
  c == '[' || c == ']'

theorem isBracket_iff {c : Char} : isBracket c = true ↔ c = '[' ∨ c = ']' := by
  simp [isBracket]

theorem isBracket_eq_false_iff {c : Char} : isBracket c = false ↔ c ≠ '[' ∧ c ≠ ']' := by
  simp [isBracket]

namespace Piece

/-- The text of a part, as it stands in a component. -/
def text : Piece → List Char
  | char c => [c]
  | anyChar => ['?']
  | anyRun => ['*']
  | oneOf members => '[' :: members ++ [']']

/-- Every part has a text, so behind a part less is left to read. -/
theorem length_text_pos (piece : Piece) : 0 < piece.text.length := by
  cases piece <;> simp [text]

/-- Whether a part can stand in a component: a character that stands for itself is neither a
wildcard nor a bracket, and a class has members, and no bracket among them. -/
def IsWritten : Piece → Prop
  | char c => Alternative.isWildcard c = false
  | anyChar => True
  | anyRun => True
  | oneOf members => members ≠ [] ∧ ∀ c ∈ members, isBracket c = false

/-- `ofChar` reads a character as a part that has this character as its text. -/
theorem text_ofChar (c : Char) : (ofChar c).text = [c] := by
  unfold ofChar
  split_ifs with hone hrun
  · rw [hone, text]
  · rw [hrun, text]
  · rfl

/-- A character outside brackets is read as a part that can stand in a component, unless it is a
bracket. -/
theorem isWritten_ofChar {c : Char} (h : isBracket c = false) : (ofChar c).IsWritten := by
  unfold ofChar
  split_ifs with hone hrun
  · trivial
  · trivial
  · have hbracket := isBracket_eq_false_iff.1 h
    simp [IsWritten, Alternative.isWildcard, hone, hrun, hbracket]

end Piece

namespace Component

/-- The text of some parts, one after the other. -/
def textOf (pieces : List Piece) : List Char :=
  pieces.flatMap Piece.text

/-- Whether a token is the text of some parts, each of which can stand in a component. -/
def Reads (token : List Char) (pieces : List Piece) : Prop :=
  textOf pieces = token ∧ ∀ piece ∈ pieces, piece.IsWritten

/-- The first fault among the brackets of a token. In front of it stands the text of some parts,
and, for the last two, a class that has been opened. -/
inductive BracketFault : List Char → Fault → Prop
  /-- A bracket closes no class. -/
  | stray {front : List Char} {pieces : List Piece} (hfront : Reads front pieces)
      (back : List Char) :
      BracketFault (front ++ ']' :: back) (.unbalancedBracket (String.utf8Len front))
  /-- A class has no members. -/
  | empty {front : List Char} {pieces : List Piece} (hfront : Reads front pieces)
      (back : List Char) : BracketFault (front ++ '[' :: ']' :: back) .emptyCharacterClass
  /-- A bracket opens inside a class. -/
  | nested {front members : List Char} {pieces : List Piece} (hfront : Reads front pieces)
      (hmembers : ∀ c ∈ members, isBracket c = false) (back : List Char) :
      BracketFault (front ++ '[' :: (members ++ '[' :: back))
        (.unbalancedBracket (String.utf8Len (front ++ '[' :: members)))
  /-- A class is not closed. -/
  | unclosed {front members : List Char} {pieces : List Piece} (hfront : Reads front pieces)
      (hmembers : ∀ c ∈ members, isBracket c = false) :
      BracketFault (front ++ '[' :: members) (.unbalancedBracket (String.utf8Len front))

variable {token front members rest : List Char} {pieces done : List Piece} {piece : Piece}
  {fault : Fault} {offset : Nat} {pending : OpenClass}

/-- A token with a `BracketFault` has a bracket. -/
theorem BracketFault.exists_bracket (h : BracketFault token fault) :
    ∃ c ∈ token, isBracket c = true := by
  cases h with
  | stray _ _ => exact ⟨']', by simp, rfl⟩
  | empty _ _ => exact ⟨'[', by simp, rfl⟩
  | nested _ _ _ => exact ⟨'[', by simp, rfl⟩
  | unclosed _ _ => exact ⟨'[', by simp, rfl⟩

theorem reads_nil : Reads [] [] :=
  ⟨rfl, by simp⟩

/-- A part that `IsWritten` joins those in front of it. -/
theorem Reads.append_text (h : Reads front pieces) (hpiece : piece.IsWritten) :
    Reads (front ++ piece.text) (pieces ++ [piece]) := by
  refine ⟨?_, List.forall_mem_append.2 ⟨h.2, by simpa using hpiece⟩⟩
  rw [textOf, List.flatMap_append, List.flatMap_singleton]
  exact congrArg (· ++ piece.text) h.1

/-- Members of a class go up to the next bracket, if there is one. -/
theorem exists_members_append (text : List Char) :
    ∃ members, (∀ c ∈ members, isBracket c = false) ∧
      (text = members ∨ ∃ c after, isBracket c = true ∧ text = members ++ c :: after) := by
  induction text with
  | nil => exact ⟨[], by simp, .inl rfl⟩
  | cons c text ih =>
    cases hc : isBracket c with
    | true => exact ⟨[], by simp, .inr ⟨c, text, hc, rfl⟩⟩
    | false =>
      obtain ⟨members, hmembers, rfl | ⟨d, after, hd, rfl⟩⟩ := ih
      · exact ⟨c :: text, List.forall_mem_cons.2 ⟨hc, hmembers⟩, .inl rfl⟩
      · exact ⟨c :: members, List.forall_mem_cons.2 ⟨hc, hmembers⟩, .inr ⟨d, after, hd, rfl⟩⟩

/-- Where a class is opened behind the text of some parts, it is one more part, or a
`BracketFault`. -/
theorem Reads.exists_class_or_bracketFault (hfront : Reads front pieces) (back : List Char) :
    (∃ piece : Piece, piece.IsWritten ∧ ∃ after, '[' :: back = piece.text ++ after) ∨
      ∃ fault, BracketFault (front ++ '[' :: back) fault := by
  obtain ⟨members, hmembers, rfl | ⟨c, after, hc, rfl⟩⟩ := exists_members_append back
  · exact .inr ⟨_, .unclosed hfront hmembers⟩
  · obtain rfl | rfl := isBracket_iff.1 hc
    · exact .inr ⟨_, .nested hfront hmembers after⟩
    · cases members with
      | nil => exact .inr ⟨_, .empty hfront after⟩
      | cons first members =>
        exact .inl ⟨.oneOf (first :: members), ⟨by simp, hmembers⟩, after, by simp [Piece.text]⟩

/-- Where a character stands behind the text of some parts, one more part begins there, or a
`BracketFault` does. -/
theorem Reads.exists_piece_or_bracketFault (hfront : Reads front pieces) (c : Char)
    (back : List Char) :
    (∃ piece : Piece, piece.IsWritten ∧ ∃ after, c :: back = piece.text ++ after) ∨
      ∃ fault, BracketFault (front ++ c :: back) fault := by
  cases hbracket : isBracket c with
  | false =>
    refine .inl ⟨.ofChar c, Piece.isWritten_ofChar hbracket, back, ?_⟩
    rw [Piece.text_ofChar]
    rfl
  | true =>
    obtain rfl | rfl := isBracket_iff.1 hbracket
    · exact hfront.exists_class_or_bracketFault back
    · exact .inr ⟨_, .stray hfront back⟩

/-- Every token is the text of some parts, or has a `BracketFault`. -/
theorem exists_reads_or_bracketFault (token : List Char) :
    (∃ pieces, Reads token pieces) ∨ ∃ fault, BracketFault token fault := by
  -- on the length of what is left behind the text of some parts
  suffices hleft : ∀ length front pieces rest, Reads front pieces → rest.length ≤ length →
      (∃ pieces, Reads (front ++ rest) pieces) ∨ ∃ fault, BracketFault (front ++ rest) fault from
    hleft token.length [] [] token reads_nil le_rfl
  intro length
  induction length with
  | zero =>
    intro front pieces rest hfront hlength
    rw [List.eq_nil_of_length_eq_zero (Nat.le_zero.1 hlength), List.append_nil]
    exact .inl ⟨pieces, hfront⟩
  | succ length ih =>
    intro front pieces rest hfront hlength
    cases rest with
    | nil =>
      rw [List.append_nil]
      exact .inl ⟨pieces, hfront⟩
    | cons c back =>
      obtain ⟨piece, hpiece, after, hrest⟩ | hfault := hfront.exists_piece_or_bracketFault c back
      · -- a part that is read leaves less behind
        have hafter : after.length ≤ length := by
          have htext := piece.length_text_pos
          have hsum := congrArg List.length hrest
          rw [List.length_append] at hsum
          omega
        rw [hrest, ← List.append_assoc]
        exact ih _ _ after (hfront.append_text hpiece) hafter
      · exact .inr hfault

/-! ## Reading -/

/-- While a class is being read, `readFrom` adds members to it, last first, and counts their
bytes. -/
theorem readFrom_members (h : ∀ c ∈ members, isBracket c = false) :
    readFrom offset (some pending) done (members ++ rest) =
      readFrom (offset + String.utf8Len members)
        (some { pending with members := members.reverse ++ pending.members }) done rest := by
  induction members generalizing offset pending with
  | nil => rfl
  | cons c members ih =>
    obtain ⟨hc, hmembers⟩ := List.forall_mem_cons.1 h
    obtain ⟨hopen, hclose⟩ := isBracket_eq_false_iff.1 hc
    rw [List.cons_append, readFrom]
    simp only [if_neg hopen, if_neg hclose]
    rw [ih hmembers]
    simp [Nat.add_assoc, Nat.add_comm]

/-- Between classes, `readFrom` adds the part whose text it reads to those before. -/
theorem readFrom_text (h : piece.IsWritten) :
    readFrom offset none done (piece.text ++ rest) =
      readFrom (offset + String.utf8Len piece.text) none (piece :: done) rest := by
  cases piece with
  | char c =>
    obtain ⟨⟨⟨hrun, hone⟩, hopen⟩, hclose⟩ : ((c ≠ '*' ∧ c ≠ '?') ∧ c ≠ '[') ∧ c ≠ ']' := by
      simpa [Piece.IsWritten, Alternative.isWildcard] using h
    simp [Piece.text, readFrom, Piece.ofChar, hone, hrun, hopen, hclose]
  | anyChar => simp [Piece.text, readFrom, Piece.ofChar]
  | anyRun => simp [Piece.text, readFrom, Piece.ofChar]
  | oneOf members =>
    obtain ⟨hne, hmembers⟩ := h
    simp [Piece.text, readFrom, readFrom_members hmembers, hne, Nat.add_assoc, Nat.add_comm,
      Nat.add_left_comm]

/-- Between classes, `readFrom` adds the parts whose text it reads to those before, last first. -/
theorem readFrom_of_reads (h : Reads front pieces) :
    readFrom offset none done (front ++ rest) =
      readFrom (offset + String.utf8Len front) none (pieces.reverse ++ done) rest := by
  obtain ⟨rfl, hwritten⟩ := h
  induction pieces generalizing offset done with
  | nil => rfl
  | cons piece pieces ih =>
    obtain ⟨hpiece, hpieces⟩ := List.forall_mem_cons.1 hwritten
    rw [textOf, List.flatMap_cons, List.append_assoc, readFrom_text hpiece]
    refine (ih hpieces).trans ?_
    rw [String.utf8Len_append, Nat.add_assoc, List.reverse_cons, List.append_assoc]
    rfl

/-- `readPieces` gives the parts of which a token is the text. -/
theorem readPieces_of_reads (h : Reads token pieces) : readPieces token = .ok pieces := by
  have hread : readFrom 0 none [] (token ++ []) = _ := readFrom_of_reads h
  rw [List.append_nil] at hread
  rw [readPieces, hread]
  simp [readFrom]

/-- `readPieces` fails with the fault of a token that has one. -/
theorem readPieces_of_bracketFault (h : BracketFault token fault) :
    readPieces token = .error fault := by
  -- the parts in front are read first
  cases h with
  | stray hfront back =>
    rw [readPieces, readFrom_of_reads hfront]
    simp [readFrom]
  | empty hfront back =>
    rw [readPieces, readFrom_of_reads hfront]
    simp [readFrom]
  | nested hfront hmembers back =>
    rw [readPieces, readFrom_of_reads hfront]
    simp [readFrom, readFrom_members hmembers, Nat.add_assoc, Nat.add_comm, Nat.add_left_comm]
  | @unclosed front members _ hfront hmembers =>
    -- the text ends behind the members
    rw [readPieces, readFrom_of_reads hfront, ← List.append_nil members]
    simp only [readFrom, readFrom_members hmembers]
    simp

/-- `readPieces` succeeds exactly with the parts of which the token is the text. -/
theorem readPieces_eq_ok_iff : readPieces token = .ok pieces ↔ Reads token pieces :=
  (result_iff_of_total (fun _ => readPieces_of_reads) (fun _ => readPieces_of_bracketFault)
    (exists_reads_or_bracketFault token)).1 pieces

/-- A token that is the text of parts is parsed as their component, unless its `pathRegex` is too
large. -/
theorem parse_of_reads (h : Reads token pieces) :
    parse token =
      if (⟨String.ofList token, pieces⟩ : Component).pathRegex.compiles then
        .ok ⟨String.ofList token, pieces⟩
      else .error .invalidRegex := by
  rw [parse, readPieces_of_reads h]
  rfl

/-- A token with a `BracketFault` is rejected for it, before any size matters. -/
theorem parse_of_bracketFault (h : BracketFault token fault) : parse token = .error fault := by
  rw [parse, readPieces_of_bracketFault h]
  rfl

end Component

end PathPatterns
