import Mathlib.Data.List.Induction
import PathPatterns.Proofs.Grammar.Brackets

/-!
# The order of brackets

A token is read from left to right. Behind some of its characters a class is open if the last
bracket among them opens one. A bracket is at fault if it opens a class while one is open, if it
closes one while none is, or if it closes one right behind the bracket that opens it. Where no
bracket is at fault, the last one must not leave a class open.

This tells the parts and the faults of a token by its brackets alone. `Reads` and `BracketFault`
tell them by what stands in front.

## Main definitions

* `FaultAt`: the fault of a bracket behind some text.
* `LeftmostFault`: the fault that is met first, or else the class that stays open.
* `InOrder`: the brackets alternate, and no class is empty.

## Main results

* `Faultless.reads_or_pending`: text without a fault is that of parts, or ends in an open class.
* `exists_reads_iff_inOrder`: a token is the text of parts exactly if its brackets are in order.
* `readPieces_of_bracket_order`: what reading a token comes to, by its brackets.
-/

namespace PathPatterns.Component

/-- The brackets of some text, in order, without what stands between them. -/
def brackets (text : List Char) : List Char :=
  text.filter isBracket

/-- Opening and closing brackets in turn, so many of each. -/
def inTurn (pairs : Nat) : List Char :=
  (List.replicate pairs ['[', ']']).flatten

/-- Whether a class is open behind some text: the last of its brackets opens one. -/
def IsOpen (front : List Char) : Prop :=
  (brackets front).getLast? = some '['

/-- The fault of a bracket that is read behind `front`, if it has one. -/
inductive FaultAt (front : List Char) : Char → Fault → Prop
  /-- A class is opened while one is open. -/
  | nested (hopen : IsOpen front) : FaultAt front '[' (.unbalancedBracket (String.utf8Len front))
  /-- A class is closed while none is open. -/
  | stray (hopen : ¬ IsOpen front) :
      FaultAt front ']' (.unbalancedBracket (String.utf8Len front))
  /-- A class is closed right behind the bracket that opens it. -/
  | empty (hlast : front.getLast? = some '[') : FaultAt front ']' .emptyCharacterClass

/-- Whether no fault is met in some text, behind whatever stands in front of each bracket in it. -/
def Faultless (text : List Char) : Prop :=
  ∀ front c back, text = front ++ c :: back → ∀ fault, ¬ FaultAt front c fault

/-- The fault of a token: the leftmost one that is met or, if none is, the bracket of the class that
is still open at the end. -/
inductive LeftmostFault : List Char → Fault → Prop
  /-- A fault is met, and none to the left of it. -/
  | met {front : List Char} {c : Char} {fault : Fault} (hfront : Faultless front)
      (hfault : FaultAt front c fault) (back : List Char) :
      LeftmostFault (front ++ c :: back) fault
  /-- No fault is met, and the last bracket opens a class. -/
  | pending {front members : List Char} (hfaultless : Faultless (front ++ '[' :: members))
      (hmembers : ∀ c ∈ members, isBracket c = false) :
      LeftmostFault (front ++ '[' :: members) (.unbalancedBracket (String.utf8Len front))

/-- Whether the brackets of a token alternate, beginning with one that opens and ending with one
that closes, and something stands inside every pair. -/
structure InOrder (token : List Char) : Prop where
  /-- The brackets open and close in turn. -/
  alternate : ∃ pairs, brackets token = inTurn pairs
  /-- No class is empty. -/
  filled : ∀ front back, token ≠ front ++ '[' :: ']' :: back

variable {token front members : List Char} {pieces : List Piece} {fault : Fault} {m n : Nat}

/-! ## Brackets in turn -/

theorem inTurn_succ (n : Nat) : inTurn (n + 1) = '[' :: ']' :: inTurn n := by
  simp [inTurn, List.replicate_succ]

theorem inTurn_succ_eq_append (n : Nat) : inTurn (n + 1) = inTurn n ++ ['[', ']'] := by
  simp [inTurn, List.replicate_succ']

/-- Behind brackets that are `inTurn` the next one opens a class, and another one closes it. -/
theorem exists_of_inTurn_append {rest : List Char} (h : inTurn m ++ rest = inTurn n) :
    rest = [] ∨ ∃ more, rest = '[' :: ']' :: more := by
  induction m generalizing n with
  | zero =>
    rw [show inTurn 0 = [] from rfl, List.nil_append] at h
    cases n with
    | zero => exact .inl h
    | succ n => exact .inr ⟨inTurn n, by rw [h, inTurn_succ]⟩
  | succ m ih =>
    cases n with
    | zero => simp [inTurn_succ, show inTurn 0 = [] from rfl] at h
    | succ n =>
      rw [inTurn_succ, inTurn_succ] at h
      exact ih (List.cons.inj (List.cons.inj h).2).2

@[simp]
theorem brackets_append (first second : List Char) :
    brackets (first ++ second) = brackets first ++ brackets second :=
  List.filter_append first second

theorem brackets_of_forall (h : ∀ c ∈ members, isBracket c = false) : brackets members = [] :=
  List.filter_eq_nil_iff.2 fun c hc => by simp [h c hc]

theorem brackets_cons_of_isBracket {c : Char} (h : isBracket c = true) (rest : List Char) :
    brackets (c :: rest) = c :: brackets rest :=
  List.filter_cons_of_pos h

/-- The text of a part that `IsWritten` has one pair of brackets or none. -/
theorem exists_brackets_text {piece : Piece} (h : piece.IsWritten) :
    ∃ n, brackets piece.text = inTurn n := by
  cases piece with
  | char c =>
    have hc : isBracket c = false := by
      simp only [Piece.IsWritten, Alternative.isWildcard, Bool.or_eq_false_iff] at h
      simp [isBracket, h.1.2, h.2]
    exact ⟨0, brackets_of_forall (by simpa [Piece.text] using hc)⟩
  | anyChar => exact ⟨0, rfl⟩
  | anyRun => exact ⟨0, rfl⟩
  | oneOf members =>
    refine ⟨1, ?_⟩
    rw [Piece.text, List.cons_append, brackets_cons_of_isBracket rfl, brackets_append,
      brackets_of_forall h.2]
    rfl

/-- The brackets in the text of some parts open and close `inTurn`. -/
theorem Reads.exists_brackets (h : Reads token pieces) : ∃ n, brackets token = inTurn n := by
  obtain ⟨rfl, hwritten⟩ := h
  induction pieces with
  | nil => exact ⟨0, rfl⟩
  | cons piece pieces ih =>
    obtain ⟨hpiece, hpieces⟩ := List.forall_mem_cons.1 hwritten
    obtain ⟨m, hm⟩ := exists_brackets_text hpiece
    obtain ⟨n, hn⟩ := ih hpieces
    refine ⟨m + n, ?_⟩
    rw [textOf, List.flatMap_cons, brackets_append, hm, ← textOf, hn, inTurn, inTurn, inTurn,
      ← List.flatten_append, List.replicate_append_replicate]

/-! ## Open classes -/

/-- Behind a bracket that opens a class, and members of it, `IsOpen` holds. -/
theorem isOpen_append_of_forall (front : List Char) (h : ∀ c ∈ members, isBracket c = false) :
    IsOpen (front ++ '[' :: members) := by
  simp [IsOpen, brackets_cons_of_isBracket (show isBracket '[' = true from rfl),
    brackets_of_forall h]

theorem isOpen_of_getLast? (h : front.getLast? = some '[') : IsOpen front := by
  obtain ⟨before, rfl⟩ := List.getLast?_eq_some_iff.1 h
  exact isOpen_append_of_forall before (by simp)

/-- Behind the text of some parts `IsOpen` does not hold, since their brackets come in pairs. -/
theorem Reads.not_isOpen (h : Reads front pieces) : ¬ IsOpen front := by
  obtain ⟨n, hn⟩ := h.exists_brackets
  rw [IsOpen, hn]
  cases n with
  | zero => simp [inTurn]
  | succ n => simp [inTurn_succ_eq_append]

/-! ## Faults -/

/-- A text without a fault has none in what stands in front. -/
theorem Faultless.of_append {back : List Char} (h : Faultless (front ++ back)) :
    Faultless front := by
  rintro before c after rfl
  exact h before c (after ++ back) (by simp)

/-- A `Faultless` text is the text of some parts, or of some parts and a class that is still
open. -/
theorem Faultless.reads_or_pending (h : Faultless token) :
    (∃ pieces, Reads token pieces) ∨
      ∃ front pieces members, Reads front pieces ∧ (∀ c ∈ members, isBracket c = false) ∧
        token = front ++ '[' :: members := by
  obtain hreads | ⟨fault, hfault⟩ := exists_reads_or_bracketFault token
  · exact .inl hreads
  · -- all faults but the last one would have been met
    cases hfault with
    | stray hfront back => exact absurd (.stray hfront.not_isOpen) (h _ _ back rfl _)
    | @empty front _ hfront back =>
      exact absurd (.empty (by simp)) (h (front ++ ['[']) ']' back (by simp) _)
    | @nested front members _ hfront hmembers back =>
      exact absurd (.nested (isOpen_append_of_forall front hmembers))
        (h (front ++ '[' :: members) '[' back (by simp) _)
    | unclosed hfront hmembers => exact .inr ⟨_, _, _, hfront, hmembers, rfl⟩

/-- Where a fault is met, there is a leftmost one: some `front` without a fault, and a bracket at
fault behind it. -/
theorem faultless_or_exists_met (text : List Char) :
    Faultless text ∨ ∃ front c back fault,
      text = front ++ c :: back ∧ Faultless front ∧ FaultAt front c fault := by
  -- on the text read so far, one character after the other
  induction text using List.reverseRecOn with
  | nil => exact .inl fun front c back h => by simp at h
  | append_singleton text c ih =>
    obtain hfaultless | ⟨front, d, back, fault, rfl, hfront, hfault⟩ := ih
    · by_cases hc : ∃ fault, FaultAt text c fault
      · obtain ⟨fault, hfault⟩ := hc
        exact .inr ⟨text, c, [], fault, rfl, hfaultless, hfault⟩
      · refine .inl fun front d back heq fault hfault => ?_
        rcases List.eq_nil_or_concat back with rfl | ⟨back, last, rfl⟩
        · obtain ⟨rfl, hd⟩ := List.append_inj' heq rfl
          obtain rfl : c = d := by simpa using hd
          exact hc ⟨fault, hfault⟩
        · rw [List.concat_eq_append, ← List.cons_append, ← List.append_assoc] at heq
          exact hfaultless front d back (List.append_inj' heq rfl).1 fault hfault
    · exact .inr ⟨front, d, back ++ [c], fault, by simp, hfront, hfault⟩

/-- The leftmost fault is a `BracketFault`: it has the text of parts in front of it, and the class
that is open, if one is. -/
theorem LeftmostFault.bracketFault (h : LeftmostFault token fault) : BracketFault token fault := by
  cases h with
  | @met front _ _ hfront hfault back =>
    obtain ⟨pieces, hreads⟩ | ⟨before, pieces, members, hreads, hmembers, rfl⟩ :=
      hfront.reads_or_pending
    · cases hfault with
      | nested hopen => exact absurd hopen hreads.not_isOpen
      | stray _ => exact .stray hreads back
      | empty hlast => exact absurd (isOpen_of_getLast? hlast) hreads.not_isOpen
    · cases hfault with
      | nested _ =>
        rw [List.append_assoc, List.cons_append]
        exact .nested hreads hmembers back
      | stray hopen => exact absurd (isOpen_append_of_forall before hmembers) hopen
      | empty hlast =>
        -- a member at the end would not be a bracket
        obtain rfl : members = [] := by
          rcases List.eq_nil_or_concat members with rfl | ⟨rest, last, rfl⟩
          · rfl
          · rw [List.concat_eq_append, ← List.cons_append, ← List.append_assoc,
              List.getLast?_concat] at hlast
            obtain rfl := Option.some.inj hlast
            exact absurd (hmembers '[' (by simp)) (by decide)
        rw [List.append_assoc]
        exact .empty hreads back
  | @pending front members hfaultless hmembers =>
    have hopen : ¬ IsOpen front := fun hopen => hfaultless front '[' members rfl _ (.nested hopen)
    obtain ⟨pieces, hreads⟩ | ⟨before, pieces, others, -, hothers, rfl⟩ :=
      hfaultless.of_append.reads_or_pending
    · exact .unclosed hreads hmembers
    · exact absurd (isOpen_append_of_forall before hothers) hopen

/-- Every token is the text of some parts, or has a `LeftmostFault`. -/
theorem exists_reads_or_leftmostFault (token : List Char) :
    (∃ pieces, Reads token pieces) ∨ ∃ fault, LeftmostFault token fault := by
  obtain hfaultless | ⟨front, c, back, fault, rfl, hfront, hfault⟩ := faultless_or_exists_met token
  · obtain hreads | ⟨front, _, members, _, hmembers, rfl⟩ := hfaultless.reads_or_pending
    · exact .inl hreads
    · exact .inr ⟨_, .pending hfaultless hmembers⟩
  · exact .inr ⟨fault, .met hfront hfault back⟩

/-- `readPieces` fails exactly with the leftmost fault of the token. -/
theorem readPieces_eq_error_iff_leftmostFault :
    readPieces token = .error fault ↔ LeftmostFault token fault :=
  (result_iff_of_total (fun _ => readPieces_of_reads)
    (fun _ h => readPieces_of_bracketFault h.bracketFault)
    (exists_reads_or_leftmostFault token)).2 fault

/-- The text of some parts is `Faultless`. -/
theorem Reads.faultless (h : Reads token pieces) : Faultless token := by
  obtain hfaultless | ⟨front, c, back, fault, rfl, hfront, hfault⟩ := faultless_or_exists_met token
  · exact hfaultless
  · have herror := readPieces_of_bracketFault (LeftmostFault.met hfront hfault back).bracketFault
    rw [readPieces_of_reads h] at herror
    cases herror

/-- A token is the text of some parts exactly if its brackets are `InOrder`. -/
theorem exists_reads_iff_inOrder : (∃ pieces, Reads token pieces) ↔ InOrder token := by
  refine ⟨?_, fun h => ?_⟩
  · rintro ⟨pieces, hreads⟩
    refine ⟨hreads.exists_brackets, ?_⟩
    rintro front back rfl
    exact hreads.faultless (front ++ ['[']) ']' back (by simp) _ (.empty (by simp))
  · obtain hreads | ⟨fault, hfault⟩ := exists_reads_or_bracketFault token
    · exact hreads
    · -- in front of a fault the brackets are in turn, and go on in a way that is not
      exfalso
      obtain ⟨n, hn⟩ := h.alternate
      cases hfault with
      | stray hfront back =>
        obtain ⟨m, hm⟩ := hfront.exists_brackets
        rw [brackets_append, hm, brackets_cons_of_isBracket rfl] at hn
        simpa using exists_of_inTurn_append hn
      | empty hfront back => exact h.filled _ back rfl
      | nested hfront hmembers back =>
        obtain ⟨m, hm⟩ := hfront.exists_brackets
        rw [brackets_append, hm, brackets_cons_of_isBracket rfl, brackets_append,
          brackets_of_forall hmembers, brackets_cons_of_isBracket rfl] at hn
        simpa using exists_of_inTurn_append hn
      | unclosed hfront hmembers =>
        obtain ⟨m, hm⟩ := hfront.exists_brackets
        rw [brackets_append, hm, brackets_cons_of_isBracket rfl, brackets_of_forall hmembers] at hn
        simpa using exists_of_inTurn_append hn

theorem isBracket_of_faultAt {c : Char} (h : FaultAt front c fault) : isBracket c = true := by
  cases h <;> rfl

/-- The offset of an unbalanced bracket is where a bracket of the token stands, in bytes. -/
theorem LeftmostFault.exists_bracket {offset : Nat}
    (h : LeftmostFault token (.unbalancedBracket offset)) :
    ∃ front c back, token = front ++ c :: back ∧ isBracket c = true ∧
      String.utf8Len front = offset := by
  cases h with
  | met hfront hfault back =>
    refine ⟨_, _, back, rfl, isBracket_of_faultAt hfault, ?_⟩
    cases hfault <;> rfl
  | pending hfaultless hmembers => exact ⟨_, _, _, rfl, rfl, rfl⟩

/-- What `readPieces` comes to, by the brackets of a token. It succeeds exactly if they are
`InOrder`: they alternate, from one that opens a class to one that closes it, and no class is empty.
Otherwise it fails with the `LeftmostFault`, and the offset that this names is where a bracket
stands. -/
theorem readPieces_of_bracket_order (token : List Char) :
    ((∃ pieces, readPieces token = .ok pieces) ↔ InOrder token) ∧
      (∀ fault, readPieces token = .error fault ↔ LeftmostFault token fault) ∧
        ∀ offset, readPieces token = .error (.unbalancedBracket offset) →
          ∃ front c back, token = front ++ c :: back ∧ isBracket c = true ∧
            String.utf8Len front = offset := by
  refine ⟨?_, fun fault => readPieces_eq_error_iff_leftmostFault, fun offset herror => ?_⟩
  · simp only [readPieces_eq_ok_iff, exists_reads_iff_inOrder]
  · exact (readPieces_eq_error_iff_leftmostFault.1 herror).exists_bracket

/-- The third clause of `readPieces_of_bracket_order` where a character of two bytes stands in
front: the class that is opened inside the other is at fault, at offset four. -/
theorem readPieces_of_umlaut_class :
    readPieces ['ä', '[', 'b', '['] = .error (.unbalancedBracket 4) ∧
      LeftmostFault ['ä', '[', 'b', '['] (.unbalancedBracket 4) ∧
      ∃ front c back, ['ä', '[', 'b', '['] = front ++ c :: back ∧ isBracket c = true ∧
        String.utf8Len front = 4 := by
  have herror : readPieces ['ä', '[', 'b', '['] = .error (.unbalancedBracket 4) := by rfl
  obtain ⟨-, hfault, hoffset⟩ := readPieces_of_bracket_order ['ä', '[', 'b', '[']
  exact ⟨herror, (hfault _).1 herror, hoffset 4 herror⟩

end PathPatterns.Component
