import Mathlib.Data.String.Basic
import PathPatterns.Glob
import PathPatterns.Proofs.Lists
import PathPatterns.Proofs.Matching.Component

/-!
# What reading a pattern guarantees

Tokens are cut at separators, so nothing that is read from a token stands for text with a separator.
The root is the first segment or none, drives are named by capital letters, literal paths are
normalized and no alternative is empty.

## Main results

* `wellFormed_of_parse`: a pattern that is read is well-formed.
-/

namespace PathPatterns

namespace Segment

/-- Whether a segment can have been read from a token without separators. -/
def WellFormed : Segment → Prop
  | root => True
  | device letter => letter.isUpper = true
  | component c => c.WellFormed
  | anyDirectory => True
  | recursive => True

end Segment

namespace Alternative

/-- Whether an alternative can have been read from a text: a literal path is normalized, and the
root stands first or nowhere. -/
def WellFormed : Alternative → Prop
  | literal path => Path.normalize path = path
  | steps segments =>
    segments ≠ [] ∧ (∀ segment ∈ segments, segment.WellFormed) ∧ .root ∉ segments.tail

end Alternative

/-- Whether a glob can have been read from a text: there is an alternative, and each is
well-formed. -/
def Glob.WellFormed (glob : Glob) : Prop :=
  glob.alternatives ≠ [] ∧ ∀ alternative ∈ glob.alternatives, alternative.WellFormed

/-! ## Drive letters -/

section DriveLetters

variable {c : Char}

/-- All letters are characters of ASCII, so what holds of the letters below 128 holds of every
letter. -/
theorem of_isAlpha {p : Char → Prop}
    (hp : ∀ n < 128, (Char.ofNat n).isAlpha = true → p (Char.ofNat n)) (h : c.isAlpha = true) :
    p c := by
  have hlt : c.toNat < 128 := by
    rcases Bool.or_eq_true_iff.1 h with hupper | hlower
    · exact Nat.lt_of_le_of_lt (of_decide_eq_true hupper).2 (by decide)
    · exact Nat.lt_of_le_of_lt (of_decide_eq_true (Bool.and_eq_true_iff.1 hlower).2) (by decide)
  rw [← Char.ofNat_toNat c] at h ⊢
  exact hp c.toNat hlt h

theorem not_separator_of_isAlpha (h : c.isAlpha = true) : Path.isSeparator c = false :=
  of_isAlpha (p := fun c => Path.isSeparator c = false) (by decide) h

/-- Neither the letter of a drive nor its small letter is a separator. -/
theorem not_separator_of_isUpper (h : c.isUpper = true) :
    Path.isSeparator c = false ∧ Path.isSeparator c.toLower = false := by
  have halpha : c.isAlpha = true := Bool.or_eq_true_iff.2 (.inl h)
  exact ⟨not_separator_of_isAlpha halpha,
    of_isAlpha (p := fun c => Path.isSeparator c.toLower = false) (by decide) halpha⟩

/-- The capital of a letter, which is kept as the letter of a drive, is a letter and its own
capital. -/
theorem toUpper_of_isAlpha (h : c.isAlpha = true) :
    c.toUpper.isUpper = true ∧ c.toUpper.isAlpha = true ∧ c.toUpper.toUpper = c.toUpper :=
  of_isAlpha (p := fun c => c.toUpper.isUpper = true ∧ c.toUpper.isAlpha = true ∧
    c.toUpper.toUpper = c.toUpper) (by decide) h

end DriveLetters

/-! ## Components -/

namespace Component

/-- A character that is read outside brackets is well-formed as a part, unless it is a separator. -/
theorem wellFormed_ofChar {c : Char} (h : Path.isSeparator c = false) :
    (Piece.ofChar c).WellFormed := by
  unfold Piece.ofChar
  split
  · exact trivial
  · split
    · exact trivial
    · exact h

/-- The parts that `readFrom` gives for a text without separators are well-formed, if those in
`done` are and the class in `opened` has no separator. -/
theorem wellFormed_of_readFrom {text : List Char} (htext : ∀ c ∈ text, Path.isSeparator c = false)
    {offset : Nat} {opened : Option OpenClass} {done pieces : List Piece}
    (hopened : ∀ pending, opened = some pending →
      ∀ c ∈ pending.members, Path.isSeparator c = false)
    (hdone : ∀ piece ∈ done, piece.WellFormed)
    (h : readFrom offset opened done text = .ok pieces) : ∀ piece ∈ pieces, piece.WellFormed := by
  -- along the text: a character joins the parts, or the class that is being read
  induction text generalizing offset opened done with
  | nil =>
    cases opened with
    | some pending => simp [readFrom] at h
    | none =>
      obtain rfl : done.reverse = pieces := by simpa [readFrom] using h
      simpa using hdone
  | cons c rest ih =>
    have hrest : ∀ d ∈ rest, Path.isSeparator d = false := fun d hd => htext d (by simp [hd])
    cases opened with
    | none =>
      simp only [readFrom] at h
      split at h
      · exact ih hrest (by simp) hdone h
      · split at h
        · simp at h
        · refine ih hrest (by simp) ?_ h
          exact List.forall_mem_cons.2 ⟨wellFormed_ofChar (htext c (by simp)), hdone⟩
    | some pending =>
      have hmembers := hopened pending rfl
      simp only [readFrom] at h
      split at h
      · simp at h
      · split at h
        · split at h
          · simp at h
          · -- the class is closed, with what has been read of it as its members
            rename_i hne
            refine ih hrest (by simp) ?_ h
            refine List.forall_mem_cons.2 ⟨⟨?_, by simpa using hmembers⟩, hdone⟩
            simpa using hne
        · refine ih hrest ?_ hdone h
          rintro _ ⟨⟩
          exact List.forall_mem_cons.2 ⟨htext c (by simp), hmembers⟩

/-- A component that `Component.parse` gives for a token without separators is well-formed. -/
theorem wellFormed_of_parse {token : List Char} (htoken : ∀ c ∈ token, Path.isSeparator c = false)
    {component : Component} (h : parse token = .ok component) : component.WellFormed := by
  -- in the order in which `parse` tries the kinds of segments
  unfold parse at h
  cases hp : readPieces token with
  | error fault => simp [hp, bind, Except.bind] at h
  | ok pieces =>
    simp only [hp, bind, Except.bind] at h
    split at h
    · obtain rfl := Except.ok.inj h
      exact wellFormed_of_readFrom htoken (by simp) (by simp) hp
    · simp at h

end Component

/-! ## Segments and alternatives -/

namespace Segment

/-- The letter that `driveLetter?` gives is a capital, however it is written in the token. -/
theorem isUpper_of_driveLetter? {token : List Char} {letter : Char}
    (h : driveLetter? token = some letter) : letter.isUpper = true := by
  unfold driveLetter? at h
  split at h
  · split at h
    · rename_i halpha
      obtain rfl := Option.some.inj h
      exact (toUpper_of_isAlpha halpha).1
    · simp at h
  · simp at h

/-- A segment that `Segment.parse` gives for a token is well-formed, and it is not the root, which
no token stands for. -/
theorem wellFormed_of_parse {token : List Char} (htoken : ∀ c ∈ token, Path.isSeparator c = false)
    {segment : Segment} (h : parse token = .ok segment) :
    segment.WellFormed ∧ segment ≠ root := by
  unfold parse at h
  split at h
  · obtain rfl := Except.ok.inj h
    exact ⟨trivial, by simp⟩
  · split at h
    · obtain rfl := Except.ok.inj h
      exact ⟨trivial, by simp⟩
    · split at h
      · simp at h
      · split at h
        · rename_i letter hletter
          obtain rfl := Except.ok.inj h
          exact ⟨isUpper_of_driveLetter? hletter, by simp⟩
        · cases hc : Component.parse token with
          | error fault => simp [hc, Functor.map, Except.map] at h
          | ok c =>
            obtain rfl : component c = segment := by simpa [hc, Functor.map, Except.map] using h
            exact ⟨Component.wellFormed_of_parse htoken hc, by simp⟩

end Segment

namespace Alternative

@[simp]
theorem normalize_normalize (path : String) :
    Path.normalize (Path.normalize path) = Path.normalize path := by
  apply String.toList_injective
  simp

/-- The segments that `readSegments` gives are well-formed as an alternative: there is one, since
there is a token, and only the first can be the root. -/
theorem wellFormed_of_readSegments {tokens : List (List Char)} (hne : tokens ≠ [])
    (htokens : ∀ token ∈ tokens, ∀ c ∈ token, Path.isSeparator c = false)
    {segments : List Segment} (h : readSegments tokens = .ok segments) :
    (steps segments).WellFormed := by
  unfold readSegments at h
  cases hread : (tokens.filter fun token => !token.isEmpty).mapM Segment.parse with
  | error fault => simp [hread, bind, Except.bind] at h
  | ok read =>
    simp only [hread, bind, Except.bind, pure, Except.pure, Except.ok.injEq] at h
    have hforall := mapM_eq_ok_iff.1 hread
    have hread : ∀ segment ∈ read, segment.WellFormed ∧ segment ≠ .root := by
      intro segment hsegment
      obtain ⟨token, htoken, hparse⟩ := exists_of_mem_of_mapM hread hsegment
      exact Segment.wellFormed_of_parse (htokens token (List.mem_filter.1 htoken).1) hparse
    split at h
    · -- a root is put in front of what is read, and nowhere else
      subst h
      refine ⟨by simp, List.forall_mem_cons.2 ⟨trivial, fun s hs => (hread s hs).1⟩, ?_⟩
      exact fun hroot => (hread _ hroot).2 rfl
    · rename_i hhead
      subst h
      refine ⟨?_, fun s hs => (hread s hs).1,
        fun hroot => (hread _ (List.mem_of_mem_tail hroot)).2 rfl⟩
      -- the first token is not empty, so it is read
      rintro rfl
      have hnil := List.forall₂_nil_right_iff.1 hforall
      cases tokens with
      | nil => exact hne rfl
      | cons token rest => simp_all

/-- An alternative that `Alternative.parse` gives is well-formed, whatever the text. -/
theorem wellFormed_of_parse {text : List Char} {alternative : Alternative}
    (h : parse text = .ok alternative) : alternative.WellFormed := by
  unfold parse at h
  split at h
  · obtain rfl := Except.ok.inj h
    exact normalize_normalize _
  · cases hread : readSegments (Path.components text) with
    | error fault => simp [hread, Functor.map, Except.map] at h
    | ok segments =>
      obtain rfl : steps segments = alternative := by
        simpa [hread, Functor.map, Except.map] using h
      exact wellFormed_of_readSegments (Path.components_ne_nil text)
        (fun _ => Path.not_separator_of_mem_components) hread

end Alternative

namespace Glob

/-- `Glob.parse` succeeds exactly if the expanded text is read into alternatives; the glob keeps the
text as it was given. -/
theorem parse_eq_ok_iff {env : Environment} {text : String} {glob : Glob} :
    parse env text = .ok glob ↔
      glob.text = text ∧
        readAlternatives (Template.expand env text).toList = .ok glob.alternatives := by
  unfold parse
  cases readAlternatives (Template.expand env text).toList with
  | error fault => simp
  | ok alternatives =>
    obtain ⟨glob, read⟩ := glob
    simp only [Except.ok.injEq, Glob.mk.injEq]
    exact and_congr_left' eq_comm

/-- `readAlternatives` succeeds exactly if there is a text and `Alternative.parse` reads each, and
gives what it reads. -/
theorem readAlternatives_eq_ok_iff {expanded : List Char} {alternatives : List Alternative} :
    readAlternatives expanded = .ok alternatives ↔
      alternativeTexts expanded ≠ [] ∧
        (alternativeTexts expanded).mapM Alternative.parse = .ok alternatives := by
  unfold readAlternatives
  cases alternativeTexts expanded <;> simp

/-- A glob that `Glob.parse` gives is well-formed, whatever the text and the environment. -/
theorem wellFormed_of_parse {env : Environment} {text : String} {glob : Glob}
    (h : parse env text = .ok glob) : glob.WellFormed := by
  obtain ⟨hne, hread⟩ := readAlternatives_eq_ok_iff.1 (parse_eq_ok_iff.1 h).2
  refine ⟨fun hnil => hne ?_, fun alternative halternative => ?_⟩
  · rw [hnil] at hread
    exact List.forall₂_nil_right_iff.1 (mapM_eq_ok_iff.1 hread)
  · obtain ⟨text, -, hparse⟩ := exists_of_mem_of_mapM hread halternative
    exact Alternative.wellFormed_of_parse hparse

end Glob

end PathPatterns
