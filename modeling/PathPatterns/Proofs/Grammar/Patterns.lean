import PathPatterns.Proofs.Grammar.Brackets
import PathPatterns.Proofs.WellFormed

/-!
# The grammar of patterns

A pattern is cut into alternatives at its semicolons, and an alternative that is no literal path
into tokens at its separators. Each token has one reading or one fault. A pattern is read if none of
its tokens has a fault; otherwise the first token with a fault in the first alternative with one
says why it is rejected.

## Main results

* `mapM_eq_error_iff`: reading a list fails with the fault of the first element that has one.
* `Segment.parse_eq_ok_iff`, `Segment.parse_eq_error_iff`: readings and faults of tokens.
* `Alternative.parse_eq_ok_iff`, `Alternative.parse_eq_error_iff`: those of alternatives.
* `Glob.parse_follows_grammar`: what a pattern is read into, and why it is rejected.
-/

namespace PathPatterns

/-! ## First faults -/

/-- Whether a fault is the one of the first element of a list that has any. -/
def FirstFault {α ε : Type} (hasFault : α → ε → Prop) (as : List α) (fault : ε) : Prop :=
  ∃ front a back, as = front ++ a :: back ∧
    (∀ other ∈ front, ∀ fault, ¬ hasFault other fault) ∧ hasFault a fault

section FirstFault

variable {α β ε : Type} {hasFault : α → ε → Prop} {a : α} {as : List α} {fault : ε}

theorem not_firstFault_nil : ¬ FirstFault hasFault [] fault := by
  simp [FirstFault]

/-- The `FirstFault` of a list is that of the first element, if it has one, and else that of the
rest. -/
theorem firstFault_cons_iff :
    FirstFault hasFault (a :: as) fault ↔
      hasFault a fault ∨ (∀ fault, ¬ hasFault a fault) ∧ FirstFault hasFault as fault := by
  refine ⟨?_, ?_⟩
  · rintro ⟨front, b, back, heq, hfront, hb⟩
    -- the fault is that of the first element exactly if nothing is in front of it
    cases front with
    | nil =>
      obtain ⟨rfl, -⟩ := List.cons.inj heq
      exact .inl hb
    | cons first front =>
      obtain ⟨rfl, rfl⟩ := List.cons.inj heq
      obtain ⟨hfirst, hothers⟩ := List.forall_mem_cons.1 hfront
      exact .inr ⟨hfirst, front, b, back, rfl, hothers, hb⟩
  · rintro (ha | ⟨ha, front, b, back, rfl, hfront, hb⟩)
    · exact ⟨[], a, as, rfl, by simp, ha⟩
    · exact ⟨a :: front, b, back, rfl, List.forall_mem_cons.2 ⟨ha, hfront⟩, hb⟩

/-- There is a `FirstFault` exactly if some element has a fault. -/
theorem exists_firstFault_iff :
    (∃ fault, FirstFault hasFault as fault) ↔ ∃ a ∈ as, ∃ fault, hasFault a fault := by
  induction as with
  | nil => simp [not_firstFault_nil]
  | cons a as ih =>
    simp only [firstFault_cons_iff, exists_or, List.exists_mem_cons_iff, exists_and_left, ih]
    by_cases ha : ∃ fault, hasFault a fault
    · simp [ha]
    · simp [not_exists.1 ha]

theorem FirstFault.exists_mem (h : FirstFault hasFault as fault) : ∃ a ∈ as, hasFault a fault := by
  obtain ⟨front, a, back, rfl, -, ha⟩ := h
  exact ⟨a, by simp, ha⟩

/-- Elements may have their faults by another relation that agrees on the list. -/
theorem firstFault_congr {other : α → ε → Prop}
    (h : ∀ a ∈ as, ∀ fault, hasFault a fault ↔ other a fault) :
    FirstFault hasFault as fault ↔ FirstFault other as fault := by
  induction as with
  | nil => simp only [not_firstFault_nil]
  | cons a as ih =>
    obtain ⟨ha, has⟩ := List.forall_mem_cons.1 h
    simp only [firstFault_cons_iff, ha, ih has]

/-- `List.mapM` fails exactly with the fault of the first element on which `f` fails. -/
theorem mapM_eq_error_iff {f : α → Except ε β} :
    as.mapM f = .error fault ↔ FirstFault (fun a fault => f a = .error fault) as fault := by
  induction as with
  | nil => simp [not_firstFault_nil, pure, Except.pure]
  | cons a as ih =>
    rw [List.mapM_cons, firstFault_cons_iff, ← ih]
    cases ha : f a with
    | error other => simp [bind, Except.bind]
    | ok b => cases as.mapM f <;> simp [bind, Except.bind, pure, Except.pure]

end FirstFault

/-! ## Tokens -/

namespace Segment

/-- Whether a token is `.` or `..`, which a pattern may not use. -/
def IsNavigation (token : List Char) : Prop :=
  token = ['.'] ∨ token = ['.', '.']

/-- Whether a token stands for one component: it is neither `*` nor `**` nor the name of a drive,
and does not navigate. -/
def IsOrdinary (token : List Char) : Prop :=
  token ≠ ['*'] ∧ token ≠ ['*', '*'] ∧ ¬ IsNavigation token ∧
    ∀ letter, token = [letter, ':'] → letter.isAlpha = false

/-- Whether a token has brackets that are in order, but too large an expression. -/
def IsTooLarge (token : List Char) : Prop :=
  IsOrdinary token ∧ ∃ pieces, Component.Reads token pieces ∧
    (⟨String.ofList token, pieces⟩ : Component).pathRegex.compiles = false

/-- Whether a token navigates or has brackets that are not in order. -/
def IsMalformed (token : List Char) : Prop :=
  IsNavigation token ∨ ∃ fault, Component.BracketFault token fault

/-- Whether a token is read into a segment; the root has no token. -/
def ReadsAs (token : List Char) : Segment → Prop
  | root => False
  | device letter =>
    ∃ written, token = [written, ':'] ∧ written.isAlpha = true ∧ letter = written.toUpper
  | component c =>
    IsOrdinary token ∧ c.source = String.ofList token ∧ Component.Reads token c.pieces ∧
      c.pathRegex.compiles = true
  | anyDirectory => token = ['*']
  | recursive => token = ['*', '*']

/-- The fault of a token, if it has one. -/
inductive HasFault : List Char → Fault → Prop
  /-- It navigates. -/
  | navigation {token : List Char} (h : IsNavigation token) :
      HasFault token (.unsupportedNavigation (String.ofList token))
  /-- Its brackets are not in order. -/
  | brackets {token : List Char} {fault : Fault} (h : Component.BracketFault token fault) :
      HasFault token fault
  /-- Its expression is too large. -/
  | tooLarge {token : List Char} (h : IsTooLarge token) : HasFault token .invalidRegex

variable {token : List Char} {segment : Segment} {fault : Fault} {letter : Char}

theorem driveLetter?_of_isAlpha (h : letter.isAlpha = true) :
    driveLetter? [letter, ':'] = some letter.toUpper := by
  simp [driveLetter?, h]

/-- A token that is not a letter with a colon behind it is not a drive. -/
theorem driveLetter?_eq_none (h : ∀ letter, token = [letter, ':'] → letter.isAlpha = false) :
    driveLetter? token = none := by
  unfold driveLetter?
  split
  · rename_i letter
    simp [h letter rfl]
  · rfl

theorem parse_of_isOrdinary (h : IsOrdinary token) :
    parse token = component <$> Component.parse token := by
  obtain ⟨hone, hmany, hnavigation, hdrive⟩ := h
  rw [IsNavigation] at hnavigation
  rw [parse, if_neg hone, if_neg hmany, if_neg hnavigation, driveLetter?_eq_none hdrive]

/-- A token with a bracket `IsOrdinary`, since `*`, `**`, `.`, `..` and drives have none. -/
theorem isOrdinary_of_exists_bracket (h : ∃ c ∈ token, isBracket c = true) : IsOrdinary token := by
  refine ⟨?_, ?_, ?_, ?_⟩
  · rintro rfl
    simp [isBracket] at h
  · rintro rfl
    simp [isBracket] at h
  · rintro (rfl | rfl)
    · simp [isBracket] at h
    · simp [isBracket] at h
  · rintro letter rfl
    -- no letter is a bracket
    obtain rfl | rfl : letter = '[' ∨ letter = ']' := by simpa [isBracket] using h
    · rfl
    · rfl

/-- `Segment.parse` gives the segment that a token `ReadsAs`. -/
theorem parse_of_readsAs (h : segment.ReadsAs token) : parse token = .ok segment := by
  cases segment with
  | root => exact h.elim
  | device letter =>
    obtain ⟨written, rfl, halpha, rfl⟩ := h
    simp [parse, driveLetter?_of_isAlpha halpha]
  | component c =>
    obtain ⟨source, pieces⟩ := c
    obtain ⟨hordinary, rfl, hreads, hcompiles⟩ := h
    rw [parse_of_isOrdinary hordinary, Component.parse_of_reads hreads, if_pos hcompiles]
    rfl
  | anyDirectory =>
    obtain rfl : token = ['*'] := h
    rfl
  | recursive =>
    obtain rfl : token = ['*', '*'] := h
    rfl

/-- `Segment.parse` fails with the fault that a token has. -/
theorem parse_of_hasFault (h : HasFault token fault) : parse token = .error fault := by
  cases h with
  | navigation h =>
    obtain rfl | rfl := h
    · rfl
    · rfl
  | brackets h =>
    rw [parse_of_isOrdinary (isOrdinary_of_exists_bracket h.exists_bracket),
      Component.parse_of_bracketFault h]
    rfl
  | tooLarge h =>
    obtain ⟨hordinary, pieces, hreads, hcompiles⟩ := h
    rw [parse_of_isOrdinary hordinary, Component.parse_of_reads hreads, hcompiles]
    rfl

/-- Every token `ReadsAs` a segment or `HasFault`, by whether it navigates, is special, or has its
brackets in order. -/
theorem exists_readsAs_or_hasFault (token : List Char) :
    (∃ segment : Segment, segment.ReadsAs token) ∨ ∃ fault, HasFault token fault := by
  by_cases hordinary : IsOrdinary token
  · obtain ⟨pieces, hreads⟩ | ⟨fault, hfault⟩ := Component.exists_reads_or_bracketFault token
    · cases hcompiles : (⟨String.ofList token, pieces⟩ : Component).pathRegex.compiles with
      | true => exact .inl ⟨.component _, hordinary, rfl, hreads, hcompiles⟩
      | false => exact .inr ⟨_, .tooLarge ⟨hordinary, pieces, hreads, hcompiles⟩⟩
    · exact .inr ⟨fault, .brackets hfault⟩
  · -- a token that is not ordinary has no brackets
    rw [IsOrdinary] at hordinary
    by_cases hone : token = ['*']
    · exact .inl ⟨.anyDirectory, hone⟩
    by_cases hmany : token = ['*', '*']
    · exact .inl ⟨.recursive, hmany⟩
    by_cases hnavigation : IsNavigation token
    · exact .inr ⟨_, .navigation hnavigation⟩
    obtain ⟨written, htoken, halpha⟩ :
        ∃ written, token = [written, ':'] ∧ written.isAlpha = true := by
      simpa [hone, hmany, hnavigation] using hordinary
    exact .inl ⟨.device written.toUpper, written, htoken, halpha, rfl⟩

/-- `Segment.parse` succeeds exactly with the segment that a token `ReadsAs`. -/
theorem parse_eq_ok_iff : parse token = .ok segment ↔ segment.ReadsAs token :=
  (result_iff_of_total (fun _ => parse_of_readsAs) (fun _ => parse_of_hasFault)
    (exists_readsAs_or_hasFault token)).1 segment

/-- `Segment.parse` fails exactly with the fault of a token, so a token has only one. -/
theorem parse_eq_error_iff : parse token = .error fault ↔ HasFault token fault :=
  (result_iff_of_total (fun _ => parse_of_readsAs) (fun _ => parse_of_hasFault)
    (exists_readsAs_or_hasFault token)).2 fault

/-- The fault of a token is never that there are no alternatives. -/
theorem not_hasFault_emptyPattern : ¬ HasFault token .emptyPattern := by
  intro h
  cases h with
  | brackets h => cases h

/-- Unless its expression is too large, a token has a fault exactly if it `IsMalformed`. -/
theorem exists_hasFault_iff (h : ¬ IsTooLarge token) :
    (∃ fault, HasFault token fault) ↔ IsMalformed token := by
  refine ⟨?_, ?_⟩
  · rintro ⟨fault, hfault⟩
    cases hfault with
    | navigation hnavigation => exact .inl hnavigation
    | brackets hbrackets => exact .inr ⟨fault, hbrackets⟩
    | tooLarge hlarge => exact absurd hlarge h
  · rintro (hnavigation | ⟨fault, hbrackets⟩)
    · exact ⟨_, .navigation hnavigation⟩
    · exact ⟨fault, .brackets hbrackets⟩

end Segment

/-! ## Alternatives -/

namespace Alternative

/-- Whether a text starts with a separator and has no wildcard. -/
def IsLiteral (text : List Char) : Prop :=
  text.head?.any Path.isSeparator = true ∧ ∀ c ∈ text, isWildcard c = false

/-- The tokens of a text: what stands between its separators, empty text left out. -/
def tokens (text : List Char) : List (List Char) :=
  (Path.components text).filter fun token => !token.isEmpty

/-- The root, for a text that starts with a separator. -/
def leading (text : List Char) : List Segment :=
  if text.head?.any Path.isSeparator then [.root] else []

/-- Whether the text of an alternative is read into an alternative: a literal path, written with
one kind of separator, or a segment for each token. -/
def ReadsAs (text : List Char) : Alternative → Prop
  | literal path => IsLiteral text ∧ path = Path.normalize (String.ofList text)
  | steps segments =>
    ¬ IsLiteral text ∧ ∃ read, List.Forall₂ (fun token segment => segment.ReadsAs token)
      (tokens text) read ∧ segments = leading text ++ read

/-- The fault of the text of an alternative: that of its first token with one, unless it is a
literal path. -/
def HasFault (text : List Char) (fault : Fault) : Prop :=
  ¬ IsLiteral text ∧ FirstFault Segment.HasFault (tokens text) fault

variable {text : List Char} {alternative : Alternative} {fault : Fault}

theorem isLiteral_iff : isLiteral text = true ↔ IsLiteral text := by
  simp [isLiteral, IsLiteral]

/-- A text that is not empty starts with a separator exactly if its first component is empty. -/
theorem head?_components_eq_iff (hne : text ≠ []) :
    (Path.components text).head? = some [] ↔ text.head?.any Path.isSeparator = true := by
  cases text with
  | nil => exact absurd rfl hne
  | cons c rest =>
    cases hc : Path.isSeparator c with
    | true => simp [Path.components_cons_of_separator hc, hc]
    | false =>
      have hpieces : Path.components (c :: rest) = pushFront c (Path.components rest) :=
        pieces_cons_of_not_delimiter hc rest
      rw [hpieces]
      cases Path.components rest with
      | nil => simp [pushFront, hc]
      | cons name names => simp [pushFront, hc]

theorem parse_of_isLiteral (h : IsLiteral text) :
    parse text = .ok (literal (Path.normalize (String.ofList text))) := by
  rw [parse, if_pos (isLiteral_iff.2 h)]

/-- A text that is no literal path is read token by token, with the root in front if it is
`leading`. -/
theorem parse_of_not_isLiteral (hne : text ≠ []) (h : ¬ IsLiteral text) :
    parse text =
      (fun read => steps (leading text ++ read)) <$> (tokens text).mapM Segment.parse := by
  rw [parse, if_neg (mt isLiteral_iff.1 h), readSegments]
  simp only [head?_components_eq_iff hne, leading]
  rw [← tokens]
  cases (tokens text).mapM Segment.parse with
  | error fault => rfl
  | ok read =>
    show Except.ok (steps _) = Except.ok (steps _)
    split_ifs <;> rfl

/-- `Alternative.parse` succeeds exactly with the alternative that a text `ReadsAs`. -/
theorem parse_eq_ok_iff (hne : text ≠ []) :
    parse text = .ok alternative ↔ alternative.ReadsAs text := by
  by_cases hliteral : IsLiteral text
  · rw [parse_of_isLiteral hliteral, Except.ok.injEq]
    cases alternative with
    | literal path => simp [ReadsAs, hliteral, eq_comm]
    | steps segments => simp [ReadsAs, hliteral]
  · rw [parse_of_not_isLiteral hne hliteral]
    have hread : ∀ read, (tokens text).mapM Segment.parse = .ok read ↔
        List.Forall₂ (fun token segment => segment.ReadsAs token) (tokens text) read := by
      intro read
      simp only [mapM_eq_ok_iff, Segment.parse_eq_ok_iff]
    -- no literal path is read here, and segments are read exactly if all tokens are
    cases hmap : (tokens text).mapM Segment.parse with
    | error fault =>
      simp only [hmap, reduceCtorEq, false_iff] at hread
      cases alternative with
      | literal path => simp [ReadsAs, hliteral, Functor.map, Except.map]
      | steps segments => simp [ReadsAs, hread, Functor.map, Except.map]
    | ok read =>
      simp only [hmap, Except.ok.injEq] at hread
      cases alternative with
      | literal path => simp [ReadsAs, hliteral, Functor.map, Except.map]
      | steps segments => simp [ReadsAs, hliteral, ← hread, Functor.map, Except.map, eq_comm]

/-- `Alternative.parse` fails exactly with the fault of the first token that has one. -/
theorem parse_eq_error_iff (hne : text ≠ []) : parse text = .error fault ↔ HasFault text fault := by
  by_cases hliteral : IsLiteral text
  · simp [parse_of_isLiteral hliteral, HasFault, hliteral]
  · have hfault : (tokens text).mapM Segment.parse = .error fault ↔ HasFault text fault := by
      rw [mapM_eq_error_iff]
      simp only [Segment.parse_eq_error_iff]
      exact (and_iff_right hliteral).symm
    rw [parse_of_not_isLiteral hne hliteral, ← hfault]
    cases (tokens text).mapM Segment.parse with
    | error other => simp [Functor.map, Except.map]
    | ok read => simp [Functor.map, Except.map]

end Alternative

/-! ## Patterns -/

namespace Glob

/-- The texts of the alternatives of a pattern: what stands between the semicolons of the expanded
pattern, empty text left out. -/
def textsIn (env : Environment) (text : String) : List (List Char) :=
  alternativeTexts (Template.expand env text).toList

variable {env : Environment} {text : String} {expanded : List Char} {fault : Fault}
  {alternatives : List Alternative}

theorem ne_nil_of_mem_alternativeTexts {alternative : List Char}
    (h : alternative ∈ alternativeTexts expanded) : alternative ≠ [] := by
  simpa using (List.mem_filter.1 h).2

/-- `readAlternatives` succeeds exactly with the alternatives that the texts `ReadsAs`, one for each
and in order. -/
theorem readAlternatives_eq_ok_iff_readsAs :
    readAlternatives expanded = .ok alternatives ↔
      alternativeTexts expanded ≠ [] ∧
        List.Forall₂ (fun text alternative => alternative.ReadsAs text)
          (alternativeTexts expanded) alternatives := by
  rw [readAlternatives_eq_ok_iff, mapM_eq_ok_iff]
  apply and_congr_right'
  apply forall₂_congr_of_mem
  intro text htext alternative
  exact Alternative.parse_eq_ok_iff (ne_nil_of_mem_alternativeTexts htext)

/-- If there is an alternative, `readAlternatives` fails exactly with the fault of the first one
that has any. -/
theorem readAlternatives_eq_error_iff (hne : alternativeTexts expanded ≠ []) :
    readAlternatives expanded = .error fault ↔
      FirstFault Alternative.HasFault (alternativeTexts expanded) fault := by
  have hread : readAlternatives expanded = (alternativeTexts expanded).mapM Alternative.parse := by
    unfold readAlternatives
    split
    · contradiction
    · rfl
  rw [hread, mapM_eq_error_iff]
  apply firstFault_congr
  intro text htext fault
  exact Alternative.parse_eq_error_iff (ne_nil_of_mem_alternativeTexts htext)

/-- `Glob.parse` fails exactly if `readAlternatives` does, with an error that names the pattern as
it was given. -/
theorem parse_eq_error_iff {error : PatternError} :
    parse env text = .error error ↔
      error.pattern = text ∧ readAlternatives (Template.expand env text).toList =
        .error error.fault := by
  obtain ⟨pattern, fault⟩ := error
  unfold parse
  cases readAlternatives (Template.expand env text).toList with
  | ok alternatives => simp
  | error other => simp [eq_comm]

/-- The first fault of some alternatives is never that there are none. -/
theorem not_firstFault_emptyPattern {texts : List (List Char)} :
    ¬ FirstFault Alternative.HasFault texts .emptyPattern := by
  intro h
  -- it would be the fault of a token
  obtain ⟨text, -, -, htokens⟩ := h.exists_mem
  obtain ⟨token, -, htoken⟩ := htokens.exists_mem
  exact Segment.not_hasFault_emptyPattern htoken

/-- `Glob.parse` reads patterns by their grammar. A pattern is empty exactly if `textsIn` gives no
alternatives. Otherwise it is rejected for the `FirstFault` of its alternatives, by an error with
the pattern as it was given, which happens, unless an expression `IsTooLarge`, exactly if an
alternative that is no literal path has a token that `IsMalformed`. A pattern that is read has one
alternative for each text, the one that it `ReadsAs`, in order. -/
theorem parse_follows_grammar (env : Environment) (text : String) :
    (parse env text = .error ⟨text, .emptyPattern⟩ ↔ textsIn env text = []) ∧
    (textsIn env text ≠ [] →
      (∀ error, parse env text = .error error ↔
        error.pattern = text ∧
          FirstFault Alternative.HasFault (textsIn env text) error.fault) ∧
      ((∀ alternative ∈ textsIn env text, ¬ Alternative.IsLiteral alternative →
          ∀ token ∈ Alternative.tokens alternative, ¬ Segment.IsTooLarge token) →
        ((∃ error, parse env text = .error error) ↔
          ∃ alternative ∈ textsIn env text, ¬ Alternative.IsLiteral alternative ∧
            ∃ token ∈ Alternative.tokens alternative, Segment.IsMalformed token))) ∧
    ∀ glob, parse env text = .ok glob ↔
      textsIn env text ≠ [] ∧ glob.text = text ∧
        List.Forall₂ (fun text alternative => alternative.ReadsAs text) (textsIn env text)
          glob.alternatives := by
  have herror : textsIn env text ≠ [] → ∀ error, parse env text = .error error ↔
      error.pattern = text ∧
        FirstFault Alternative.HasFault (textsIn env text) error.fault := by
    intro hne error
    rw [parse_eq_error_iff, readAlternatives_eq_error_iff hne, textsIn]
  refine ⟨⟨fun h => ?_, fun h => ?_⟩, fun hne => ⟨herror hne, fun hsmall => ?_⟩, fun glob => ?_⟩
  · -- with alternatives, it would be a fault of one of them
    by_contra hne
    exact not_firstFault_emptyPattern ((herror hne _).1 h).2
  · rw [parse_eq_error_iff, readAlternatives, ← textsIn, h]
    exact ⟨rfl, rfl⟩
  · -- an error is a first fault, and a first fault is there as soon as there is one
    have hexists : (∃ error, parse env text = .error error) ↔
        ∃ fault, FirstFault Alternative.HasFault (textsIn env text) fault := by
      simp only [herror hne]
      exact ⟨fun ⟨error, _, hfirst⟩ => ⟨error.fault, hfirst⟩,
        fun ⟨fault, hfirst⟩ => ⟨⟨text, fault⟩, rfl, hfirst⟩⟩
    rw [hexists, exists_firstFault_iff]
    refine exists_congr fun alternative => and_congr_right fun halternative => ?_
    simp only [Alternative.HasFault, exists_and_left]
    refine and_congr_right fun hliteral => ?_
    rw [exists_firstFault_iff]
    refine exists_congr fun token => and_congr_right fun htoken => ?_
    exact Segment.exists_hasFault_iff (hsmall alternative halternative hliteral token htoken)
  · rw [parse_eq_ok_iff, readAlternatives_eq_ok_iff_readsAs, ← textsIn]
    exact and_left_comm

/-- An environment in which `UP` leads up. -/
def parentEnvironment : Environment :=
  .ofList [("UP", "..".toUTF8)]

/-- A literal path, and a path that leads up through a variable. -/
def parentPattern : String := "/a.b;x/${UP}"

/-- In `parentEnvironment` the second alternative of `parentPattern` has a token that navigates, and
the pattern is rejected for it; the error names the pattern before expansion. -/
theorem parse_parentPattern :
    textsIn parentEnvironment parentPattern ≠ [] ∧
      (∀ alternative ∈ textsIn parentEnvironment parentPattern,
        ¬ Alternative.IsLiteral alternative →
          ∀ token ∈ Alternative.tokens alternative, ¬ Segment.IsTooLarge token) ∧
      parse parentEnvironment parentPattern =
        .error ⟨parentPattern, .unsupportedNavigation ".."⟩ ∧
      ∃ alternative ∈ textsIn parentEnvironment parentPattern, ¬ Alternative.IsLiteral alternative ∧
        ∃ token ∈ Alternative.tokens alternative, Segment.IsMalformed token := by
  have htexts : textsIn parentEnvironment parentPattern =
      [['/', 'a', '.', 'b'], ['x', '/', '.', '.']] := by decide +kernel
  have htokens : Alternative.tokens ['x', '/', '.', '.'] = [['x'], ['.', '.']] := by decide +kernel
  have hname : Segment.parse ['x'] = .ok (.component ⟨"x", [.char 'x']⟩) := by decide +kernel
  have hup : Segment.parse ['.', '.'] = .error (.unsupportedNavigation "..") := by decide +kernel
  have hliteral : Alternative.IsLiteral ['/', 'a', '.', 'b'] :=
    Alternative.isLiteral_iff.1 (by decide)
  have hsteps : ¬ Alternative.IsLiteral ['x', '/', '.', '.'] :=
    mt Alternative.isLiteral_iff.2 (by decide)
  have hne : textsIn parentEnvironment parentPattern ≠ [] := by simp [htexts]
  have hsmall : ∀ alternative ∈ textsIn parentEnvironment parentPattern,
      ¬ Alternative.IsLiteral alternative →
        ∀ token ∈ Alternative.tokens alternative, ¬ Segment.IsTooLarge token := by
    rw [htexts]
    intro alternative halternative hnot token htoken hlarge
    have hparse := Segment.parse_eq_error_iff.2 (.tooLarge hlarge)
    obtain rfl | rfl : alternative = _ ∨ alternative = _ := by simpa using halternative
    · exact hnot hliteral
    · rw [htokens] at htoken
      obtain rfl | rfl : token = _ ∨ token = _ := by simpa using htoken
      · simp [hname] at hparse
      · simp [hup] at hparse
  obtain ⟨-, hgrammar, -⟩ := parse_follows_grammar parentEnvironment parentPattern
  obtain ⟨herror, hmalformed⟩ := hgrammar hne
  have hparse : parse parentEnvironment parentPattern =
      .error ⟨parentPattern, .unsupportedNavigation ".."⟩ := by
    -- the literal path has no fault, and the first token behind it has none either
    refine (herror _).2 ⟨rfl, [_], _, [], htexts, ?_, hsteps, [_], _, [], htokens, ?_, ?_⟩
    · simp [Alternative.HasFault, hliteral]
    · simp [← Segment.parse_eq_error_iff, hname]
    · exact Segment.parse_eq_error_iff.1 hup
  exact ⟨hne, hsmall, hparse, (hmalformed hsmall).1 ⟨_, hparse⟩⟩

end Glob

end PathPatterns
