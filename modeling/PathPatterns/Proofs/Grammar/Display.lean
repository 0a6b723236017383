import PathPatterns.Proofs.Grammar.Normalized
import PathPatterns.Proofs.Grammar.Patterns

/-!
# Displayed alternatives

The text that shows an alternative is read into that alternative. A segment is shown as the token
that it was read from, up to the letter of a drive, so that joined with separators the tokens stay
the same, and what was no literal path is shown with the wildcard or without the separator that kept
it from being one. A literal path is shown normalized.

## Main results

* `Segment.readsAs_display`: a segment is read from the text that shows it.
* `Alternative.readsAs_display`: so is an alternative.
* `Glob.parse_display`: a pattern that shows an alternative is read into it alone.
-/

namespace PathPatterns

open PathPatterns.Path

/-! ## Segments -/

namespace Segment

variable {token : List Char} {segment : Segment} {c : Char}

/-- A segment is shown as the token that it `ReadsAs`, but a drive by a capital letter. -/
theorem display_of_readsAs (h : segment.ReadsAs token) :
    segment.display.toList = token ∨
      ∃ written, written.isAlpha = true ∧ token = [written, ':'] ∧
        segment.display.toList = [written.toUpper, ':'] := by
  cases segment with
  | root => exact h.elim
  | device letter =>
    obtain ⟨written, rfl, halpha, rfl⟩ := h
    exact .inr ⟨written, halpha, rfl, by simp [display]⟩
  | component c => exact .inl (by rw [display, h.2.1, String.toList_ofList])
  | anyDirectory => exact .inl (Eq.symm h)
  | recursive => exact .inl (Eq.symm h)

/-- A segment is read from the text that `display` shows, too. -/
theorem readsAs_display (h : segment.ReadsAs token) :
    segment.ReadsAs segment.display.toList := by
  cases segment with
  | root => exact h.elim
  | device letter =>
    obtain ⟨written, -, halpha, rfl⟩ := h
    obtain ⟨-, hletter, hcapital⟩ := toUpper_of_isAlpha halpha
    exact ⟨written.toUpper, by simp [display], hletter, hcapital.symm⟩
  | component c =>
    have hsource : c.source.toList = token := by rw [h.2.1, String.toList_ofList]
    rwa [display, hsource]
  | anyDirectory => rfl
  | recursive => rfl

/-- No character but a letter is lost or added where a segment is shown. -/
theorem mem_display_iff (h : segment.ReadsAs token) (hc : c.isAlpha = false) :
    c ∈ segment.display.toList ↔ c ∈ token := by
  obtain hdisplay | ⟨written, halpha, rfl, hdisplay⟩ := display_of_readsAs h
  · rw [hdisplay]
  · have hcapital := (toUpper_of_isAlpha halpha).2.1
    have hne : c ≠ written := fun heq => by simp [heq, halpha] at hc
    have hneCapital : c ≠ written.toUpper := fun heq => by simp [heq, hcapital] at hc
    simp [hdisplay, hne, hneCapital]

/-- A segment is shown by a text that is not empty, so the text is a token. -/
theorem display_ne_nil (h : segment.ReadsAs token) (hne : token ≠ []) :
    segment.display.toList ≠ [] := by
  obtain hdisplay | ⟨written, -, -, hdisplay⟩ := display_of_readsAs h
  · rwa [hdisplay]
  · simp [hdisplay]

end Segment

/-! ## Alternatives -/

namespace Alternative

variable {text : List Char} {alternative : Alternative} {segments read : List Segment} {c : Char}

/-- A wildcard is neither a separator nor a letter, so showing a text keeps it. -/
theorem not_separator_and_not_alpha_of_isWildcard (h : isWildcard c = true) :
    isSeparator c = false ∧ c.isAlpha = false := by
  simp only [isWildcard, Bool.or_eq_true, beq_iff_eq] at h
  rcases h with ((rfl | rfl) | rfl) | rfl <;> decide

/-- Every token of a text satisfies `IsName`: it is not empty and holds no separator. -/
theorem isName_of_mem_tokens {token : List Char} (h : token ∈ tokens text) : IsName token := by
  obtain ⟨hmem, hne⟩ := List.mem_filter.1 h
  exact isName_of_mem_components hmem (by simpa using hne)

/-- A character that is no separator is in a token exactly if it is in the text. -/
theorem exists_mem_tokens_iff (hc : isSeparator c = false) :
    (∃ token ∈ tokens text, c ∈ token) ↔ c ∈ text := by
  rw [← exists_mem_pieces_iff hc, ← components]
  constructor
  · rintro ⟨token, htoken, hmem⟩
    exact ⟨token, (List.mem_filter.1 htoken).1, hmem⟩
  · rintro ⟨token, htoken, hmem⟩
    have hne : token ≠ [] := List.ne_nil_of_mem hmem
    exact ⟨token, List.mem_filter.2 ⟨htoken, by simpa using hne⟩, hmem⟩

/-- A text of which `IsLiteral` does not hold has a token: it starts with one, or holds a
wildcard. -/
theorem tokens_ne_nil (hne : text ≠ []) (h : ¬ IsLiteral text) : tokens text ≠ [] := by
  obtain ⟨c, hc, hsep⟩ : ∃ c ∈ text, isSeparator c = false := by
    obtain ⟨first, rest, rfl⟩ := List.exists_cons_of_ne_nil hne
    cases hfirst : isSeparator first with
    | false => exact ⟨first, by simp, hfirst⟩
    | true =>
      obtain ⟨c, hc, hwildcard⟩ : ∃ c ∈ first :: rest, isWildcard c = true := by
        by_contra hnone
        exact h ⟨by simpa using hfirst, by simpa using hnone⟩
      exact ⟨c, hc, (not_separator_and_not_alpha_of_isWildcard hwildcard).1⟩
  obtain ⟨token, htoken, -⟩ := (exists_mem_tokens_iff hsep).2 hc
  exact List.ne_nil_of_mem htoken

/-- Segments other than the root alone are shown with `/` between their texts. -/
theorem toList_display_steps (h : segments ≠ [.root]) :
    (steps segments).display.toList =
      ['/'].intercalate (segments.map fun segment => segment.display.toList) := by
  unfold display
  split
  · rename_i heq
    exact nomatch heq
  · rename_i heq
    exact absurd (steps.inj heq) h
  · rename_i other _ heq
    rw [steps.inj heq, String.toList_intercalate, List.map_map]
    rfl

/-- Whether the root is read depends only on whether the text starts with a separator. -/
theorem leading_congr {other : List Char}
    (h : text.head?.any isSeparator = other.head?.any isSeparator) :
    leading text = leading other := by
  rw [leading, leading, h]

/-! ### Displayed segments -/

section Steps

variable (hne : text ≠ []) (hnot : ¬ IsLiteral text)
  (hread : List.Forall₂ (fun token segment => segment.ReadsAs token) (tokens text) read)

include hread

/-- The texts that show the segments of tokens satisfy `IsName`. -/
theorem isName_display : ∀ segment ∈ read, IsName segment.display.toList := by
  intro segment hsegment
  obtain ⟨token, htoken, hreads⟩ := exists_of_mem_of_forall₂ hread hsegment
  obtain ⟨hne, hseparators⟩ := isName_of_mem_tokens htoken
  refine ⟨Segment.display_ne_nil hreads hne, fun c hc => ?_⟩
  cases halpha : c.isAlpha with
  | true => exact not_separator_of_isAlpha halpha
  | false => exact hseparators c ((Segment.mem_display_iff hreads halpha).1 hc)

include hne hnot

theorem read_ne_nil : read ≠ [] := by
  rintro rfl
  exact tokens_ne_nil hne hnot (List.forall₂_nil_right_iff.1 hread)

/-- The `components` of the text that shows segments are the texts that show each of them, an empty
one for the root. -/
theorem components_display :
    components (steps (leading text ++ read)).display.toList =
      (leading text ++ read).map fun segment => segment.display.toList := by
  have hnames := isName_display hread
  have hsegments : leading text ++ read ≠ [.root] := by
    intro heq
    unfold leading at heq
    split at heq
    · exact read_ne_nil hne hnot hread (List.cons.inj heq).2
    · exact (hnames .root (by rw [show read = [.root] from heq]; simp)).1 rfl
  rw [toList_display_steps hsegments]
  refine pieces_intercalate rfl (by simp [read_ne_nil hne hnot hread]) ?_
  intro part hpart
  obtain ⟨segment, hsegment, rfl⟩ := List.mem_map.1 hpart
  rcases List.mem_append.1 hsegment with hleading | hsegment
  · -- the root is shown by the separator behind it
    obtain rfl : segment = .root := by
      unfold leading at hleading
      split at hleading
      · exact List.mem_singleton.1 hleading
      · simp at hleading
    simp [Segment.display]
  · exact (hnames segment hsegment).2

/-- The `tokens` of the text that shows segments are the texts that show the segments behind the
root. -/
theorem tokens_display :
    tokens (steps (leading text ++ read)).display.toList =
      read.map fun segment => segment.display.toList := by
  have hleading : ((leading text).map fun segment => segment.display.toList).filter
      (fun token => !token.isEmpty) = [] := by
    unfold leading
    split <;> simp [Segment.display]
  rw [tokens, components_display hne hnot hread, List.map_append, List.filter_append, hleading,
    List.nil_append, List.filter_eq_self]
  intro token htoken
  obtain ⟨segment, hsegment, rfl⟩ := List.mem_map.1 htoken
  simpa using (isName_display hread segment hsegment).1

theorem display_ne_nil : (steps (leading text ++ read)).display.toList ≠ [] := by
  intro hnil
  have htokens := tokens_display hne hnot hread
  rw [hnil] at htokens
  exact read_ne_nil hne hnot hread (List.map_eq_nil_iff.1 htokens.symm)

/-- The text that shows segments starts with a separator exactly if the one that they are read from
does. -/
theorem head?_any_display :
    (steps (leading text ++ read)).display.toList.head?.any isSeparator =
      text.head?.any isSeparator := by
  obtain ⟨first, rest, hfirst⟩ := List.exists_cons_of_ne_nil (read_ne_nil hne hnot hread)
  have hname := isName_display hread first (by simp [hfirst])
  rw [Bool.eq_iff_iff, ← head?_components_eq_iff (display_ne_nil hne hnot hread),
    components_display hne hnot hread, leading]
  split
  · rename_i hsep
    simp [hsep, Segment.display]
  · rename_i hsep
    simp [hsep, hfirst, hname.1]

/-- No character but letters and separators is lost or added where segments are shown. -/
theorem mem_display_iff (halpha : c.isAlpha = false) (hsep : isSeparator c = false) :
    c ∈ (steps (leading text ++ read)).display.toList ↔ c ∈ text := by
  rw [← exists_mem_tokens_iff hsep, ← exists_mem_tokens_iff hsep, tokens_display hne hnot hread]
  constructor
  · rintro ⟨_, htoken, hc⟩
    obtain ⟨segment, hsegment, rfl⟩ := List.mem_map.1 htoken
    obtain ⟨token, htoken, hreads⟩ := exists_of_mem_of_forall₂ hread hsegment
    exact ⟨token, htoken, (Segment.mem_display_iff hreads halpha).1 hc⟩
  · rintro ⟨token, htoken, hc⟩
    have hflip : List.Forall₂ (fun segment token => Segment.ReadsAs token segment) read
        (tokens text) := hread.flip
    obtain ⟨segment, hsegment, hreads⟩ := exists_of_mem_of_forall₂ hflip htoken
    exact ⟨_, List.mem_map_of_mem hsegment, (Segment.mem_display_iff hreads halpha).2 hc⟩

end Steps

/-- A character that is neither a letter nor a separator, and is not in the text of an alternative,
is not in what shows the alternative. -/
theorem not_mem_display (hne : text ≠ []) (h : alternative.ReadsAs text)
    (halpha : c.isAlpha = false) (hsep : isSeparator c = false) (hc : c ∉ text) :
    c ∉ alternative.display.toList := by
  cases alternative with
  | literal path =>
    obtain ⟨-, rfl⟩ := h
    rw [display, toList_normalize, String.toList_ofList]
    intro hmem
    obtain ⟨d, hd, rfl⟩ := List.mem_map.1 hmem
    rw [isSeparator_normalizeChar] at hsep
    rw [normalizeChar_of_not_separator hsep] at hc
    exact hc hd
  | steps segments =>
    obtain ⟨hnot, read, hread, rfl⟩ := h
    rwa [mem_display_iff hne hnot hread halpha hsep]

/-- An alternative is read from the text that `display` shows, too, and that text is not empty. -/
theorem readsAs_display (hne : text ≠ []) (h : alternative.ReadsAs text) :
    alternative.display.toList ≠ [] ∧ alternative.ReadsAs alternative.display.toList := by
  cases alternative with
  | literal path =>
    have hdisplay : (literal path).display.toList = text.map normalizeChar := by
      rw [display, h.2, toList_normalize, String.toList_ofList]
    have hmap : text.map normalizeChar ≠ [] := by simpa using hne
    -- a literal path is shown normalized, which does not change how it is read
    rw [hdisplay, ← parse_eq_ok_iff hmap, parse_map_normalizeChar, parse_eq_ok_iff hne]
    exact ⟨hmap, h⟩
  | steps segments =>
    obtain ⟨hnot, read, hread, rfl⟩ := h
    have hhead := head?_any_display hne hnot hread
    refine ⟨display_ne_nil hne hnot hread, ?_, read, ?_, ?_⟩
    · -- the wildcards that kept the text from being a literal path are still there
      rintro ⟨hsep, hwildcards⟩
      refine hnot ⟨hhead ▸ hsep, fun c hc => ?_⟩
      by_contra hwildcard
      rw [Bool.not_eq_false] at hwildcard
      obtain ⟨hcsep, halpha⟩ := not_separator_and_not_alpha_of_isWildcard hwildcard
      have hshown := hwildcards c ((mem_display_iff hne hnot hread halpha hcsep).2 hc)
      rw [hwildcard] at hshown
      exact nomatch hshown
    · rw [tokens_display hne hnot hread, List.forall₂_map_left_iff, List.forall₂_same]
      intro segment hsegment
      obtain ⟨token, -, hreads⟩ := exists_of_mem_of_forall₂ hread hsegment
      exact Segment.readsAs_display hreads
    · rw [leading_congr hhead]

end Alternative

/-! ## Patterns -/

namespace Glob

/-- A pattern that shows an alternative of a `glob` is read into that alternative alone, in any
environment `unset` in which no variable has a value; so what it shows is shown again. The
environment in which the `glob` was read does not matter. -/
theorem parse_display {env unset : Environment} {text : String} {glob : Glob}
    (hparse : parse env text = .ok glob) (hunset : ∀ name, unset.value? name = none)
    {alternative : Alternative} (hmem : alternative ∈ glob.alternatives) :
    parse unset alternative.display = .ok ⟨alternative.display, [alternative]⟩ ∧
      ∀ again, parse unset alternative.display = .ok again →
        again.alternatives.map Alternative.display = [alternative.display] := by
  obtain ⟨-, hread⟩ := parse_eq_ok_iff.1 hparse
  obtain ⟨-, hforall⟩ := readAlternatives_eq_ok_iff_readsAs.1 hread
  obtain ⟨piece, hpiece, hreads⟩ := exists_of_mem_of_forall₂ hforall hmem
  have hne := ne_nil_of_mem_alternativeTexts hpiece
  obtain ⟨hdisplay, hshown⟩ := Alternative.readsAs_display hne hreads
  -- there is no semicolon in what is shown
  have hsemicolon : ';' ∉ alternative.display.toList := by
    apply Alternative.not_mem_display hne hreads (by decide) (by decide)
    intro hmem
    have hnot := not_delimiter_of_mem_pieces (List.mem_filter.1 hpiece).1 hmem
    simp at hnot
  have htexts : alternativeTexts alternative.display.toList = [alternative.display.toList] := by
    have hnone : ∀ c ∈ alternative.display.toList, (c == ';') = false :=
      fun c hc => beq_eq_false_iff_ne.2 fun heq => hsemicolon (heq ▸ hc)
    rw [alternativeTexts, pieces_of_forall_not hnone]
    exact List.filter_eq_self.2 (by simpa using hdisplay)
  have hagain : parse unset alternative.display = .ok ⟨alternative.display, [alternative]⟩ := by
    rw [parse_eq_ok_iff, Template.expand_eq_self hunset, readAlternatives_eq_ok_iff_readsAs, htexts]
    exact ⟨rfl, by simp, .cons hshown .nil⟩
  refine ⟨hagain, fun again hother => ?_⟩
  obtain rfl := Except.ok.inj (hagain.symm.trans hother)
  rfl

/-- A pattern with a drive, with separators of both kinds that stand side by side, and with a
literal path behind it. -/
def spelledPattern : String := "c:\\\\**//*.rs\\;\\a/b"

/-- The first alternative of `spelledPattern`. -/
def driveSources : Alternative :=
  .steps [.device 'C', .recursive, .component ⟨"*.rs", [.anyRun, .char '.', .char 'r', .char 's']⟩]

/-- Each alternative of `spelledPattern` is read from the text that shows it, as `parse_display`
says. -/
theorem parse_driveSources :
    parse .empty "C:/**/*.rs" = .ok ⟨"C:/**/*.rs", [driveSources]⟩ ∧
      parse .empty "/a/b" = .ok ⟨"/a/b", [.literal "/a/b"]⟩ := by
  have hparse : parse .empty spelledPattern =
      .ok ⟨spelledPattern, [driveSources, .literal "/a/b"]⟩ := by
    decide +kernel
  have hdisplay : driveSources.display = "C:/**/*.rs" := by decide +kernel
  obtain ⟨hsteps, -⟩ :=
    parse_display hparse Environment.value?_empty (List.mem_cons_self (a := driveSources))
  obtain ⟨hliteral, -⟩ := parse_display hparse Environment.value?_empty
    (List.mem_cons_of_mem driveSources (List.mem_singleton_self (Alternative.literal "/a/b")))
  rw [hdisplay] at hsteps
  exact ⟨hsteps, hliteral⟩

end Glob

end PathPatterns
