import PathPatterns.Proofs.Matching.Fragment

/-!
# Matching a path

The expression of an alternative matches up to the end of a path exactly if the path fits the
alternative, and the expression of a glob is a choice between those of its alternatives.

## Main results

* `exists_spans_fragment_iff`: the expression of an alternative against what fits it.
* `isMatch_iff_of_parse`: a pattern matches the paths that fit one of its alternatives.
-/

namespace PathPatterns

namespace Segment

/-- What matches the start of a text or a separator ends at a boundary of components, and at each of
them something that does ends. -/
theorem exists_spans_boundary_iff {text : List Char} {P : List Char → Prop} :
    (∃ i j, i ≤ text.length ∧ j ≤ text.length ∧
        (Regex.group (.alt .start Component.separatorRegex)).Spans text i j ∧ P (text.drop j)) ↔
      ∃ before after, text = before ++ after ∧ Path.AtBoundary before ∧ P after := by
  simp only [Regex.Spans.group_iff, Regex.Spans.alt_iff, Regex.Spans.start_iff,
    Component.spans_separatorRegex_iff]
  refine ⟨?_, ?_⟩
  · rintro ⟨i, j, -, -, ⟨rfl, rfl⟩ | ⟨hsep, rfl⟩, hP⟩
    · exact ⟨[], text, rfl, Path.atBoundary_nil, hP⟩
    · obtain ⟨before, c, after, htext, hc, hP⟩ := Component.exists_separator_iff.1 ⟨i, hsep, hP⟩
      exact ⟨before ++ [c], after, by simp [htext], Path.atBoundary_append_singleton.2 hc, hP⟩
  · rintro ⟨before, after, htext, hb, hP⟩
    rcases Path.atBoundary_iff.1 hb with rfl | ⟨before, c, rfl, hc⟩
    · exact ⟨0, 0, Nat.zero_le _, Nat.zero_le _, .inl ⟨rfl, rfl⟩, by rwa [htext]⟩
    · have htext : text = before ++ c :: after := by simpa using htext
      obtain ⟨i, hsep, hP⟩ :=
        Component.exists_separator_iff.2 ⟨before, c, after, htext, hc, hP⟩
      -- the separator is a character of the text, so its end is a position
      obtain ⟨d, hd, -⟩ := id hsep
      have hi := (List.getElem?_eq_some_iff.1 hd).1
      exact ⟨i, i + 1, Nat.le_of_lt hi, hi, .inr ⟨hsep, rfl⟩, hP⟩

/-- A match of segments begins at the start of the text if they satisfy `isAnchored`, and else at
any boundary of components. -/
theorem exists_spans_anchor_iff {segments : List Segment} {text : List Char}
    {P : List Char → Prop} :
    (∃ i j, i ≤ text.length ∧ j ≤ text.length ∧ (anchor segments).Spans text i j ∧
        P (text.drop j)) ↔
      if isAnchored segments then P text
      else ∃ before after, text = before ++ after ∧ Path.AtBoundary before ∧ P after := by
  have hstart : (∃ i j, i ≤ text.length ∧ j ≤ text.length ∧ Regex.start.Spans text i j ∧
      P (text.drop j)) ↔ P text := by
    simp [Regex.Spans.start_iff, and_assoc]
  unfold anchor isAnchored
  split
  · simpa using hstart
  · simpa using hstart
  · simpa using exists_spans_boundary_iff

end Segment

namespace Alternative

theorem anchorFree_literalChar (c : Char) : (literalChar c).AnchorFree := by
  unfold literalChar
  split <;> exact trivial

/-- In a normalized path the expression of `/` stands for either separator, and that of any other
character for itself. -/
theorem mem_language_literalChar_iff {c : Char} (hc : Path.normalizeChar c = c)
    {word : List Char} :
    word ∈ (literalChar c).language ↔ ∃ d, word = [d] ∧ Path.normalizeChar d = c := by
  by_cases hsep : Path.isSeparator c = true
  · -- the separator of a normalized path is the one that all are turned into
    rw [literalChar, if_pos hsep, Component.mem_language_separatorRegex]
    refine exists_congr fun d => and_congr_right fun _ => ?_
    refine ⟨fun hd => ?_, fun hd => ?_⟩
    · rw [← hc, Path.normalizeChar, Path.normalizeChar, if_pos hd, if_pos hsep]
    · rw [← Path.isSeparator_normalizeChar, hd, hsep]
  · rw [literalChar, if_neg hsep, Regex.mem_language_char]
    refine ⟨?_, ?_⟩
    · rintro rfl
      exact ⟨c, rfl, hc⟩
    · rintro ⟨d, rfl, hd⟩
      have hnot : Path.isSeparator d ≠ true := by
        rwa [← Path.isSeparator_normalizeChar, hd]
      rw [← hd, Path.normalizeChar, if_neg hnot]

/-- The words of the expression of a normalized path are the ways to write it: the texts that
`normalizeChar` takes to it. -/
theorem mem_language_literal_iff {path word : List Char}
    (hpath : path.map Path.normalizeChar = path) :
    word ∈ (Regex.concat (path.map literalChar)).language ↔
      word.map Path.normalizeChar = path := by
  induction path generalizing word with
  | nil => simp
  | cons c path ih =>
    obtain ⟨hc, hpath⟩ := List.cons.inj hpath
    rw [List.map_cons, Regex.concat_cons, Regex.language_seq, Language.mem_mul,
      List.map_eq_cons_iff]
    simp only [mem_language_literalChar_iff hc, ih hpath]
    refine ⟨?_, ?_⟩
    · rintro ⟨_, ⟨d, rfl, hd⟩, rest, hrest, rfl⟩
      exact ⟨d, rest, rfl, hd, hrest⟩
    · rintro ⟨d, rest, rfl, hd, hrest⟩
      exact ⟨[d], ⟨d, rfl, hd⟩, rest, hrest, rfl⟩

variable {alternative : Alternative} {path : String}

/-- The expression of a `literal` path matches the ways to write it, from the start of a text on. -/
theorem exists_spans_literal_iff {text : String} (h : (literal text).WellFormed) :
    (∃ i, i ≤ path.toList.length ∧
        (literal text).fragment.Spans path.toList i path.toList.length) ↔
      (literal text).Fits path := by
  have htext : text.toList.map Path.normalizeChar = text.toList := by
    rw [← Path.toList_normalize, show Path.normalize text = text from h]
  have hfree : (Regex.concat (text.toList.map literalChar)).AnchorFree := by
    apply Regex.anchorFree_concat
    intro part hpart
    obtain ⟨c, -, rfl⟩ := List.mem_map.1 hpart
    exact anchorFree_literalChar c
  have hspans := Regex.spans_length_iff hfree (Nat.zero_le path.toList.length)
  rw [List.drop_zero, mem_language_literal_iff htext] at hspans
  simp only [fragment, Regex.Spans.seq_iff, Regex.Spans.start_iff, Fits]
  rw [← String.toList_inj, Path.toList_normalize, ← hspans]
  refine ⟨?_, ?_⟩
  · rintro ⟨_, -, _, ⟨rfl, rfl⟩, hs⟩
    exact hs
  · intro hs
    exact ⟨0, Nat.zero_le _, 0, ⟨rfl, rfl⟩, hs⟩

/-- The `fragment` of some segments matches where they begin to take components up to the end of the
path. -/
theorem exists_spans_steps_iff {segments : List Segment} (h : (steps segments).WellFormed) :
    (∃ i, i ≤ path.toList.length ∧
        (steps segments).fragment.Spans path.toList i path.toList.length) ↔
      (steps segments).Fits path := by
  have hfree : (Regex.concat (Segment.fragmentParts true segments)).AnchorFree :=
    Regex.anchorFree_concat Segment.anchorFree_fragmentParts
  -- behind the anchor a component is open, and what is left of the path has to be a word
  have hwords : (∃ i, i ≤ path.toList.length ∧
      (steps segments).fragment.Spans path.toList i path.toList.length) ↔
        ∃ i j, i ≤ path.toList.length ∧ j ≤ path.toList.length ∧
          (Segment.anchor segments).Spans path.toList i j ∧
            Segment.TakeToEnd true segments (Path.components (path.toList.drop j)) := by
    simp only [fragment, Regex.Spans.seq_iff]
    apply exists_congr
    intro i
    refine ⟨?_, ?_⟩
    · rintro ⟨hi, j, hanchor, hs⟩
      have hj : j ≤ path.toList.length := hs.le_and_le_length.1
      rw [Regex.spans_length_iff hfree hj,
        Segment.mem_language_fragmentParts_of_wellFormed h] at hs
      exact ⟨j, hi, hj, hanchor, hs⟩
    · rintro ⟨j, hi, hj, hanchor, hs⟩
      refine ⟨hi, j, hanchor, ?_⟩
      rwa [Regex.spans_length_iff hfree hj,
        Segment.mem_language_fragmentParts_of_wellFormed h]
  rw [hwords, Segment.exists_spans_anchor_iff
    (P := fun text => Segment.TakeToEnd true segments (Path.components text)), Fits]
  split
  · rfl
  · -- the components behind a boundary are the last ones of the path
    refine ⟨?_, ?_⟩
    · rintro ⟨before, after, htext, hb, htake⟩
      obtain ⟨-, front, hfront⟩ := Path.exists_boundary_iff.1 ⟨before, after, htext, hb, rfl⟩
      exact ⟨front, _, hfront, htake⟩
    · rintro ⟨front, back, hfront, htake⟩
      obtain ⟨before, after, htext, hb, rfl⟩ :=
        Path.exists_boundary_iff.2 ⟨Segment.ne_nil_of_takeToEnd htake, front, hfront⟩
      exact ⟨before, after, htext, hb, htake⟩

/-- The expression of a well-formed alternative matches up to the end of a path exactly if the path
`Fits` the alternative. -/
theorem exists_spans_fragment_iff (h : alternative.WellFormed) :
    (∃ i, i ≤ path.toList.length ∧
        alternative.fragment.Spans path.toList i path.toList.length) ↔
      alternative.Fits path := by
  cases alternative with
  | literal text => exact exists_spans_literal_iff h
  | steps segments => exact exists_spans_steps_iff h

end Alternative

namespace Glob

/-- A well-formed glob whose expression compiles (`hcompiles`) matches exactly the paths that fit
one of its alternatives. -/
theorem isMatch_iff_exists_fits {glob : Glob} (h : glob.WellFormed)
    (hcompiles : glob.uncheckedRegex.compiles = true) {path : String} :
    glob.isMatch path = true ↔ ∃ alternative ∈ glob.alternatives, alternative.Fits path := by
  rw [isMatch, regex, if_pos hcompiles]
  simp only [Regex.isMatch_iff, uncheckedRegex, Regex.Spans.seq_iff, Regex.Spans.group_iff,
    Regex.Spans.stop_iff]
  have hne : glob.alternatives.map Alternative.fragment ≠ [] := by
    simpa using h.1
  simp only [Regex.spans_union_iff hne]
  refine ⟨?_, ?_⟩
  · rintro ⟨i, _, hi, _, ⟨_, hfragment, hs⟩, rfl, rfl⟩
    obtain ⟨alternative, hmem, rfl⟩ := List.mem_map.1 hfragment
    exact ⟨alternative, hmem,
      (Alternative.exists_spans_fragment_iff (h.2 alternative hmem)).1 ⟨i, hi, hs⟩⟩
  · rintro ⟨alternative, hmem, hfits⟩
    obtain ⟨i, hi, hs⟩ := (Alternative.exists_spans_fragment_iff (h.2 alternative hmem)).2 hfits
    exact ⟨i, _, hi, _, ⟨_, List.mem_map_of_mem hmem, hs⟩, rfl, rfl⟩

/-- A pattern that `Glob.parse` has read, and whose expression compiles, matches exactly the paths
whose components fit one of its alternatives. -/
theorem isMatch_iff_of_parse {env : Environment} {text : String} {glob : Glob}
    (hparse : parse env text = .ok glob) (hcompiles : glob.uncheckedRegex.compiles = true)
    (path : String) :
    glob.isMatch path = true ↔ ∃ alternative ∈ glob.alternatives, alternative.Fits path :=
  isMatch_iff_exists_fits (wellFormed_of_parse hparse) hcompiles

/-- The directories in any directory `src`. -/
def sourceDirectories : Glob where
  text := "src/*"
  alternatives :=
    [.steps [.component ⟨"src", [.char 's', .char 'r', .char 'c']⟩, .anyDirectory]]

/-- `src/*` is read as `sourceDirectories`, and by `isMatch_iff_of_parse` it matches a path that
goes on in front of `src`. -/
theorem isMatch_sourceDirectories :
    (parse .empty "src/*" = .ok sourceDirectories ∧
        sourceDirectories.uncheckedRegex.compiles = true) ∧
      sourceDirectories.isMatch "lib/src/app" = true := by
  have hparse : parse .empty "src/*" = .ok sourceDirectories := by decide +kernel
  have hcompiles : sourceDirectories.uncheckedRegex.compiles = true := by decide +kernel
  refine ⟨⟨hparse, hcompiles⟩, (isMatch_iff_of_parse hparse hcompiles "lib/src/app").2 ?_⟩
  have hsource : Component.Accepts ⟨"src", [.char 's', .char 'r', .char 'c']⟩ ['s', 'r', 'c'] :=
    ⟨['s'], _, rfl, rfl, ['r'], _, rfl, rfl, ['c'], _, rfl, rfl, rfl⟩
  -- `lib` is in front of what the segments take
  refine ⟨_, List.mem_singleton_self _, [['l', 'i', 'b']], [['s', 'r', 'c'], ['a', 'p', 'p']],
    rfl, ?_⟩
  exact Segment.takeAll_cons_iff.2 ⟨[['s', 'r', 'c']], [['a', 'p', 'p']], rfl, ⟨_, rfl, hsource⟩,
    Segment.takeAll_singleton_iff.2 ⟨_, rfl, by decide⟩⟩

end Glob

end PathPatterns
