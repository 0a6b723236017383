import PathPatterns.Proofs.Grammar.Brackets
import PathPatterns.Proofs.Matching.Component
import PathPatterns.Proofs.Regex.Notation
import PathPatterns.Proofs.WellFormed

/-!
# What a token stands for

The names that a token stands for, told by the text of the token alone, next to the text of the
expression that the token is translated into. The translation is read back in the notation of
expressions, so nothing is taken for granted about what stands between brackets or has to be written
with a backslash.

## Main definitions

* `StandsFor`: a token, character by character, and a name that it stands for.

## Main results

* `standsFor_iff_acceptsAll`: a token stands for what its parts accept.
* `read_body`, `read_pathRegex`: the texts of a component are well formed, and are read as its
  expressions.
* `body_reads_token`: the words of the translation are the names that the token stands for, and a
  path is matched if it ends in a separator and one of them.
-/

namespace PathPatterns.Component

/-- The names that a token stands for, told by its characters. -/
inductive StandsFor : List Char → List Char → Prop
  /-- The empty token stands for the empty name. -/
  | nil : StandsFor [] []
  /-- `?` stands for one character that a wildcard stands for. -/
  | anyChar {c : Char} {token name : List Char} (hc : IsWild c) (rest : StandsFor token name) :
      StandsFor ('?' :: token) (c :: name)
  /-- `*` stands for any number of them. -/
  | anyRun {run token name : List Char} (hrun : ∀ c ∈ run, IsWild c)
      (rest : StandsFor token name) : StandsFor ('*' :: token) (run ++ name)
  /-- `[…]` stands for one of the characters between the brackets. -/
  | oneOf {c : Char} {members token name : List Char}
      (hmembers : ∀ d ∈ members, isBracket d = false) (hc : c ∈ members)
      (rest : StandsFor token name) : StandsFor ('[' :: (members ++ ']' :: token)) (c :: name)
  /-- Any other character stands for itself. -/
  | char {c : Char} {token name : List Char} (hc : Alternative.isWildcard c = false)
      (rest : StandsFor token name) : StandsFor (c :: token) (c :: name)

variable {component : Component} {token name : List Char} {pieces : List Piece} {piece : Piece}

/-! ## Tokens and parts -/

/-- A part that can stand in a component joins those behind it. -/
theorem Reads.cons (hpiece : piece.IsWritten) (h : Reads token pieces) :
    Reads (piece.text ++ token) (piece :: pieces) := by
  obtain ⟨rfl, hwritten⟩ := h
  exact ⟨List.flatMap_cons, List.forall_mem_cons.2 ⟨hpiece, hwritten⟩⟩

/-- A token that `StandsFor` a name is the text of parts that accept it. -/
theorem StandsFor.exists_reads (h : StandsFor token name) :
    ∃ pieces, Reads token pieces ∧ AcceptsAll pieces name := by
  induction h with
  | nil => exact ⟨[], reads_nil, rfl⟩
  | anyChar hc _ ih =>
    obtain ⟨pieces, hreads, haccepts⟩ := ih
    exact ⟨.anyChar :: pieces, .cons trivial hreads, _, _, rfl, ⟨_, rfl, hc⟩, haccepts⟩
  | anyRun hrun _ ih =>
    obtain ⟨pieces, hreads, haccepts⟩ := ih
    exact ⟨.anyRun :: pieces, .cons trivial hreads, _, _, rfl, hrun, haccepts⟩
  | @oneOf c members token _ hmembers hc _ ih =>
    obtain ⟨pieces, hreads, haccepts⟩ := ih
    have htext : '[' :: (members ++ ']' :: token) = (Piece.oneOf members).text ++ token := by
      simp [Piece.text]
    refine ⟨.oneOf members :: pieces, ?_, [c], _, rfl, ⟨c, hc, rfl⟩, haccepts⟩
    rw [htext]
    exact .cons ⟨List.ne_nil_of_mem hc, hmembers⟩ hreads
  | @char c _ _ hc _ ih =>
    obtain ⟨pieces, hreads, haccepts⟩ := ih
    exact ⟨.char c :: pieces, .cons hc hreads, [c], _, rfl, rfl, haccepts⟩

/-- The text of a part in front of a token stands for what the part accepts. -/
theorem StandsFor.text_append {front : List Char} (hpiece : piece.IsWritten)
    (haccepts : piece.Accepts front) (h : StandsFor token name) :
    StandsFor (piece.text ++ token) (front ++ name) := by
  cases piece with
  | char c =>
    obtain rfl : front = [c] := haccepts
    exact .char hpiece h
  | anyChar =>
    obtain ⟨c, rfl, hc⟩ := haccepts
    exact .anyChar hc h
  | anyRun => exact .anyRun haccepts h
  | oneOf members =>
    obtain ⟨c, hc, rfl⟩ := haccepts
    rw [Piece.text, List.append_assoc]
    exact .oneOf hpiece.2 hc h

/-- A token stands for the names that the parts of which it is the text accept one after the
other. -/
theorem standsFor_iff_acceptsAll (h : Reads token pieces) :
    StandsFor token name ↔ AcceptsAll pieces name := by
  constructor
  · intro hstands
    -- a token is read in one way
    obtain ⟨others, hreads, haccepts⟩ := hstands.exists_reads
    have hread := readPieces_of_reads h
    rw [readPieces_of_reads hreads] at hread
    rwa [← Except.ok.inj hread]
  · intro haccepts
    obtain ⟨rfl, hwritten⟩ := h
    induction pieces generalizing name with
    | nil =>
      obtain rfl : name = [] := haccepts
      exact .nil
    | cons piece pieces ih =>
      obtain ⟨hpiece, hpieces⟩ := List.forall_mem_cons.1 hwritten
      obtain ⟨first, rest, rfl, hfirst, hrest⟩ := haccepts
      exact .text_append hpiece hfirst (ih hrest hpieces)

/-! ## Texts of expressions -/

/-- The expression of a well-formed part is read back from its notation. -/
theorem readBack_regex (h : piece.WellFormed) : Regex.Notation.ReadBack piece.regex := by
  have hwild : Regex.Notation.ReadBack (.one Piece.wildcardClass) :=
    .one true (List.cons_ne_nil '/' ['\\', ':'])
  cases piece with
  | char c => exact .char c
  | anyChar => exact hwild
  | anyRun => exact hwild.star_one
  | oneOf members =>
    refine .group_union (by simpa using h.1) fun branch hbranch => ?_
    obtain ⟨c, -, rfl⟩ := List.mem_map.1 hbranch
    exact .char c

/-- The notation of expressions one after the other is that of each of them. -/
theorem written_concat (parts : List Regex) :
    (Regex.concat parts).written = parts.flatMap Regex.written := by
  induction parts with
  | nil => rfl
  | cons part parts ih => rw [Regex.concat_cons, Regex.written, ih, List.flatMap_cons]

/-- The expressions of all parts of a well-formed component are read back. -/
theorem readBack_of_mem_map (h : component.WellFormed) :
    ∀ part ∈ component.pieces.map Piece.regex, Regex.Notation.ReadBack part := by
  intro part hpart
  obtain ⟨piece, hpiece, rfl⟩ := List.mem_map.1 hpart
  exact readBack_regex (h piece hpiece)

/-- The `body` of a component is read as the expressions of its parts one after the other. -/
theorem read_body (h : component.WellFormed) :
    Regex.Notation.read component.body =
      some (Regex.sequence (component.pieces.map Piece.regex)) := by
  refine Regex.Notation.read_written (readBack_of_mem_map h) ?_
  rw [body, Regex.toList_render, regex, written_concat]

/-- The text of `pathRegex` is the `body` of the component between a separator and the end. -/
theorem render_pathRegex (component : Component) :
    component.pathRegex.render = "[/\\\\]" ++ component.body ++ "$" := by
  have hseparator : separatorRegex.written = "[/\\\\]".toList := by decide
  rw [← String.toList_inj, body]
  simp [pathRegex, Regex.written, hseparator]

/-- The text of `pathRegex` is read as a separator, the parts of the component and the end. -/
theorem read_pathRegex (h : component.WellFormed) :
    Regex.Notation.read component.pathRegex.render =
      some (Regex.sequence (separatorRegex :: component.pieces.map Piece.regex ++ [.stop])) := by
  refine Regex.Notation.read_written ?_ ?_
  · refine List.forall_mem_append.2 ⟨List.forall_mem_cons.2 ⟨?_, readBack_of_mem_map h⟩, ?_⟩
    · exact .one false (List.cons_ne_nil '/' ['\\'])
    · intro part hpart
      rw [List.mem_singleton.1 hpart]
      exact .stop
  · rw [Regex.toList_render, pathRegex, Regex.written, Regex.written, regex, written_concat]
    simp

/-- What is read from the text of `pathRegex` matches the same paths as the component. -/
theorem isMatch_sequence (component : Component) (path : String) :
    (Regex.sequence (separatorRegex :: component.pieces.map Piece.regex ++ [.stop])).isMatch path =
      component.matchesPath path := by
  rw [Bool.eq_iff_iff, matchesPath, Regex.isMatch_iff, Regex.isMatch_iff]
  simp only [Regex.spans_sequence_iff, pathRegex, List.cons_append, Regex.concat_cons,
    Regex.Spans.seq_iff, Regex.spans_concat_append_iff, regex, Regex.concat_nil,
    Regex.Spans.epsilon_iff, exists_eq_right']

/-- The `body` into which a token is translated is well formed, and matches the whole of a text
exactly if the token `StandsFor` it. With a separator in front of it and the end behind it, it
matches what `matchesPath` does: the paths that have a separator and for which the token stands for
what follows the last one. -/
theorem body_reads_token
    (hseparator : ∀ c ∈ component.source.toList, Path.isSeparator c = false)
    (hread : readPieces component.source.toList = .ok component.pieces) :
    (∃ r, Regex.Notation.read component.body = some r ∧ ∀ text : String,
        r.Spans text.toList 0 text.toList.length ↔
          StandsFor component.source.toList text.toList) ∧
      (∃ r, Regex.Notation.read ("[/\\\\]" ++ component.body ++ "$") = some r ∧
        ∀ path, r.isMatch path = component.matchesPath path) ∧
      ∀ path : String, component.matchesPath path = true ↔
        ∃ front c name, path.toList = front ++ c :: name ∧ Path.isSeparator c = true ∧
          (∀ d ∈ name, Path.isSeparator d = false) ∧ StandsFor component.source.toList name := by
  have hwf : component.WellFormed :=
    wellFormed_of_readFrom hseparator (by simp) (by simp) hread
  have hstands : ∀ name, StandsFor component.source.toList name ↔ component.Accepts name :=
    fun name => standsFor_iff_acceptsAll (readPieces_eq_ok_iff.1 hread)
  refine ⟨⟨_, read_body hwf, fun text => ?_⟩, ⟨_, ?_, isMatch_sequence component⟩, fun path => ?_⟩
  · -- the body has no anchor, so it spans the text if the text is one of its words
    rw [Regex.spans_sequence_iff, ← regex,
      Regex.spans_length_iff component.anchorFree_regex (Nat.zero_le _), List.drop_zero,
      mem_language_regex_iff hwf, hstands]
  · rw [← render_pathRegex, read_pathRegex hwf]
  · rw [matchesPath_iff_exists_separator hwf]
    simp only [hstands]
    -- no piece takes a separator, so the one in front of the name is the last
    constructor
    · rintro ⟨front, c, name, hpath, hc, haccepts⟩
      exact ⟨front, c, name, hpath, hc, haccepts.not_separator hwf, haccepts⟩
    · rintro ⟨front, c, name, hpath, hc, -, haccepts⟩
      exact ⟨front, c, name, hpath, hc, haccepts⟩

/-- A component with every kind of part; a star and a hyphen are among the members of its class. -/
def starredClass : Component :=
  ⟨"a?[*-]*.", [.char 'a', .anyChar, .oneOf ['*', '-'], .anyRun, .char '.']⟩

/-- The hypotheses of `body_reads_token` hold of `starredClass`, whose body escapes the members of
the class, and which matches a path. -/
theorem starredClass_matches :
    (∀ c ∈ starredClass.source.toList, Path.isSeparator c = false) ∧
      readPieces starredClass.source.toList = .ok starredClass.pieces ∧
      starredClass.body = "a[^/\\\\:](?:\\*|\\-)[^/\\\\:]*\\." ∧
      starredClass.matchesPath "/x\\ab-cd." = true := by
  have hseparator : ∀ c ∈ starredClass.source.toList, Path.isSeparator c = false := by
    simp [starredClass, Path.isSeparator]
  have hread : readPieces starredClass.source.toList = .ok starredClass.pieces := by decide +kernel
  have hbody : starredClass.body = "a[^/\\\\:](?:\\*|\\-)[^/\\\\:]*\\." := by
    rw [← String.toList_inj, body, Regex.toList_render]
    rfl
  refine ⟨hseparator, hread, hbody, ?_⟩
  obtain ⟨-, -, hpaths⟩ := body_reads_token hseparator hread
  have hwild : IsWild 'b' := by simp [IsWild]
  have hmembers : ∀ c ∈ ['*', '-'], isBracket c = false := by simp [isBracket]
  have hrun : ∀ c ∈ ['c', 'd'], IsWild c := by simp [IsWild]
  -- piece by piece: `a`, any character, one of the class, a run of two, and the dot
  have htoken : StandsFor starredClass.source.toList ['a', 'b', '-', 'c', 'd', '.'] :=
    .char rfl (.anyChar hwild (.oneOf hmembers (by simp) (.anyRun hrun (.char rfl .nil))))
  have hname : ∀ c ∈ ['a', 'b', '-', 'c', 'd', '.'], Path.isSeparator c = false := by
    simp [Path.isSeparator]
  exact (hpaths _).2 ⟨['/', 'x'], '\\', ['a', 'b', '-', 'c', 'd', '.'], rfl, rfl, hname, htoken⟩

end PathPatterns.Component
