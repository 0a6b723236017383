import Mathlib.Data.List.DropRight
import Mathlib.Data.List.Induction
import PathPatterns.MemoryTree.Key
import PathPatterns.Proofs.Path.ByteOrder
import PathPatterns.Proofs.Path.Components

/-!
# Keys and the way up

What a key is for any text at all, and what is met on the way up from it. A key does not change when
its key is taken, nor by separators at its end. The way up leads through what stands in front of a
name, and that need not be a key: doubled separators leave one of them at its end.

## Main results

* `ofPath_ofPath`: a key is its own key.
* `mem_ancestors_iff`: what is met on the way up.
* `byteCount_lt_of_parent?`, `byteCount_lt_ofPath`: on the way up there are fewer bytes each time.
* `ofPath_of_mem_ancestors`: on the way up from a spaced path there are only keys.
* `ofPath_mem_ancestors`, `exists_not_mem_ancestors`: the keys of all paths above are met exactly if
  the path is spaced.
-/

namespace PathPatterns

namespace Path

variable {path front back : List Char} {c : Char}

/-! ## The end of a path -/

theorem trimEnd_append_of_separator (hc : isSeparator c = true) :
    trimEnd (path ++ [c]) = trimEnd path :=
  List.rdropWhile_concat_pos _ _ _ hc

theorem trimEnd_append_of_not_separator (hc : isSeparator c = false) :
    trimEnd (path ++ [c]) = path ++ [c] :=
  List.rdropWhile_concat_neg _ _ _ (by simp [hc])

@[simp]
theorem trimEnd_trimEnd (path : List Char) : trimEnd (trimEnd path) = trimEnd path :=
  List.rdropWhile_idempotent _ _

/-- Separators at the end of a path are trimmed, however many `back` holds. -/
theorem trimEnd_append_of_forall (h : ∀ c ∈ back, isSeparator c = true) :
    trimEnd (path ++ back) = trimEnd path := by
  induction back using List.reverseRecOn with
  | nil => rw [List.append_nil]
  | append_singleton back c ih =>
    obtain ⟨hback, hc⟩ := List.forall_mem_append.1 h
    rw [← List.append_assoc, trimEnd_append_of_separator (by simpa using hc), ih hback]

/-- What stands in front of another character than a separator is not trimmed. -/
theorem trimEnd_append_of_exists (h : ∃ c ∈ back, isSeparator c = false) :
    trimEnd (front ++ back) = front ++ trimEnd back := by
  induction back using List.reverseRecOn with
  | nil => simp at h
  | append_singleton back c ih =>
    rw [← List.append_assoc]
    cases hc : isSeparator c with
    | true =>
      rw [trimEnd_append_of_separator hc, trimEnd_append_of_separator hc, ih]
      obtain ⟨d, hd, hsep⟩ := h
      rcases List.mem_append.1 hd with hd | hd
      · exact ⟨d, hd, hsep⟩
      · rw [List.mem_singleton.1 hd, hc] at hsep
        contradiction
    | false => rw [trimEnd_append_of_not_separator hc, trimEnd_append_of_not_separator hc,
        List.append_assoc]

/-- A path is what `trimEnd` leaves of it with separators behind. -/
theorem exists_eq_trimEnd_append (path : List Char) :
    ∃ back, path = trimEnd path ++ back ∧ ∀ c ∈ back, isSeparator c = true :=
  ⟨path.rtakeWhile isSeparator, List.rdropWhile_append_rtakeWhile.symm,
    fun _ hc => List.mem_rtakeWhile_imp hc⟩

/-- Trimming and normalizing may change places, since `normalizeChar` keeps what separates. -/
theorem trimEnd_map_normalizeChar (path : List Char) :
    trimEnd (path.map normalizeChar) = (trimEnd path).map normalizeChar := by
  induction path using List.reverseRecOn with
  | nil => rfl
  | append_singleton path c ih =>
    rw [List.map_append, List.map_singleton]
    cases hc : isSeparator c with
    | true =>
      rw [trimEnd_append_of_separator (by simpa using hc), trimEnd_append_of_separator hc, ih]
    | false =>
      rw [trimEnd_append_of_not_separator (by simpa using hc), trimEnd_append_of_not_separator hc,
        List.map_append, List.map_singleton]

theorem map_normalizeChar_map (path : List Char) :
    (path.map normalizeChar).map normalizeChar = path.map normalizeChar := by
  simp

/-- Both separators have one byte, so `normalizeChar` does not change the number of bytes. -/
theorem byteCount_map_normalizeChar (text : List Char) :
    byteCount (text.map normalizeChar) = byteCount text := by
  induction text with
  | nil => rfl
  | cons c text ih =>
    have hsize : (normalizeChar c).utf8Size = c.utf8Size := apply_normalizeChar rfl c
    rw [List.map_cons, byteCount_cons, byteCount_cons, hsize, ih]

theorem byteCount_trimEnd_le (path : List Char) : byteCount (trimEnd path) ≤ byteCount path := by
  obtain ⟨back, hpath, -⟩ := exists_eq_trimEnd_append path
  calc byteCount (trimEnd path) ≤ byteCount (trimEnd path) + byteCount back := Nat.le_add_right _ _
    _ = byteCount path := by rw [← byteCount_append, ← hpath]

/-- Only a colon is written as a colon, so `normalizeChar` makes no drive. -/
theorem normalizeChar_eq_colon_iff : normalizeChar c = ':' ↔ c = ':' := by
  rw [normalizeChar]
  split
  · rename_i hc
    refine iff_of_false (by decide) ?_
    rintro rfl
    exact absurd hc (by decide)
  · rfl

end Path

namespace Key

open PathPatterns.Path

variable {path other front back above : List Char} {c d : Char}

/-! ## Keys -/

@[simp]
theorem trimEnd_closeRoot (path : List Char) : trimEnd (closeRoot path) = trimEnd path := by
  unfold closeRoot
  split
  · exact trimEnd_append_of_separator isSeparator_separator
  · rfl

/-- Whether `closeRoot` adds a separator does not depend on how the others are written. -/
theorem closeRoot_map_normalizeChar (path : List Char) :
    closeRoot (path.map normalizeChar) = (closeRoot path).map normalizeChar := by
  have hcolon : (path.map normalizeChar).getLast? = some ':' ↔ path.getLast? = some ':' := by
    rw [List.getLast?_map, Option.map_eq_some_iff]
    simp [normalizeChar_eq_colon_iff]
  simp only [closeRoot, List.map_eq_nil_iff, hcolon]
  split
  · rw [List.map_append]
    rfl
  · rfl

@[simp]
theorem ofPath_closeRoot (path : List Char) : ofPath (closeRoot path) = ofPath path := by
  rw [ofPath, ← closeRoot_map_normalizeChar, trimEnd_closeRoot]
  rfl

@[simp]
theorem ofPath_map_normalizeChar (path : List Char) :
    ofPath (path.map normalizeChar) = ofPath path := by
  rw [ofPath, map_normalizeChar_map]
  rfl

/-- A path has the same key without the separators at its end: `ofPath` does not see them. -/
@[simp]
theorem ofPath_trimEnd (path : List Char) : ofPath (trimEnd path) = ofPath path := by
  rw [ofPath, ← trimEnd_map_normalizeChar, trimEnd_trimEnd]
  rfl

/-- A key is the path without the separators at its end, up to the one that `closeRoot` puts
back. -/
@[simp]
theorem trimEnd_ofPath (path : List Char) :
    trimEnd (ofPath path) = (trimEnd path).map normalizeChar := by
  rw [ofPath, trimEnd_closeRoot, trimEnd_trimEnd, trimEnd_map_normalizeChar]

/-- A key is its own key: `ofPath` may be applied any number of times. -/
@[simp]
theorem ofPath_ofPath (path : List Char) : ofPath (ofPath path) = ofPath path := by
  show ofPath (closeRoot (trimEnd (path.map normalizeChar))) = ofPath path
  rw [ofPath_closeRoot, ofPath_trimEnd, ofPath_map_normalizeChar]

/-- Separators at the end of a path do not matter for its key, however many `back` holds. -/
theorem ofPath_append_of_forall (h : ∀ c ∈ back, isSeparator c = true) :
    ofPath (path ++ back) = ofPath path := by
  rw [← ofPath_trimEnd, trimEnd_append_of_forall h, ofPath_trimEnd]

/-- `closeRoot` adds nothing to a path that ends in a separator, since its last character is no
colon. -/
theorem closeRoot_append_of_separator (hc : isSeparator c = true) :
    closeRoot (path ++ [c]) = path ++ [c] := by
  rw [closeRoot, if_neg]
  rintro (hnil | hcolon)
  · simp at hnil
  · rw [List.getLast?_concat, Option.some_inj] at hcolon
    rw [hcolon] at hc
    exact absurd hc (by decide)

/-- A path that ends in a separator is its own key, once normalized, exactly if that separator makes
a root: it stands alone or behind a colon. -/
theorem closeRoot_append_eq_ofPath_iff (hc : isSeparator c = true) :
    closeRoot ((path ++ [c]).map normalizeChar) = ofPath (path ++ [c]) ↔
      path = [] ∨ path.getLast? = some ':' := by
  rw [ofPath, trimEnd_map_normalizeChar, closeRoot_map_normalizeChar, closeRoot_map_normalizeChar,
    trimEnd_append_of_separator hc, closeRoot_append_of_separator hc]
  refine ⟨fun h => ?_, fun h => ?_⟩
  · -- one separator can be put back, so no other was lost
    have hlength := congrArg List.length h
    have hclose := length_closeRoot_le (trimEnd path)
    have htrim := length_trimEnd_le path
    simp only [List.length_map, List.length_append, List.length_singleton] at hlength
    have hself : trimEnd path = path :=
      (List.rdropWhile_prefix (p := isSeparator) path).eq_of_length
        (show (trimEnd path).length = path.length by omega)
    by_contra hnot
    rw [hself, closeRoot, if_neg hnot] at hlength
    omega
  · have hself : trimEnd path = path := by
      rcases h with rfl | h
      · rfl
      · obtain ⟨before, rfl⟩ := List.getLast?_eq_some_iff.1 h
        exact trimEnd_append_of_not_separator rfl
    rw [hself, closeRoot, if_pos h, List.map_append, List.map_append, List.map_singleton,
      List.map_singleton, normalizeChar_of_separator hc]
    rfl

/-! ## The way up -/

/-- What stands in front of the separator before the last name is the `parent?`, closed as a
root. -/
theorem parent?_append_cons (hc : isSeparator c = true) (hd : isSeparator d = false) :
    parent? (path ++ [c] ++ [d]) = some (closeRoot path) := by
  rw [parent?, trimEnd_append_of_not_separator hd]
  simp [hc, hd]

theorem parent?_trimEnd (path : List Char) : parent? (trimEnd path) = parent? path := by
  rw [parent?, trimEnd_trimEnd]
  rfl

/-- A name has the same parent with one more character `d` at its end. -/
theorem parent?_append_append (hc : isSeparator c = false) (hd : isSeparator d = false) :
    parent? (path ++ [c] ++ [d]) = parent? (path ++ [c]) := by
  rw [parent?, parent?, trimEnd_append_of_not_separator hd, trimEnd_append_of_not_separator hc]
  simp [hc, hd]

/-- Paths with the same parent have the same way up. -/
theorem ancestors_congr (h : parent? path = parent? other) : ancestors path = ancestors other := by
  cases hparent : parent? other with
  | none =>
    rw [ancestors_of_parent?_eq_none hparent, ancestors_of_parent?_eq_none (h.trans hparent)]
  | some parent =>
    rw [ancestors_of_parent? hparent, ancestors_of_parent? (h.trans hparent)]

/-- Separators at the end of a path do not matter for the way up: only what `trimEnd` leaves
does. -/
theorem ancestors_of_trimEnd (h : trimEnd path = trimEnd other) :
    ancestors path = ancestors other :=
  ancestors_congr (by rw [parent?, h]; rfl)

/-- The way up from the key of a path is that from the path, with `normalizeChar` applied to its
separators. -/
theorem ancestors_ofPath (path : List Char) :
    ancestors (ofPath path) = ancestors (path.map normalizeChar) :=
  ancestors_of_trimEnd (by rw [trimEnd_ofPath, trimEnd_map_normalizeChar])

/-- In `path ++ [last]` a name begins behind a separator where one does in `path`, and at `last` if
the separator is the end of `path`. -/
theorem exists_name_append_singleton_iff {last : Char} {P : List Char → Prop} :
    (∃ front c d back, path ++ [last] = front ++ c :: d :: back ∧
        isSeparator c = true ∧ isSeparator d = false ∧ P front) ↔
      (∃ front c, path = front ++ [c] ∧ isSeparator c = true ∧ isSeparator last = false ∧
          P front) ∨
        ∃ front c d back, path = front ++ c :: d :: back ∧
          isSeparator c = true ∧ isSeparator d = false ∧ P front := by
  refine ⟨?_, ?_⟩
  · rintro ⟨front, c, d, back, hpath, hc, hd, hfront⟩
    cases back using List.reverseRecOn with
    | nil =>
      rw [show front ++ [c, d] = front ++ [c] ++ [d] by simp] at hpath
      obtain ⟨rfl, hlast⟩ := List.append_inj' hpath rfl
      obtain rfl : last = d := by simpa using hlast
      exact .inl ⟨front, c, rfl, hc, hd, hfront⟩
    | append_singleton back other =>
      rw [show front ++ c :: d :: (back ++ [other]) = front ++ c :: d :: back ++ [other] by
        simp] at hpath
      obtain ⟨rfl, -⟩ := List.append_inj' hpath rfl
      exact .inr ⟨front, c, d, back, rfl, hc, hd, hfront⟩
  · rintro (⟨front, c, rfl, hc, hd, hfront⟩ | ⟨front, c, d, back, rfl, hc, hd, hfront⟩)
    · exact ⟨front, c, last, [], by simp, hc, hd, hfront⟩
    · exact ⟨front, c, d, back ++ [last], by simp, hc, hd, hfront⟩

/-- On the way up stands, closed as a root, each `front` with a separator and a name behind it. -/
theorem mem_ancestors_iff :
    above ∈ ancestors path ↔ ∃ front c d back, path = front ++ c :: d :: back ∧
      isSeparator c = true ∧ isSeparator d = false ∧ above = closeRoot front := by
  -- from the end: a character brings something to the way up where it begins a name
  induction path using List.reverseRecOn with
  | nil =>
    rw [ancestors_of_parent?_eq_none rfl]
    simp
  | append_singleton path last ih =>
    rw [exists_name_append_singleton_iff, ← ih]
    cases hlast : isSeparator last with
    | true =>
      rw [ancestors_of_trimEnd (trimEnd_append_of_separator hlast)]
      simp
    | false =>
      cases path using List.reverseRecOn with
      | nil =>
        have hparent : parent? ([] ++ [last]) = none := by
          simp [parent?, trimEnd, hlast]
        have hnone : ancestors [] = [] := ancestors_of_parent?_eq_none rfl
        rw [ancestors_of_parent?_eq_none hparent]
        simp [hnone]
      | append_singleton path c =>
        cases hc : isSeparator c with
        | true =>
          rw [ancestors_of_parent? (parent?_append_cons hc hlast), List.mem_cons,
            ancestors_of_trimEnd (trimEnd_closeRoot path),
            ancestors_of_trimEnd (trimEnd_append_of_separator hc)]
          simp [hc]
        | false =>
          rw [ancestors_congr (parent?_append_append hc hlast)]
          simp [hc]

/-- On the way up from a key stands, closed as a root, each `front` with a separator and a name
behind it, with its separators written as in a key. -/
theorem mem_ancestors_ofPath_iff :
    above ∈ ancestors (ofPath path) ↔ ∃ front c d back, path = front ++ c :: d :: back ∧
      isSeparator c = true ∧ isSeparator d = false ∧
        above = closeRoot (front.map normalizeChar) := by
  rw [ancestors_ofPath, mem_ancestors_iff]
  refine ⟨?_, ?_⟩
  · rintro ⟨before, c', d', after, hpath, hc, hd, rfl⟩
    obtain ⟨front, more, rfl, rfl, hmore⟩ := List.map_eq_append_iff.1 hpath
    obtain ⟨c, rest, rfl, rfl, hrest⟩ := List.map_eq_cons_iff.1 hmore
    obtain ⟨d, back, rfl, rfl, -⟩ := List.map_eq_cons_iff.1 hrest
    rw [isSeparator_normalizeChar] at hc hd
    exact ⟨front, c, d, back, rfl, hc, hd, rfl⟩
  · rintro ⟨front, c, d, back, rfl, hc, hd, rfl⟩
    exact ⟨front.map normalizeChar, normalizeChar c, normalizeChar d, back.map normalizeChar,
      by simp, by simpa using hc, by simpa using hd, rfl⟩

/-! ## The end of the way up -/

/-- `closeRoot` adds at most one byte, that of a separator. -/
theorem byteCount_closeRoot_le (path : List Char) :
    byteCount (closeRoot path) ≤ byteCount path + 1 := by
  unfold closeRoot
  split
  · rw [byteCount_append]
    rfl
  · exact Nat.le_succ _

/-- A `parent?` has fewer bytes than the path, also if it is closed as a root: behind it stand a
separator and the name. -/
theorem byteCount_lt_of_parent? (h : parent? path = some above) :
    byteCount above < byteCount path := by
  have hmem : above ∈ ancestors path := by
    rw [ancestors_of_parent? h]
    exact List.mem_cons_self
  obtain ⟨front, c, d, back, rfl, -, -, rfl⟩ := mem_ancestors_iff.1 hmem
  calc byteCount (closeRoot front) ≤ byteCount front + 1 := byteCount_closeRoot_le front
    _ ≤ byteCount front + c.utf8Size := Nat.add_le_add_left c.utf8Size_pos _
    _ < byteCount front + c.utf8Size + byteCount (d :: back) :=
      Nat.lt_add_of_pos_right (byteCount_cons_pos d back)
    _ = byteCount (front ++ c :: d :: back) := by
      rw [byteCount_append, byteCount_cons c, Nat.add_assoc]

/-- A `parent?` has fewer bytes than the key of the path from which the climb starts. -/
theorem byteCount_lt_ofPath (h : parent? path = some above) :
    byteCount above < byteCount (ofPath path) := by
  rw [← parent?_trimEnd] at h
  calc byteCount above < byteCount (trimEnd path) := byteCount_lt_of_parent? h
    _ = byteCount (trimEnd (ofPath path)) := by rw [trimEnd_ofPath, byteCount_map_normalizeChar]
    _ ≤ byteCount (ofPath path) := byteCount_trimEnd_le _

/-- A path has no more `ancestors` than bytes, since each has fewer bytes than the one before. -/
theorem length_ancestors_le (path : List Char) : (ancestors path).length ≤ byteCount path := by
  fun_induction ancestors path with
  | case1 path h => exact Nat.zero_le _
  | case2 path parent h ih => exact Nat.lt_of_le_of_lt ih (byteCount_lt_of_parent? h)

/-! ## Spaced paths -/

/-- Whether two separators in front of a name stand side by side only at the start of a path or
behind a colon, where the first of them makes a root. -/
def Spaced (path : List Char) : Prop :=
  ∀ front c d e back, path = front ++ c :: d :: e :: back → isSeparator c = true →
    isSeparator d = true → isSeparator e = false → front = [] ∨ front.getLast? = some ':'

/-- On the way up from a `Spaced` path there are only keys: each ancestor is its own key. -/
theorem ofPath_of_mem_ancestors (h : Spaced path) (habove : above ∈ ancestors (ofPath path)) :
    ofPath above = above := by
  obtain ⟨front, d, e, back, rfl, hd, he, rfl⟩ := mem_ancestors_ofPath_iff.1 habove
  rw [ofPath_closeRoot, ofPath_map_normalizeChar]
  cases front using List.reverseRecOn with
  | nil => rfl
  | append_singleton front c =>
    cases hc : isSeparator c with
    | true =>
      exact ((closeRoot_append_eq_ofPath_iff hc).2 (h front c d e back (by simp) hc hd he)).symm
    | false =>
      rw [ofPath, trimEnd_map_normalizeChar, trimEnd_append_of_not_separator hc]

/-- Behind a separator, the first character that is none stands right behind a separator. -/
theorem exists_name_of_separator (hc : isSeparator c = true)
    (h : ∃ d ∈ back, isSeparator d = false) :
    ∃ run d e rest, c :: back = run ++ d :: e :: rest ∧ (∀ x ∈ run, isSeparator x = true) ∧
      isSeparator d = true ∧ isSeparator e = false := by
  induction back generalizing c with
  | nil => simp at h
  | cons e back ih =>
    cases he : isSeparator e with
    | false => exact ⟨[], c, e, back, rfl, by simp, hc, he⟩
    | true =>
      have hback : ∃ d ∈ back, isSeparator d = false := by simpa [he] using h
      obtain ⟨run, d, e', rest, heq, hrun, hd, he'⟩ := ih he hback
      exact ⟨c :: run, d, e', rest, by rw [heq, List.cons_append],
        List.forall_mem_cons.2 ⟨hc, hrun⟩, hd, he'⟩

/-- On the way up from a `Spaced` path, the key of what is in front of a separator is met, unless
only separators follow. -/
theorem ofPath_mem_ancestors (h : Spaced (front ++ c :: back)) (hc : isSeparator c = true)
    (hback : ∃ d ∈ back, isSeparator d = false) :
    ofPath front ∈ ancestors (ofPath (front ++ c :: back)) := by
  obtain ⟨run, d, e, rest, heq, hrun, hd, he⟩ := exists_name_of_separator hc hback
  have hmem : closeRoot ((front ++ run).map normalizeChar) ∈
      ancestors (ofPath (front ++ c :: back)) :=
    mem_ancestors_ofPath_iff.2 ⟨front ++ run, d, e, rest, by rw [heq, List.append_assoc], hd, he,
      rfl⟩
  have hself := ofPath_of_mem_ancestors h hmem
  rw [ofPath_closeRoot, ofPath_map_normalizeChar, ofPath_append_of_forall hrun] at hself
  rwa [hself]

/-- Where two texts go on with separators and then with another character, the separators are the
same. -/
theorem append_cons_inj_of_separators {run more : List Char} {x y : Char}
    (hrun : ∀ c ∈ run, isSeparator c = true) (hmore : ∀ c ∈ more, isSeparator c = true)
    (hx : isSeparator x = false) (hy : isSeparator y = false)
    (h : run ++ x :: front = more ++ y :: back) : run = more := by
  have htake := congrArg (List.takeWhile isSeparator) h
  rwa [List.takeWhile_append_of_pos hrun, List.takeWhile_append_of_pos hmore,
    List.takeWhile_cons_of_neg (by simp [hx]), List.takeWhile_cons_of_neg (by simp [hy]),
    List.append_nil, List.append_nil] at htake

/-- Where the key of `front`, with two separators and a name behind it, is among the ancestors, the
first of the two makes a root. -/
theorem eq_nil_or_colon_of_mem_ancestors {e : Char} (hc : isSeparator c = true)
    (hd : isSeparator d = true) (he : isSeparator e = false)
    (h : ofPath front ∈ ancestors (ofPath (front ++ c :: d :: e :: back))) :
    front = [] ∨ front.getLast? = some ':' := by
  obtain ⟨before, x, y, after, hpath, hx, hy, hkey⟩ := mem_ancestors_ofPath_iff.1 h
  obtain ⟨run, hrun, hrunsep⟩ := exists_eq_trimEnd_append front
  obtain ⟨more, hmore, hmoresep⟩ := exists_eq_trimEnd_append before
  -- what is met is the text in front of the same name, since it has the same key
  have hsame : trimEnd front = trimEnd before := by
    have htrim := congrArg trimEnd hkey
    rw [trimEnd_ofPath, trimEnd_closeRoot, trimEnd_map_normalizeChar] at htrim
    have hlength : (trimEnd front).length = (trimEnd before).length := by
      simpa using congrArg List.length htrim
    have hpath' := hpath
    rw [hrun, hmore, List.append_assoc, List.append_assoc] at hpath'
    exact (List.append_inj hpath' hlength).1
  have hbefore : before = front ++ [c] := by
    rw [hrun, hmore, hsame, List.append_assoc, List.append_assoc, List.append_cancel_left_eq]
      at hpath
    have hruns : run ++ [c, d] = more ++ [x] :=
      append_cons_inj_of_separators (List.forall_mem_append.2 ⟨hrunsep, by simp [hc, hd]⟩)
        (List.forall_mem_append.2 ⟨hmoresep, by simp [hx]⟩) he hy (by simpa using hpath)
    rw [show [c, d] = [c] ++ [d] from rfl, ← List.append_assoc] at hruns
    obtain ⟨hruns, -⟩ := List.append_inj' hruns rfl
    rw [hrun, hmore, hsame, ← hruns, List.append_assoc]
  rw [hbefore] at hkey
  refine (closeRoot_append_eq_ofPath_iff hc).1 ?_
  rw [← hkey, ofPath_append_of_forall (by simpa using hc)]

/-- On the way up from a path that is not `Spaced`, the key of what is in front of some separator is
not met, although a name follows it. -/
theorem exists_not_mem_ancestors (h : ¬ Spaced path) :
    ∃ front c back, path = front ++ c :: back ∧ isSeparator c = true ∧
      (∃ d ∈ back, isSeparator d = false) ∧ ofPath front ∉ ancestors (ofPath path) := by
  simp only [Spaced, not_forall] at h
  obtain ⟨front, c, d, e, back, rfl, hc, hd, he, hroot⟩ := h
  exact ⟨front, c, d :: e :: back, rfl, hc, ⟨e, by simp, he⟩,
    fun hmem => hroot (eq_nil_or_colon_of_mem_ancestors hc hd he hmem)⟩

end Key

end PathPatterns
