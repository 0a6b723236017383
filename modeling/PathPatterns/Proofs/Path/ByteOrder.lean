import Mathlib.Data.List.Basic

/-!
# The bytes of paths

Paths are compared character by character. Where the bytes of two characters are compared, the
lengths of their encodings show in the first bytes, and at the same length the bytes are digits,
from the most significant on. So to compare the bytes of two paths is to compare the paths.

## Main results

* `utf8EncodeChar_append_lt`: a character in front of another has its bytes in front, whatever
  follows.
* `bytes_lt_bytes_iff`: paths are ordered as their bytes are.
* `byteCount_append`, `byteCount_cons`: how many bytes there are.
-/

namespace PathPatterns.Path

/-- The bytes of a path, in UTF-8. -/
def bytes (path : String) : List UInt8 :=
  path.toByteArray.data.toList

/-- The `bytes` of a path are those of its characters, one after the other. -/
theorem bytes_eq_flatMap (path : String) :
    bytes path = path.toList.flatMap String.utf8EncodeChar := by
  rw [bytes, ← String.ofList_toList (s := path), String.toByteArray_ofList, String.toList_ofList,
    List.utf8Encode, List.toList_data_toByteArray]

theorem toNat_val_lt (c : Char) : c.val.toNat < 0x110000 := by
  rcases c.valid with h | ⟨-, h⟩
  · exact Nat.lt_trans h (by decide)
  · exact h

/-- A character `c` in front of `d` has its bytes in front of those of `d`, whatever follows
either. -/
theorem utf8EncodeChar_append_lt {c d : Char} (h : c < d) (first second : List UInt8) :
    String.utf8EncodeChar c ++ first < String.utf8EncodeChar d ++ second := by
  have hlt : c.val.toNat < d.val.toNat := h
  have hd := toNat_val_lt d
  simp only [String.utf8EncodeChar]
  generalize c.val.toNat = m at *
  generalize d.val.toNat = n at *
  -- by the lengths of both: bytes are compared as numbers, which are below 256
  split_ifs <;>
    simp (disch := omega) only [List.cons_append, List.nil_append, List.cons_lt_cons_iff,
      UInt8.lt_iff_toNat_lt, ← UInt8.toNat_inj, UInt8.toNat_ofNat', Nat.mod_eq_of_lt] <;>
    omega

/-- Text in front of other text has its bytes in front; equal characters have equal bytes. -/
theorem flatMap_utf8EncodeChar_lt {first second : List Char} (h : first < second) :
    first.flatMap String.utf8EncodeChar < second.flatMap String.utf8EncodeChar := by
  induction first generalizing second with
  | nil =>
    cases second with
    | nil => exact absurd h (by decide)
    | cons d second =>
      obtain ⟨b, rest, hbytes⟩ := List.exists_cons_of_ne_nil (String.utf8EncodeChar_ne_nil (c := d))
      rw [List.flatMap_cons, hbytes]
      exact List.nil_lt_cons b _
  | cons c first ih =>
    cases second with
    | nil => exact absurd h (List.not_lt_nil _)
    | cons d second =>
      rw [List.flatMap_cons, List.flatMap_cons]
      rcases List.cons_lt_cons_iff.1 h with hlt | ⟨rfl, hrest⟩
      · exact utf8EncodeChar_append_lt hlt _ _
      · exact List.append_left_lt (ih hrest)

/-- Paths are ordered as their `bytes` are, so sorting by either gives the same order. -/
theorem bytes_lt_bytes_iff {first second : String} :
    bytes first < bytes second ↔ first < second := by
  have hmono : ∀ {a b : String}, a < b → bytes a < bytes b := fun {a b} h => by
    rw [bytes_eq_flatMap, bytes_eq_flatMap]
    exact flatMap_utf8EncodeChar_lt (String.lt_iff.1 h)
  refine ⟨fun h => ?_, hmono⟩
  -- otherwise the paths are the same or the other way round, and so are the bytes
  by_contra hnot
  by_cases hback : second < first
  · exact List.lt_asymm h (hmono hback)
  · have heq := String.le_antisymm (String.not_lt.1 hback) (String.not_lt.1 hnot)
    rw [heq] at h
    exact List.lt_irrefl _ h

/-- How many bytes a text has, in UTF-8. -/
def byteCount (text : List Char) : Nat :=
  (bytes (String.ofList text)).length

theorem byteCount_toList (path : String) : byteCount path.toList = (bytes path).length := by
  rw [byteCount, String.ofList_toList]

theorem byteCount_append (front back : List Char) :
    byteCount (front ++ back) = byteCount front + byteCount back := by
  simp [byteCount, bytes_eq_flatMap]

theorem byteCount_cons (c : Char) (text : List Char) :
    byteCount (c :: text) = c.utf8Size + byteCount text := by
  simp [byteCount, bytes_eq_flatMap]

/-- Every character has a byte, so a text that is not empty has one. -/
theorem byteCount_cons_pos (c : Char) (text : List Char) : 0 < byteCount (c :: text) := by
  rw [byteCount_cons]
  exact Nat.add_pos_left c.utf8Size_pos _

end PathPatterns.Path
