import Mathlib.Data.List.Basic

/-!
# Bytes and little-endian words

`le16` and `le32` are the little-endian bytes of a word, `of16` and `of32` the word of its bytes.
Both directions of the round trip are here, so that a codec never unfolds a word to its bits.
-/

abbrev Byte := BitVec 8

abbrev Bytes := List Byte

namespace Bytes

/-- The bytes of a 16-bit word, the low one first. -/
def le16 (x : BitVec 16) : Bytes := [x.extractLsb' 0 8, x.extractLsb' 8 8]

/-- The bytes of a 32-bit word, the low one first. -/
def le32 (x : BitVec 32) : Bytes :=
  [x.extractLsb' 0 8, x.extractLsb' 8 8, x.extractLsb' 16 8, x.extractLsb' 24 8]

/-- The 16-bit word of two bytes, the low one first. -/
def of16 (a b : Byte) : BitVec 16 := b ++ a

/-- The 32-bit word of four bytes, the low one first. -/
def of32 (a b c d : Byte) : BitVec 32 := d ++ c ++ b ++ a

theorem of16_extract (x : BitVec 16) : of16 (x.extractLsb' 0 8) (x.extractLsb' 8 8) = x := by
  unfold of16
  apply BitVec.eq_of_getLsbD_eq
  intro i hi
  simp only [BitVec.getLsbD_append, BitVec.getLsbD_extractLsb']
  grind

theorem of32_extract (x : BitVec 32) : of32 (x.extractLsb' 0 8) (x.extractLsb' 8 8)
    (x.extractLsb' 16 8) (x.extractLsb' 24 8) = x := by
  unfold of32
  apply BitVec.eq_of_getLsbD_eq
  intro i hi
  simp only [BitVec.getLsbD_append, BitVec.getLsbD_extractLsb']
  grind

/-- The bytes of the word of two bytes are these bytes. -/
@[simp] theorem le16_of16 (a b : Byte) : le16 (of16 a b) = [a, b] := by
  have h0 : (of16 a b).extractLsb' 0 8 = a := by
    unfold of16
    apply BitVec.eq_of_getLsbD_eq
    intro i hi
    simp only [BitVec.getLsbD_append, BitVec.getLsbD_extractLsb']
    grind
  have h1 : (of16 a b).extractLsb' 8 8 = b := by
    unfold of16
    apply BitVec.eq_of_getLsbD_eq
    intro i hi
    simp only [BitVec.getLsbD_append, BitVec.getLsbD_extractLsb']
    grind
  rw [le16, h0, h1]

/-- Byte `k` of the word of four bytes. -/
theorem extract_of32 (a b c d : Byte) : (of32 a b c d).extractLsb' 0 8 = a ∧
    (of32 a b c d).extractLsb' 8 8 = b ∧ (of32 a b c d).extractLsb' 16 8 = c ∧
    (of32 a b c d).extractLsb' 24 8 = d := by
  unfold of32
  refine ⟨?_, ?_, ?_, ?_⟩ <;>
  · apply BitVec.eq_of_getLsbD_eq
    intro i hi
    simp only [BitVec.getLsbD_append, BitVec.getLsbD_extractLsb']
    grind

/-- The bytes of the word of four bytes are these bytes. -/
@[simp] theorem le32_of32 (a b c d : Byte) : le32 (of32 a b c d) = [a, b, c, d] := by
  obtain ⟨h0, h1, h2, h3⟩ := extract_of32 a b c d
  rw [le32, h0, h1, h2, h3]

end Bytes
