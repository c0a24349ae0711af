import DeviceAccess.Asm.CodecLemmas

/-!
# Programs as byte streams

The loops of `decode` and of the encoders as relations, so that programs append:

* `Decodes raw is`: `raw` is a program of whole instructions, `is` (`decode_iff`).
* `Encodes is raw`: every instruction of `is` encodes, to `raw` in all (`encodeFrom_iff`).
* **Round trip** (`Decodes.encodes`): what the encoder writes for a decoded program decodes to its
  canonical form.
* **Built instructions** (`Wire`): an instruction that decodes from what it encodes to.
-/

namespace Sda
namespace Asm

open Bytes

/-! ## The loops as relations -/

/-- `raw` decodes to `is`, one instruction at a time. -/
inductive Decodes : Bytes → List Instruction → Prop
  | nil : Decodes [] []
  | cons {raw rest : Bytes} {i : Instruction} {is : List Instruction} :
      (∀ tail, decodeOne (raw ++ tail) = .ok i) → raw.length = i.width * instructionSize →
      Decodes rest is → Decodes (raw ++ rest) (i :: is)

/-- Every instruction of `is` encodes, and the bytes are `raw`. -/
inductive Encodes : List Instruction → Bytes → Prop
  | nil : Encodes [] []
  | cons {i : Instruction} {is : List Instruction} {head tail : Bytes} :
      i.encode = .ok head → Encodes is tail → Encodes (i :: is) (head ++ tail)

theorem width_pos (i : Instruction) : 0 < i.width := by
  unfold Instruction.width; split <;> omega

/-- An instruction decodes from its own slots, whatever follows them. -/
theorem decodeOne_split {raw : Bytes} {i : Instruction} (h : decodeOne raw = .ok i) :
    ∃ s rest, raw = s ++ rest ∧ s.length = i.width * instructionSize ∧
      ∀ tail, decodeOne (s ++ tail) = .ok i := by
  rcases decodeOne_ok h with ⟨b, rest, rfl, hd, hn⟩ | ⟨b, h0, h1, h2, h3, rest, rfl, hd, rfl⟩
  · refine ⟨ofSlot b, rest, rfl, ?_, decodeOne_slot hn hd⟩
    rw [Instruction.width, normalise_width hn hd]
    rfl
  · refine ⟨ofSlot b ++ ofSlot (0, 0, 0, 0, h0, h1, h2, h3), rest, by simp, ?_, fun tail => ?_⟩
    · rw [width_wide hd]
      rfl
    · rw [List.append_assoc, decodeOne_wide hd]

private theorem decodeOne_nil : decodeOne [] = .error .unexpectedEof := rfl

/-- One round of the loop of `decode`. -/
theorem decodeFrom_cons {fuel offset : Nat} {s rest : Bytes} {i : Instruction}
    (h : ∀ tail, decodeOne (s ++ tail) = .ok i) (hs : s.length = i.width * instructionSize) :
    decodeFrom (fuel + 1) offset (s ++ rest) =
      (decodeFrom fuel (offset + i.width * instructionSize) rest).map (i :: ·) := by
  have hne : s ++ rest ≠ [] := by
    intro hnil
    have := h rest
    rw [hnil, decodeOne_nil] at this
    cases this
  rw [decodeFrom, if_neg hne, h rest]
  simp only [Except.mapError, bind, Except.bind, List.drop_left' hs]
  cases decodeFrom fuel (offset + i.width * instructionSize) rest <;> rfl

theorem decodeFrom_ok {fuel : Nat} {raw : Bytes} {is : List Instruction} {offset : Nat}
    (hf : raw.length ≤ fuel) (h : decodeFrom fuel offset raw = .ok is) : Decodes raw is := by
  induction fuel generalizing raw is offset with
  | zero =>
    have : raw = [] := List.length_eq_zero_iff.mp (by omega)
    subst this
    cases h
    exact .nil
  | succ fuel ih =>
    by_cases hraw : raw = []
    · subst hraw
      rw [decodeFrom, if_pos rfl] at h
      cases h
      exact .nil
    · cases hd : decodeOne raw with
      | error e =>
        rw [decodeFrom, if_neg hraw, hd] at h
        cases h
      | ok i =>
        obtain ⟨s, rest, rfl, hs, hdec⟩ := decodeOne_split hd
        rw [decodeFrom_cons hdec hs] at h
        cases hr : decodeFrom fuel (offset + i.width * instructionSize) rest with
        | error e => rw [hr] at h; cases h
        | ok js =>
          rw [hr] at h
          cases h
          have hw := width_pos i
          refine .cons hdec hs (ih ?_ hr)
          simp only [List.length_append, instructionSize] at hf hs
          omega

theorem Decodes.decodeFrom {raw : Bytes} {is : List Instruction} (h : Decodes raw is) :
    ∀ {fuel offset : Nat}, raw.length ≤ fuel → decodeFrom fuel offset raw = .ok is := by
  induction h with
  | nil =>
    intro fuel offset _
    cases fuel <;> rfl
  | @cons raw rest i is hdec hs hr ih =>
    intro fuel offset hf
    have hw := width_pos i
    simp only [List.length_append, instructionSize] at hf hs
    obtain ⟨fuel, rfl⟩ : ∃ n, fuel = n + 1 := ⟨fuel - 1, by omega⟩
    rw [decodeFrom_cons hdec hs, ih (by omega)]
    rfl

/-- `decode` accepts exactly the streams of whole instructions. -/
theorem decode_iff {raw : Bytes} {is : List Instruction} :
    decode raw = .ok is ↔ Decodes raw is :=
  ⟨decodeFrom_ok (Nat.le_refl _), fun h => h.decodeFrom (Nat.le_refl _)⟩

theorem Decodes.unique {raw : Bytes} {is js : List Instruction} (h : Decodes raw is)
    (h' : Decodes raw js) : is = js := by
  have := (decode_iff.mpr h).symm.trans (decode_iff.mpr h')
  cases this
  rfl

theorem Decodes.append {a b : Bytes} {is js : List Instruction} (ha : Decodes a is)
    (hb : Decodes b js) : Decodes (a ++ b) (is ++ js) := by
  induction ha with
  | nil => exact hb
  | cons hdec hs _ ih =>
    rw [List.append_assoc]
    exact .cons hdec hs ih

/-- The instructions from `n` on are a program of their own. -/
theorem Decodes.drop {raw : Bytes} {is : List Instruction} (h : Decodes raw is) (n : Nat) :
    ∃ rest, Decodes rest (is.drop n) := by
  induction h generalizing n with
  | nil => exact ⟨[], by rw [List.drop_nil]; exact .nil⟩
  | @cons raw rest i is hdec hs hr ih =>
    cases n with
    | zero => exact ⟨raw ++ rest, .cons hdec hs hr⟩
    | succ n => exact ih n

theorem Decodes.length {raw : Bytes} {is : List Instruction} (h : Decodes raw is) :
    instructionSize * is.length ≤ raw.length := by
  induction h with
  | nil => exact Nat.le_refl _
  | @cons raw rest i is _ hs _ ih =>
    have := width_pos i
    simp only [List.length_append, List.length_cons, instructionSize] at hs ih ⊢
    omega

/-- Both encoding loops give the bytes of `Encodes`. -/
theorem encodeFrom_iff {ε : Type} {wrap : Nat → EncodeCause → ε} {index : Nat}
    {is : List Instruction} {raw : Bytes} :
    encodeFrom wrap index is = .ok raw ↔ Encodes is raw := by
  induction is generalizing index raw with
  | nil =>
    constructor
    · intro h; cases h; exact .nil
    · intro h; cases h; rfl
  | cons i is ih =>
    constructor
    · intro h
      cases he : i.encode with
      | error e => rw [encodeFrom, he] at h; cases h
      | ok head =>
        cases ht : encodeFrom wrap (index + 1) is with
        | error e => rw [encodeFrom, he, ht] at h; cases h
        | ok tail =>
          rw [encodeFrom, he, ht] at h
          cases h
          exact .cons he (ih.mp ht)
    · rintro (_ | ⟨he, ht⟩)
      rw [encodeFrom, he, ih.mpr ht]
      rfl

theorem Encodes.unique {is : List Instruction} {a b : Bytes} (ha : Encodes is a)
    (hb : Encodes is b) : a = b := by
  have h : encodeFrom (fun _ => id) 0 is = .ok a := encodeFrom_iff.mpr ha
  rw [encodeFrom_iff.mpr hb] at h
  cases h
  rfl

theorem Encodes.append {is js : List Instruction} {a b : Bytes} (ha : Encodes is a)
    (hb : Encodes js b) : Encodes (is ++ js) (a ++ b) := by
  induction ha with
  | nil => exact hb
  | cons he _ ih =>
    rw [List.append_assoc]
    exact .cons he ih

theorem Encodes.split {is js : List Instruction} {raw : Bytes} (h : Encodes (is ++ js) raw) :
    ∃ a b, raw = a ++ b ∧ Encodes is a ∧ Encodes js b := by
  induction is generalizing raw with
  | nil => exact ⟨[], raw, rfl, .nil, h⟩
  | cons i is ih =>
    cases h with
    | @cons _ _ head tail he ht =>
      obtain ⟨a, b, rfl, ha, hb⟩ := ih ht
      exact ⟨head ++ a, b, (List.append_assoc ..).symm, .cons he ha, hb⟩

/-! ## Round trips -/

/-- **What the encoder writes for a decoded program decodes to its canonical form**, which
encodes the same; a program that is canonical already gives its own bytes. -/
theorem Decodes.encodes {raw raw' : Bytes} {is : List Instruction} (h : Decodes raw is)
    (he : Encodes is raw') :
    Decodes raw' (is.map Instruction.canonical) ∧ Encodes (is.map Instruction.canonical) raw' ∧
      (is.map Instruction.canonical = is → raw' = raw) := by
  induction h generalizing raw' with
  | nil =>
    cases he
    exact ⟨.nil, .nil, fun _ => rfl⟩
  | @cons raw rest i is hdec hs hr ih =>
    cases he with
    | @cons _ _ head tail he ht =>
      obtain ⟨hD, hE, hraw⟩ := ih ht
      obtain ⟨hlen, hdec', henc, hhead⟩ := decodeOne_encode (hdec []) he
      have hlen' : head.length = i.canonical.width * instructionSize := by
        rw [hlen, Instruction.canonical_width]; simp only [instructionSize]; omega
      refine ⟨.cons hdec' hlen' hD, .cons henc hE, fun hcan => ?_⟩
      simp only [List.map_cons, List.cons.injEq] at hcan
      obtain ⟨rest', hrest⟩ := hhead hcan.1
      rw [List.append_nil] at hrest
      have : rest' = [] := by
        have hl := congrArg List.length hrest
        simp only [List.length_append, hs, hlen, instructionSize] at hl
        exact List.length_eq_zero_iff.mp (by omega)
      rw [hrest, this, List.append_nil, hraw hcan.2]

/-- `raw` is a program and the encoding of it: the form comparisons and digests use. -/
def Canonical (raw : Bytes) : Prop := ∃ is, Decodes raw is ∧ Encodes is raw

theorem Decodes.canonical {raw raw' : Bytes} {is : List Instruction} (h : Decodes raw is)
    (he : Encodes is raw') : Canonical raw' :=
  ⟨_, (h.encodes he).1, (h.encodes he).2.1⟩

/-! ## Built instructions -/

/-- An instruction that decodes from what it encodes to. -/
def Wire (i : Instruction) : Prop :=
  ∃ s, i.encode = .ok s ∧ s.length = i.width * instructionSize ∧
    ∀ tail, decodeOne (s ++ tail) = .ok i

theorem exists_wire {is : List Instruction} (h : ∀ i ∈ is, Wire i) :
    ∃ raw, Encodes is raw ∧ Decodes raw is := by
  induction is with
  | nil => exact ⟨[], .nil, .nil⟩
  | cons i is ih =>
    obtain ⟨s, he, hs, hdec⟩ := h i List.mem_cons_self
    obtain ⟨raw, hE, hD⟩ := ih fun j hj => h j (List.mem_cons_of_mem _ hj)
    exact ⟨s ++ raw, .cons he hE, .cons hdec hs hD⟩

theorem Encodes.decodes_of_wire {is : List Instruction} {raw : Bytes} (h : Encodes is raw)
    (hw : ∀ i ∈ is, Wire i) : Decodes raw is := by
  obtain ⟨raw', hE, hD⟩ := exists_wire hw
  rwa [h.unique hE]

/-- An opcode byte with no rule of its own in the codec, when the offset is `offset`. -/
def Plain (op : Byte) (offset : BitVec 16) : Prop :=
  (ofByte op).jumpOp ≠ Jmp.call ∧ (ofByte op).isDwordLoad = false ∧
    (ofByte op).atomicOp = invalidAtomic ∧ (ofByte op).opClass ≠ .stX ∧
      ((ofByte op).opClass.isAlu = true → offset = 0)

private theorem extendedAluOp_zero (op : BitVec 32) : extendedAluOp op 0 = none := by
  simp [extendedAluOp]

/-- The builder's instructions go over the wire unchanged. -/
theorem wire_of_plain {op : Byte} {dst src : Register} {offset : BitVec 16} (value : BitVec 32)
    (hp : Plain op offset) (hd : dst.toNat < 16) (hs : src.toNat < 16) :
    Wire ⟨ofByte op, dst, src, offset, value.signExtend 64⟩ := by
  obtain ⟨hj, hdw, hat, hx, ha⟩ := hp
  obtain ⟨hdst, hsrc⟩ := registers_dst hd hs
  let b : Slot := (op, registers dst src, offset.extractLsb' 0 8, offset.extractLsb' 8 8,
    value.extractLsb' 0 8, value.extractLsb' 8 8, value.extractLsb' 16 8, value.extractLsb' 24 8)
  have hb : readSlot b = ⟨ofByte op, dst, src, offset, value.signExtend 64⟩ := by
    simp only [b, readSlot, hdst, hsrc, of16_extract, of32_extract]
    rfl
  have hn : normalise (readSlot b) = .ok (readSlot b) := by
    rw [normalise, isBuiltinCall_of_jumpOp (i := readSlot b) hj]
    simp only [Bool.false_eq_true, if_false]
    cases halu : (ofByte op).opClass.isAlu with
    | false =>
      rw [if_neg (by rw [hb]; simp [halu]), if_neg (fun h => hx (by rw [hb] at h; exact h.1))]
    | true =>
      rw [if_pos (by rw [hb]; exact halu), hb, ha halu, extendedAluOp_zero]
  obtain ⟨s, he⟩ : ∃ s, (readSlot b).encode = .ok s := by
    rcases encode_normalise hn hdw with h | ⟨-, hc, -⟩
    · exact ⟨_, h⟩
    · rw [isBuiltinCall_of_jumpOp (i := readSlot b) hj] at hc
      cases hc
  have hcan : (readSlot b).canonical = readSlot b := by
    rw [Instruction.canonical]
    split
    · rename_i hplain
      rw [hb] at hplain ⊢
      rw [Instruction.isPlainAlu, Bool.and_eq_true] at hplain
      rw [ha hplain.1]
    · rfl
  obtain ⟨hlen, hdec, -, -⟩ := decodeOne_encode_slot hn hdw he
  rw [hcan] at hdec
  rw [hb] at hdec he hlen
  exact ⟨s, he, by rw [hlen]; exact Nat.mul_comm .., hdec⟩

end Asm
end Sda
