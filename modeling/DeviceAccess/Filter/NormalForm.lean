import DeviceAccess.Filter.Owned
import DeviceAccess.Asm.Stream

/-!
# Canonical bytes as a normal form

Every comparison and digest of the daemon is over `canonicalBytes` of decoded instructions, so what
that loses of a program matters. It loses one thing, the offset of a plain ALU instruction, and it
refuses one thing, a helper call whose ID has a platform tag.

* `canonicalBytes_normal_form`: the bytes decode to the program without those offsets, encode to
  themselves, and are the input exactly when no slot had such an offset (`Slot.dropsOffset`).
* `map_canonical_eq_iff`: the same at the level of instructions.
-/

namespace Sda
namespace Asm

open Bytes

/-! ## Offsets that the wire drops -/

/-- The slot of a plain ALU instruction with an offset: not a signed division or modulo, nor a
sign-extending move. -/
def Slot.dropsOffset (s : Slot) : Bool :=
  let first := readSlot s
  first.opcode.opClass.isAlu && first.offset ≠ 0 &&
    extendedAluOp first.opcode.aluOp first.offset = none

theorem dropsOffset_of_isAlu {s : Slot} (h : (readSlot s).opcode.opClass.isAlu = false) :
    s.dropsOffset = false := by
  simp only [Slot.dropsOffset, h, Bool.false_and]

/-- The slot keeps the offset of a plain ALU instruction until it is encoded. -/
theorem dropsOffset_iff {s : Slot} {i : Instruction} (hn : normalise (readSlot s) = .ok i) :
    s.dropsOffset = true ↔ i.isPlainAlu = true ∧ i.offset ≠ 0 := by
  have hop : (readSlot s).opcode = ofByte s.1 := rfl
  rcases normalise_ok hn with ⟨hc, rfl⟩ | ⟨hc, ha, ⟨ext, he, rfl⟩ | ⟨he, rfl⟩⟩ |
    ⟨hc, hs, hm, rfl⟩ | ⟨hc, ha, hs, rfl⟩
  · have hp := isPlainAlu_of_isBuiltinCall hop hc
    have hj : (ofByte s.1).jumpOp = Jmp.call := by
      simp only [Instruction.isBuiltinCall, decide_eq_true_eq] at hc
      exact hc.1
    simp [dropsOffset_of_isAlu (ofByte_call s.1 hj), hp]
  · simp [Slot.dropsOffset, he]
  · obtain ⟨hwire, -⟩ := ofByte_plainAlu s.1 ha
    rw [hop] at ha he
    simp [Slot.dropsOffset, Instruction.isPlainAlu, hop, ha, he, hwire]
  · have ha : (readSlot s).opcode.opClass.isAlu = false := by rw [hs]; rfl
    rw [hop] at hs hm
    obtain ⟨hs', -⟩ := ofByte_atomic (x := lowU32 ((readSlot s).constant <<< 8)) hs hm
    simp [dropsOffset_of_isAlu ha, Instruction.isPlainAlu, hop, hs', Class.isAlu]
  · simp [dropsOffset_of_isAlu ha, Instruction.isPlainAlu, ha]

/-- The second slot of a `ld_imm64` is no ALU instruction. -/
theorem dropsOffset_second (h0 h1 h2 h3 : Byte) :
    Slot.dropsOffset (0, 0, 0, 0, h0, h1, h2, h3) = false :=
  dropsOffset_of_isAlu (show (ofByte 0).opClass.isAlu = false by decide)

/-- No slot of `raw` is a plain ALU instruction with an offset. -/
def NoDroppedOffset (raw : Bytes) : Prop := ∀ k s, slot raw k = some s → s.dropsOffset = false

theorem slot_ofSlot_succ (s : Slot) (rest : Bytes) (k : Nat) :
    slot (ofSlot s ++ rest) (k + 1) = slot rest k := by
  have hd : (ofSlot s ++ rest).drop ((k + 1) * instructionSize) =
      rest.drop (k * instructionSize) := by
    rw [Nat.succ_mul, Nat.add_comm, ← List.drop_drop]
    rfl
  rw [slot, slot, hd]

private theorem noDroppedOffset_nil : NoDroppedOffset [] := by
  intro k s h
  rw [slot, List.drop_nil] at h
  cases h

theorem noDroppedOffset_ofSlot {s : Slot} {rest : Bytes} :
    NoDroppedOffset (ofSlot s ++ rest) ↔ s.dropsOffset = false ∧ NoDroppedOffset rest := by
  constructor
  · intro h
    exact ⟨h 0 s rfl, fun k t ht => h (k + 1) t (by rw [slot_ofSlot_succ, ht])⟩
  · rintro ⟨hs, hrest⟩ k t ht
    cases k with
    | zero => rw [slot_ofSlot] at ht; cases ht; exact hs
    | succ k => rw [slot_ofSlot_succ] at ht; exact hrest k t ht

theorem Instruction.canonical_eq_iff {i : Instruction} :
    i.canonical = i ↔ (i.isPlainAlu = true → i.offset = 0) := by
  rw [Instruction.canonical]
  split
  · rename_i hp
    constructor
    · intro h _
      rw [← h]
    · intro h
      rw [← h hp]
  · rename_i hp
    exact ⟨fun _ h => absurd h hp, fun _ => rfl⟩

/-- A decoded program is its own canonical form when no plain ALU instruction has an offset. -/
theorem map_canonical_eq_iff {is : List Instruction} :
    is.map Instruction.canonical = is ↔ ∀ i ∈ is, i.isPlainAlu = true → i.offset = 0 := by
  conv_lhs => rw [← List.map_id is, List.map_map]
  rw [List.map_inj_left]
  exact forall₂_congr fun i _ => Instruction.canonical_eq_iff

/-- The slots of one instruction, when nothing follows them. -/
theorem decodeOne_exact {raw : Bytes} {i : Instruction} (h : decodeOne raw = .ok i)
    (hlen : raw.length = i.width * instructionSize) :
    (∃ s, raw = ofSlot s ∧ (readSlot s).opcode.isDwordLoad = false ∧
      normalise (readSlot s) = .ok i) ∨
    (∃ s h0 h1 h2 h3, raw = ofSlot s ++ ofSlot (0, 0, 0, 0, h0, h1, h2, h3) ∧
      (readSlot s).opcode.isDwordLoad = true ∧ i = wide s (of32 h0 h1 h2 h3)) := by
  rcases decodeOne_ok h with ⟨s, rest, rfl, hd, hn⟩ | ⟨s, h0, h1, h2, h3, rest, rfl, hd, rfl⟩
  · have hw : i.width = 1 := by rw [Instruction.width, normalise_width hn hd]; rfl
    have hrest : rest = [] := by
      simp only [hw, List.length_append, ofSlot_length, instructionSize] at hlen
      exact List.length_eq_zero_iff.mp (by omega)
    exact .inl ⟨s, by rw [hrest, List.append_nil], hd, hn⟩
  · have hrest : rest = [] := by
      simp only [width_wide hd, List.length_append, ofSlot_length, instructionSize] at hlen
      exact List.length_eq_zero_iff.mp (by omega)
    exact .inr ⟨s, h0, h1, h2, h3, by rw [hrest, List.append_nil], hd, rfl⟩

/-- The offsets of a decoded program are those of its slots. -/
theorem Decodes.noDroppedOffset {raw : Bytes} {is : List Instruction} (h : Decodes raw is) :
    NoDroppedOffset raw ↔ ∀ i ∈ is, i.isPlainAlu = true → i.offset = 0 := by
  induction h with
  | nil => exact ⟨fun _ i hi => absurd hi List.not_mem_nil, fun _ => noDroppedOffset_nil⟩
  | @cons raw rest i is hdec hlen hr ih =>
    rw [List.forall_mem_cons, ← ih]
    have hone := hdec []
    rw [List.append_nil] at hone
    rcases decodeOne_exact hone hlen with ⟨s, rfl, -, hn⟩ | ⟨s, h0, h1, h2, h3, rfl, hd, rfl⟩
    · rw [noDroppedOffset_ofSlot, ← Bool.not_eq_true, dropsOffset_iff hn]
      simp
    · have ha : (readSlot s).opcode.opClass.isAlu = false := (ofByte_dword s.1 hd).2.1
      have hp : (wide s (of32 h0 h1 h2 h3)).isPlainAlu = false := by
        rw [Instruction.isPlainAlu, show (wide s _).opcode = (readSlot s).opcode from rfl, ha,
          Bool.false_and]
      rw [List.append_assoc, noDroppedOffset_ofSlot, noDroppedOffset_ofSlot, dropsOffset_second,
        dropsOffset_of_isAlu ha, hp]
      simp

/-! ## What does not encode -/

/-- A helper call whose ID is negative and has one of the bits 28 to 30 set. -/
def Instruction.isTaggedCall (i : Instruction) : Bool :=
  i.isBuiltinCall && (lowU32 i.constant).msb && lowU32 i.constant &&& platformMask ≠ 0

theorem platform_pos {id : BitVec 32} (h : id &&& platformMask ≠ 0) :
    0 < (id >>> platformShift).toNat := by
  rw [Nat.pos_iff_ne_zero]
  intro h0
  apply h
  have hshift : id >>> platformShift = 0 := BitVec.eq_of_toNat_eq h0
  have hmask : ∀ k < 28, platformMask.getLsbD k = false := by decide
  apply BitVec.eq_of_getLsbD_eq
  intro k hk
  rw [BitVec.getLsbD_and]
  by_cases hlow : k < 28
  · simp [hmask k hlow]
  · have hbit : id.getLsbD k = (id >>> platformShift).getLsbD (k - 28) := by
      rw [BitVec.getLsbD_ushiftRight, platformShift, Nat.add_sub_cancel' (by omega)]
    rw [hbit, hshift]
    simp

/-- A decoded instruction encodes unless it is a helper call with a tag. -/
theorem encode_error_iff {raw : Bytes} {i : Instruction} (h : decodeOne raw = .ok i) :
    (∃ e, i.encode = .error e) ↔ i.isTaggedCall = true := by
  constructor
  · rintro ⟨e, he⟩
    rcases decodeOne_ok h with ⟨s, rest, -, hd, hn⟩ | ⟨s, h0, h1, h2, h3, rest, -, hd, rfl⟩
    · rcases encode_normalise hn hd with hok | ⟨rfl, hc, ht, -⟩
      · rw [hok] at he
        cases he
      · -- `decode_one` accepts a tag on a negative ID only.
        have hmsb : (readSlot s).constant.msb = true := by
          by_contra hmsb
          rw [normalise, if_pos hc, if_pos ⟨hmsb, platform_pos ht⟩] at hn
          cases hn
        have hlow : (lowU32 (readSlot s).constant).msb = true := by
          simp only [readSlot, lowU32_signExtend] at hmsb ⊢
          rwa [BitVec.msb_signExtend] at hmsb
        simp only [Instruction.isTaggedCall, hc, hlow, ht, ne_eq, not_false_eq_true, decide_true,
          Bool.and_self]
    · rw [encode_wide hd] at he
      cases he
  · intro ht
    simp only [Instruction.isTaggedCall, Bool.and_eq_true, decide_eq_true_eq] at ht
    obtain ⟨⟨hc, -⟩, ht⟩ := ht
    have hv : i.opcode.bits ≠ invalidOpcode := by
      intro hv
      simp only [Instruction.isBuiltinCall, decide_eq_true_eq] at hc
      have hj := hc.1
      rw [show i.opcode = ⟨invalidOpcode⟩ from congrArg OpCode.mk hv] at hj
      revert hj
      decide
    rw [encode_call hv hc, if_neg ht]
    exact ⟨_, rfl⟩

theorem encodeFrom_error_iff {ε : Type} {wrap : Nat → EncodeCause → ε} {index : Nat}
    {is : List Instruction} :
    (∃ e, encodeFrom wrap index is = .error e) ↔ ∃ i ∈ is, ∃ e, i.encode = .error e := by
  induction is generalizing index with
  | nil => simp [encodeFrom]
  | cons i is ih =>
    rw [List.exists_mem_cons_iff, ← @ih (index + 1)]
    rw [encodeFrom]
    cases i.encode with
    | error e => simp [Except.mapError, bind, Except.bind]
    | ok head =>
      cases encodeFrom wrap (index + 1) is <;> simp [Except.mapError, bind, Except.bind]

theorem Decodes.decodeOne_mem {raw : Bytes} {is : List Instruction} (h : Decodes raw is) :
    ∀ i ∈ is, ∃ one, decodeOne one = .ok i := by
  induction h with
  | nil => nofun
  | cons hdec _ _ ih => exact List.forall_mem_cons.mpr ⟨⟨_, hdec []⟩, ih⟩

theorem Decodes.encodes_length {raw raw' : Bytes} {is : List Instruction} (h : Decodes raw is)
    (he : Encodes is raw') : raw'.length = raw.length := by
  induction h generalizing raw' with
  | nil => cases he; rfl
  | cons hdec hlen _ ih =>
    cases he with
    | cons he ht =>
      have hhead := (decodeOne_encode (hdec []) he).1
      rw [List.length_append, List.length_append, ih ht, hhead, hlen]
      simp only [instructionSize, Nat.mul_comm]

end Asm

namespace Filter

open Asm

/-- **Canonical bytes are a normal form.** For a decoded program the bytes have the length of the
input, decode to the program without the offsets of its plain ALU instructions, and encode to
themselves again; they are the input exactly when no slot of it has such an offset. Only a helper
call with a tagged negative ID has no canonical bytes. -/
theorem canonicalBytes_normal_form {raw : Bytes} {is : List Instruction}
    (h : decode raw = .ok is) :
    (∀ raw', canonicalBytes is = .ok raw' →
      raw'.length = raw.length ∧ decode raw' = .ok (is.map Instruction.canonical) ∧
      canonicalBytes (is.map Instruction.canonical) = .ok raw' ∧
      (raw' = raw ↔ NoDroppedOffset raw)) ∧
    ((∃ e, canonicalBytes is = .error e) ↔ ∃ i ∈ is, i.isTaggedCall = true) := by
  have hd := decode_iff.mp h
  constructor
  · intro raw' hraw'
    have he := encodeFrom_iff.mp hraw'
    obtain ⟨hdec, henc, hback⟩ := hd.encodes he
    refine ⟨hd.encodes_length he, decode_iff.mpr hdec, encodeFrom_iff.mpr henc, ?_⟩
    rw [hd.noDroppedOffset, ← map_canonical_eq_iff]
    constructor
    · rintro rfl
      exact hdec.unique hd
    · exact hback
  · rw [canonicalBytes, encodeFrom_error_iff]
    constructor
    · rintro ⟨i, hi, he⟩
      obtain ⟨one, hone⟩ := hd.decodeOne_mem i hi
      exact ⟨i, hi, (encode_error_iff hone).mp he⟩
    · rintro ⟨i, hi, ht⟩
      obtain ⟨one, hone⟩ := hd.decodeOne_mem i hi
      exact ⟨i, hi, (encode_error_iff hone).mpr ht⟩

/-- `r0 = 1` with a stray offset, then `exit`. -/
def strayOffset : Bytes := [0xb7, 0, 2, 0, 1, 0, 0, 0, 0x95, 0, 0, 0, 0, 0, 0, 0]

/-- What `strayOffset` decodes to. -/
def strayOffsetInstructions : List Instruction := [⟨⟨0xb7⟩, r0, r0, 2, 1⟩, .exit]

theorem canonicalBytes_normal_form_stray :
    decode strayOffset = .ok strayOffsetInstructions ∧
      ∃ raw', canonicalBytes strayOffsetInstructions = .ok raw' ∧ raw'.length = 16 ∧
        raw' ≠ strayOffset := by
  have hd : decode strayOffset = .ok strayOffsetInstructions := by decide
  have he : canonicalBytes strayOffsetInstructions =
      .ok [0xb7, 0, 0, 0, 1, 0, 0, 0, 0x95, 0, 0, 0, 0, 0, 0, 0] := by decide
  obtain ⟨hlen, -, -, heq⟩ := (canonicalBytes_normal_form hd).1 _ he
  refine ⟨hd, _, he, hlen, fun h => ?_⟩
  have hstray := heq.mp h 0 _ rfl
  revert hstray
  decide

end Filter
end Sda
