import DeviceAccess.Asm.Codec
import Mathlib.Tactic.Common

/-!
# Lemmas about the instruction codec

* **One slot** (`encode_normalise`): an instruction decoded from a slot encodes to that slot again,
  except that a plain ALU instruction loses its offset (`Instruction.canonical`).
* **One instruction** (`decodeOne_encode`): what `encode` writes for a decoded instruction decodes
  to its canonical form, whatever follows it.

Whole programs are in `DeviceAccess/Asm/Stream.lean`.
-/

namespace Sda
namespace Asm

open Bytes

/-- The bytes of a slot. -/
def ofSlot : Slot → Bytes
  | (a, b, c, d, e, f, g, h) => [a, b, c, d, e, f, g, h]

@[simp] theorem ofSlot_length (b : Slot) :
    (ofSlot b).length = 8 := rfl

@[simp] theorem slot_ofSlot (b : Slot)
    (rest : Bytes) : slot (ofSlot b ++ rest) 0 = some b := rfl

@[simp] theorem slot_ofSlot_one (a b : Slot)
    (rest : Bytes) : slot (ofSlot a ++ (ofSlot b ++ rest)) 1 = some b := rfl

theorem slot_zero {raw : Bytes} {b : Slot}
    (h : slot raw 0 = some b) : ∃ rest, raw = ofSlot b ++ rest := by
  unfold slot at h
  split at h
  · rename_i rest hr
    cases h
    exact ⟨rest, by simpa [ofSlot] using hr⟩
  · cases h

private theorem slot_one {a : Slot} {rest : Bytes}
    {b : Slot}
    (h : slot (ofSlot a ++ rest) 1 = some b) : ∃ rest', rest = ofSlot b ++ rest' := by
  apply @slot_zero rest b
  rw [← h]
  rfl

/-! ## Words and masks -/

@[simp] theorem lowU32_signExtend (x : BitVec 32) : lowU32 (x.signExtend 64) = x := by
  apply BitVec.eq_of_getLsbD_eq
  intro i hi
  simp only [lowU32, BitVec.getLsbD_setWidth, BitVec.getLsbD_signExtend]
  grind

@[simp] theorem lowU32_append (high low : BitVec 32) : lowU32 (high ++ low) = low := by
  apply BitVec.eq_of_getLsbD_eq
  intro i hi
  simp only [lowU32, BitVec.getLsbD_setWidth, BitVec.getLsbD_append]
  grind

@[simp] theorem highU32_append (high low : BitVec 32) : highU32 (high ++ low) = high := by
  apply BitVec.eq_of_getLsbD_eq
  intro i hi
  simp only [highU32, lowU32, BitVec.getLsbD_setWidth, BitVec.getLsbD_sshiftRight,
    BitVec.getLsbD_append]
  grind

@[simp] theorem registers_regs (regs : Byte) : registers (regs &&& 0x0f) (regs >>> 4) = regs := by
  revert regs; decide

theorem registers_dst {dst src : Register} (hd : dst.toNat < 16) (hs : src.toNat < 16) :
    registers dst src &&& 0x0f = dst ∧ registers dst src >>> 4 = src := by
  have key : ∀ d s : BitVec 4, registers (d.setWidth 8) (s.setWidth 8) &&& 0x0f = d.setWidth 8 ∧
      registers (d.setWidth 8) (s.setWidth 8) >>> 4 = s.setWidth 8 := by decide
  have hd' : (dst.setWidth 4).setWidth 8 = dst := by
    apply BitVec.eq_of_toNat_eq; simp; omega
  have hs' : (src.setWidth 4).setWidth 8 = src := by
    apply BitVec.eq_of_toNat_eq; simp; omega
  have := key (dst.setWidth 4) (src.setWidth 4)
  rwa [hd', hs'] at this

/-- Bits under a mask do not show outside it. -/
theorem or_and_mask {a x m c : BitVec 32} (h : m &&& c = 0) :
    (a ||| (x &&& m)) &&& c = a &&& c := by
  apply BitVec.eq_of_getLsbD_eq
  intro i hi
  have hm := congrArg (fun v => v.getLsbD i) h
  simp only [BitVec.getLsbD_and, BitVec.getLsbD_or] at hm ⊢
  grind

theorem and_not_of_and_eq_zero {x m : BitVec 32} (h : x &&& m = 0) : x &&& ~~~m = x := by
  apply BitVec.eq_of_getLsbD_eq
  intro i hi
  have hm := congrArg (fun v => v.getLsbD i) h
  simp only [BitVec.getLsbD_and, BitVec.getLsbD_not] at hm ⊢
  grind

/-! ## Opcode bytes

Facts about the opcode of a wire byte, by checking all 256 bytes. -/

/-- The opcode of a wire byte. -/
def ofByte (op : Byte) : OpCode := ⟨op.setWidth 32⟩

theorem ofByte_lt (op : Byte) : (ofByte op).bits.toNat < 256 := by
  have := op.isLt
  simp only [ofByte, BitVec.toNat_setWidth]
  omega

@[simp] theorem ofByte_setWidth (op : Byte) : (ofByte op).bits.setWidth 8 = op := by
  simp [ofByte]

theorem ofByte_ne_invalid (op : Byte) : (ofByte op).bits ≠ invalidOpcode := by
  intro h
  have := ofByte_lt op
  rw [h] at this
  revert this; decide

/-- A plain ALU byte encodes as itself with offset 0. -/
theorem ofByte_plainAlu : ∀ op : Byte, (ofByte op).opClass.isAlu = true →
    Instruction.wireAluOp (ofByte op).aluOp = ((ofByte op).aluOp, 0) ∧
    (ofByte op).withAluOp (ofByte op).aluOp = ofByte op ∧ (ofByte op).isDwordLoad = false ∧
    (ofByte op).jumpOp ≠ Jmp.call := by decide

/-- The signed and sign-extending operations, from the wire byte and offset and back. -/
theorem ofByte_extendedAlu {op : Byte} {offset : BitVec 16} {ext : BitVec 32}
    (ha : (ofByte op).opClass.isAlu = true)
    (he : extendedAluOp (ofByte op).aluOp offset = some ext) :
    let o := (ofByte op).withAluOp ext
    o.opClass.isAlu = true ∧ o.bits ≠ invalidOpcode ∧ o.jumpOp ≠ Jmp.call ∧
      Instruction.wireAluOp o.aluOp = ((ofByte op).aluOp, offset) ∧ offset ≠ 0 ∧
      o.withAluOp (ofByte op).aluOp = ofByte op ∧ o.isDwordLoad = false := by
  have key : ∀ p ∈ [(Alu.div, (1 : BitVec 16), Alu.sdiv), (Alu.mod, 1, Alu.smod),
    (Alu.mov, 8, Alu.movsx8),
        (Alu.mov, 16, Alu.movsx16), (Alu.mov, 32, Alu.movsx32)],
      ∀ op : Byte, (ofByte op).opClass.isAlu = true → (ofByte op).aluOp = p.1 →
      let o := (ofByte op).withAluOp p.2.2
      o.opClass.isAlu = true ∧ o.bits ≠ invalidOpcode ∧ o.jumpOp ≠ Jmp.call ∧
        Instruction.wireAluOp o.aluOp = ((ofByte op).aluOp, p.2.1) ∧ p.2.1 ≠ (0 : BitVec 16) ∧
        o.withAluOp (ofByte op).aluOp = ofByte op ∧ o.isDwordLoad = false := by
    intro p hp
    simp only [List.mem_cons, List.not_mem_nil, or_false] at hp
    rcases hp with rfl | rfl | rfl | rfl | rfl
    all_goals decide
  unfold extendedAluOp at he
  split_ifs at he with h1 h2 h3 h4 h5 <;> cases he
  · rw [h1.2]; exact key (Alu.div, 1, Alu.sdiv) (by simp) op ha h1.1
  · rw [h2.2]; exact key (Alu.mod, 1, Alu.smod) (by simp) op ha h2.1
  · rw [h3.2]; exact key (Alu.mov, 8, Alu.movsx8) (by simp) op ha h3.1
  · rw [h4.2]; exact key (Alu.mov, 16, Alu.movsx16) (by simp) op ha h4.1
  · rw [h5.2]; exact key (Alu.mov, 32, Alu.movsx32) (by simp) op ha h5.1

/-- The opcode of an atomic store with its operation folded in. -/
theorem ofByte_atomic {op : Byte} {x : BitVec 32} (hs : (ofByte op).opClass = .stX)
    (hm : (ofByte op).mode = modeAtomic) :
    let o : OpCode := ⟨(ofByte op).bits ||| (x &&& atomicMask)⟩
    o.opClass = .stX ∧ o.mode = modeAtomic ∧ o.bits ≠ invalidOpcode ∧ o.jumpOp ≠ Jmp.call ∧
      o.bits &&& ~~~atomicMask = (ofByte op).bits ∧ o.isDwordLoad = false ∧
      o.atomicOp ≠ invalidAtomic := by
  intro o
  have hc : o.opClass = .stX := by
    rw [← hs]; simp only [OpCode.opClass, o]; rw [or_and_mask (by decide)]
  have hmo : o.mode = modeAtomic := by
    rw [← hm]; simp only [OpCode.mode, hc, hs, o]; rw [or_and_mask (by decide)]
  have hlow : o.bits &&& classMask = 3 := by
    have key : ∀ op : Byte, (ofByte op).opClass = .stX → (ofByte op).bits &&& classMask = 3 := by
      decide
    rw [← key op hs]; exact or_and_mask (by decide)
  refine ⟨hc, hmo, ?_, ?_, ?_, ?_, ?_⟩
  · intro h; rw [h] at hlow; revert hlow; decide
  · simp only [OpCode.jumpOp, hc, Class.isJump, Bool.not_false, if_true]; decide
  · rw [show o.bits &&& ~~~atomicMask = (ofByte op).bits &&& ~~~atomicMask from
      or_and_mask (by decide)]
    have key : ∀ op : Byte, (ofByte op).bits &&& atomicMask = 0 := by decide
    exact and_not_of_and_eq_zero (key op)
  · simp only [OpCode.isDwordLoad, decide_eq_false_iff_not]
    intro h; rw [h] at hlow; revert hlow; decide
  · simp only [OpCode.atomicOp, hc, hmo, and_self, if_true]
    intro h
    have := congrArg (· &&& (1 : BitVec 32)) h
    simp only [BitVec.and_assoc] at this
    revert this
    rw [show atomicMask &&& (1 : BitVec 32) = 0#32 from by decide, BitVec.and_zero]
    decide

/-! ## One slot -/

namespace Instruction

/-- Not a signed division or modulo, nor a sign-extending move. -/
def isPlainAlu (i : Instruction) : Bool :=
  i.opcode.opClass.isAlu && (wireAluOp i.opcode.aluOp).2 = 0

/-- The instruction that the encoding of `i` decodes to: a plain ALU instruction has no offset on
the wire. -/
def canonical (i : Instruction) : Instruction := if i.isPlainAlu then { i with offset := 0 } else i

@[simp] theorem canonical_width (i : Instruction) : i.canonical.width = i.width := by
  unfold canonical; split <;> rfl

end Instruction

/-- `s` with a zero offset. -/
def Slot.zeroOffset : Slot → Slot
  | (op, regs, _, _, i0, i1, i2, i3) => (op, regs, 0, 0, i0, i1, i2, i3)

@[simp] theorem readSlot_opcode (op regs o0 o1 i0 i1 i2 i3 : Byte) :
    (readSlot (op, regs, o0, o1, i0, i1, i2, i3)).opcode = ofByte op := rfl

/-- `write` of the fields of a slot that is not a `ld_imm64` gives the slot back. -/
theorem write_readSlot {op regs o0 o1 i0 i1 i2 i3 : Byte} {i : Instruction}
    (hd : (ofByte op).isDwordLoad = false) (hdst : i.dst = regs &&& 0x0f)
    (hsrc : i.src = regs >>> 4) :
    i.write (ofByte op) (of16 o0 o1) (of32 i0 i1 i2 i3) =
      .ok (ofSlot (op, regs, o0, o1, i0, i1, i2, i3)) := by
  simp only [Instruction.write, ofByte_lt, hd, hdst, hsrc, registers_regs, ofByte_setWidth,
    le16_of16, le32_of32]
  rfl

/-- The four ways `normalise` returns: a helper call and an instruction with no rule are kept, an
ALU instruction may become a signed or sign-extending one, an atomic store gets its operation. -/
theorem normalise_ok {i j : Instruction} (h : normalise i = .ok j) :
    (i.isBuiltinCall = true ∧ j = i) ∨
    (i.isBuiltinCall = false ∧ i.opcode.opClass.isAlu = true ∧
      ((∃ op, extendedAluOp i.opcode.aluOp i.offset = some op ∧
          j = { i with opcode := i.opcode.withAluOp op, offset := 0 }) ∨
        (extendedAluOp i.opcode.aluOp i.offset = none ∧ j = i))) ∨
    (i.isBuiltinCall = false ∧ i.opcode.opClass = .stX ∧ i.opcode.mode = modeAtomic ∧
      j = { i with opcode :=
        ⟨i.opcode.bits ||| (lowU32 (i.constant <<< 8) &&& atomicMask)⟩ }) ∨
    (i.isBuiltinCall = false ∧ i.opcode.opClass.isAlu = false ∧
      ¬ (i.opcode.opClass = .stX ∧ i.opcode.mode = modeAtomic) ∧ j = i) := by
  unfold normalise at h
  by_cases hc : i.isBuiltinCall = true
  · simp only [hc, if_true] at h
    split at h
    · cases h
    · cases h; exact .inl ⟨hc, rfl⟩
  · rw [if_neg hc] at h
    have hc' : i.isBuiltinCall = false := by simpa using hc
    by_cases ha : i.opcode.opClass.isAlu = true
    · rw [if_pos ha] at h
      refine .inr (.inl ⟨hc', ha, ?_⟩)
      cases he : extendedAluOp i.opcode.aluOp i.offset with
      | some op => rw [he] at h; cases h; exact .inl ⟨op, rfl, rfl⟩
      | none => rw [he] at h; cases h; exact .inr ⟨rfl, rfl⟩
    · rw [if_neg ha] at h
      by_cases hs : i.opcode.opClass = .stX ∧ i.opcode.mode = modeAtomic
      · rw [if_pos hs] at h; cases h; exact .inr (.inr (.inl ⟨hc', hs.1, hs.2, rfl⟩))
      · rw [if_neg hs] at h; cases h
        exact .inr (.inr (.inr ⟨hc', by simpa using ha, hs, rfl⟩))

/-- A helper call is not an ALU instruction. -/
theorem ofByte_call : ∀ op : Byte, (ofByte op).jumpOp = Jmp.call →
    (ofByte op).opClass.isAlu = false := by
  decide

theorem isPlainAlu_of_isBuiltinCall {i : Instruction} {op : Byte} (hop : i.opcode = ofByte op)
    (hc : i.isBuiltinCall = true) : i.isPlainAlu = false := by
  simp only [Instruction.isBuiltinCall, decide_eq_true_eq, hop] at hc
  simp [Instruction.isPlainAlu, hop, ofByte_call op hc.1]

theorem isBuiltinCall_of_jumpOp {i : Instruction} (h : i.opcode.jumpOp ≠ Jmp.call) :
    i.isBuiltinCall = false := by
  simp [Instruction.isBuiltinCall, h]

/-! What `encode` does, case by case. -/

theorem encode_call {i : Instruction} (hv : i.opcode.bits ≠ invalidOpcode)
    (hc : i.isBuiltinCall = true) :
    i.encode = if lowU32 i.constant &&& platformMask = 0 then
        i.write i.opcode i.offset (lowU32 i.constant &&& ~~~platformMask)
      else .error (.unsupported (lowU32 i.constant)
        (if lowU32 i.constant &&& platformMask = windowsTag then "windows" else "")) := by
  rw [Instruction.encode, if_neg hv]
  simp only [hc, if_true]

theorem encode_alu {i : Instruction} (hv : i.opcode.bits ≠ invalidOpcode)
    (hc : i.isBuiltinCall = false) (ha : i.opcode.opClass.isAlu = true)
    (ho : (Instruction.wireAluOp i.opcode.aluOp).2 = 0 ∨ i.offset = 0) :
    i.encode = i.write (i.opcode.withAluOp (Instruction.wireAluOp i.opcode.aluOp).1)
      (Instruction.wireAluOp i.opcode.aluOp).2 (lowU32 i.constant) := by
  rw [Instruction.encode, if_neg hv]
  simp only [hc, ha, if_true, Bool.false_eq_true, if_false]
  rw [if_neg]
  rintro ⟨h1, h2⟩
  exact ho.elim h1 h2

theorem encode_atomic {i : Instruction} (hv : i.opcode.bits ≠ invalidOpcode)
    (hc : i.isBuiltinCall = false) (ha : i.opcode.opClass.isAlu = false)
    (ht : i.opcode.atomicOp ≠ invalidAtomic) :
    i.encode = i.write ⟨i.opcode.bits &&& ~~~atomicMask⟩ i.offset (lowU32 i.constant) := by
  rw [Instruction.encode, if_neg hv]
  simp only [hc, ha, Bool.false_eq_true, if_false]
  rw [if_pos ht]

theorem encode_other {i : Instruction} (hv : i.opcode.bits ≠ invalidOpcode)
    (hc : i.isBuiltinCall = false) (ha : i.opcode.opClass.isAlu = false)
    (ht : i.opcode.atomicOp = invalidAtomic) :
    i.encode = i.write i.opcode i.offset (lowU32 i.constant) := by
  rw [Instruction.encode, if_neg hv]
  simp only [hc, ha, Bool.false_eq_true, if_false]
  rw [if_neg (by simp [ht])]

/-- An instruction decoded from one slot encodes to that slot, without the offset of a plain ALU
instruction; only a helper call with a platform tag is refused. -/
theorem encode_normalise {b : Slot} {i : Instruction} (hn : normalise (readSlot b) = .ok i)
    (hd : (readSlot b).opcode.isDwordLoad = false) :
    i.encode = .ok (ofSlot (if i.isPlainAlu then b.zeroOffset else b)) ∨
      (i = readSlot b ∧ i.isBuiltinCall = true ∧ lowU32 i.constant &&& platformMask ≠ 0 ∧
        ∃ e, i.encode = .error e) := by
  obtain ⟨op, regs, o0, o1, i0, i1, i2, i3⟩ := b
  have hinv := ofByte_ne_invalid op
  obtain ⟨r, hr, hop, hdst, hsrc, hoff, himm⟩ :
    ∃ r, readSlot (op, regs, o0, o1, i0, i1, i2, i3) = r ∧
      r.opcode = ofByte op ∧ r.dst = regs &&& 0x0f ∧ r.src = regs >>> 4 ∧ r.offset = of16 o0 o1 ∧
      lowU32 r.constant = of32 i0 i1 i2 i3 := ⟨_, rfl, rfl, rfl, rfl, rfl, lowU32_signExtend _⟩
  rw [hr] at hn hd ⊢
  rw [hop] at hd
  have hw {j : Instruction} (h1 : j.dst = r.dst) (h2 : j.src = r.src) (o0 o1 : Byte) :
      j.write (ofByte op) (of16 o0 o1) (of32 i0 i1 i2 i3) =
        .ok (ofSlot (op, regs, o0, o1, i0, i1, i2, i3)) :=
    write_readSlot hd (h1.trans hdst) (h2.trans hsrc)
  rcases normalise_ok hn with ⟨hc, rfl⟩ | ⟨hc, ha, ⟨ext, he, rfl⟩ | ⟨he, rfl⟩⟩ |
    ⟨hc, hs, hm, rfl⟩ | ⟨hc, ha, hs, rfl⟩
  · rw [encode_call (by rw [hop]; exact hinv) hc, isPlainAlu_of_isBuiltinCall hop hc]
    by_cases ht : lowU32 i.constant &&& platformMask = 0
    · left
      rw [if_pos ht, and_not_of_and_eq_zero ht, hop, hoff, himm]
      exact hw rfl rfl _ _
    · right
      rw [if_neg ht]
      exact ⟨rfl, hc, ht, _, rfl⟩
  · left
    rw [hop] at ha he
    obtain ⟨ha', hinv', hj', hwire, hne, hback, -⟩ := ofByte_extendedAlu ha he
    rw [encode_alu (by rw [hop]; exact hinv') (isBuiltinCall_of_jumpOp (by rw [hop]; exact hj'))
      (by rw [hop]; exact ha') (.inr rfl)]
    simp only [Instruction.isPlainAlu, hop, hwire, hback, himm]
    rw [if_neg (by simp only [Bool.and_eq_true, decide_eq_true_eq, not_and]; exact fun _ => hne),
      hoff]
    exact hw rfl rfl _ _
  · left
    rw [hop] at ha
    obtain ⟨hwire, hback, -, -⟩ := ofByte_plainAlu op ha
    rw [encode_alu (by rw [hop]; exact hinv) hc (by rw [hop]; exact ha) (.inl (by rw [hop, hwire]))]
    simp only [Instruction.isPlainAlu, hop, hwire, hback, himm, ha, decide_true,
      Bool.and_true, if_true]
    exact hw rfl rfl 0 0
  · left
    rw [hop] at hs hm
    obtain ⟨hs', hm', hinv', hj', hback, hd', hat⟩ :=
        ofByte_atomic (x := lowU32 (r.constant <<< 8)) hs hm
    rw [encode_atomic (by rw [hop]; exact hinv') (isBuiltinCall_of_jumpOp (by rw [hop]; exact hj'))
      (by rw [hop, hs']; rfl) (by rw [hop]; exact hat)]
    simp only [Instruction.isPlainAlu, hop, hs', hback, himm, hoff]
    exact hw rfl rfl _ _
  · left
    rw [hop] at ha hs
    rw [encode_other (by rw [hop]; exact hinv) hc (by rw [hop]; exact ha)
      (by rw [hop, OpCode.atomicOp, if_neg hs])]
    simp only [Instruction.isPlainAlu, hop, ha, himm, hoff, Bool.false_and,
      Bool.false_eq_true, if_false]
    exact hw rfl rfl _ _

/-- The slot without the offset of a plain ALU instruction decodes to the canonical form. -/
theorem normalise_zeroOffset {b : Slot} {i : Instruction} (hn : normalise (readSlot b) = .ok i)
    (hp : i.isPlainAlu = true) :
    normalise (readSlot b.zeroOffset) = .ok { i with offset := 0 } := by
  obtain ⟨op, regs, o0, o1, i0, i1, i2, i3⟩ := b
  rcases normalise_ok hn with ⟨hc, rfl⟩ | ⟨hc, ha, ⟨ext, he, rfl⟩ | ⟨he, rfl⟩⟩ |
    ⟨hc, hs, hm, rfl⟩ | ⟨hc, ha, hs, rfl⟩
  · rw [@isPlainAlu_of_isBuiltinCall _ op rfl hc] at hp; cases hp
  · obtain ⟨-, -, -, hwire, hne, -, -⟩ := ofByte_extendedAlu ha he
    simp only [Instruction.isPlainAlu, readSlot_opcode, hwire, Bool.and_eq_true,
      decide_eq_true_eq] at hp
    exact absurd hp.2 hne
  · have hc' : (readSlot (Slot.zeroOffset (op, regs, o0, o1, i0, i1, i2, i3))).isBuiltinCall =
        false := hc
    have ha' :
        (readSlot (Slot.zeroOffset (op, regs, o0, o1, i0, i1, i2, i3))).opcode.opClass.isAlu =
        true :=
      ha
    have he' : ∀ x, extendedAluOp x
      (readSlot (Slot.zeroOffset (op, regs, o0, o1, i0, i1, i2, i3))).offset =
        none := by
      intro x
      have h0 : (readSlot (Slot.zeroOffset (op, regs, o0, o1, i0, i1, i2, i3))).offset = 0 := rfl
      rw [h0, extendedAluOp]
      simp
    unfold normalise
    simp only [hc', ha', he', Bool.false_eq_true, if_false, if_true]
    rfl
  · simp [Instruction.isPlainAlu, readSlot_opcode, (ofByte_atomic hs hm).1, Class.isAlu] at hp
  · rw [Instruction.isPlainAlu, ha] at hp; cases hp

/-! ## One instruction -/

/-- The instruction of the two slots of a `ld_imm64`. -/
def wide (b : Slot) (high : BitVec 32) : Instruction :=
  { readSlot b with constant := high ++ lowU32 (readSlot b).constant }

/-- What `decode_one` accepts: one slot, or the two slots of a `ld_imm64`. -/
theorem decodeOne_ok {raw : Bytes} {i : Instruction} (h : decodeOne raw = .ok i) :
    (∃ b rest, raw = ofSlot b ++ rest ∧ (readSlot b).opcode.isDwordLoad = false ∧
      normalise (readSlot b) = .ok i) ∨
    (∃ b h0 h1 h2 h3 rest, raw = ofSlot b ++ (ofSlot (0, 0, 0, 0, h0, h1, h2, h3) ++ rest) ∧
      (readSlot b).opcode.isDwordLoad = true ∧ i = wide b (of32 h0 h1 h2 h3)) := by
  unfold decodeOne at h
  split at h
  · cases h
  · rename_i b hb
    obtain ⟨rest, rfl⟩ := slot_zero hb
    cases hn : normalise (readSlot b) with
    | error e => simp only [hn] at h; cases h
    | ok first =>
      simp only [hn, bind, Except.bind] at h
      cases hd : (readSlot b).opcode.isDwordLoad with
      | false =>
        rw [hd] at h; cases h
        exact .inl ⟨b, rest, rfl, hd, hn⟩
      | true =>
        rw [hd] at h
        simp only [Bool.not_true, Bool.false_eq_true, if_false] at h
        split at h
        · cases h
        · rename_i z0 z1 z2 z3 h0 h1 h2 h3 hs
          obtain ⟨rest', rfl⟩ := slot_one hs
          split at h
          · cases h
          · rename_i hz
            cases h
            have hf : first = readSlot b := by
              have key : ∀ op : Byte, (ofByte op).isDwordLoad = true →
                (ofByte op).jumpOp ≠ Jmp.call ∧
                  (ofByte op).opClass.isAlu = false ∧ (ofByte op).opClass ≠ .stX := by decide
              obtain ⟨op, regs, o0, o1, i0, i1, i2, i3⟩ := b
              obtain ⟨hj, ha, hx⟩ := key op hd
              rcases normalise_ok hn with ⟨-, rfl⟩ | ⟨-, ha', -⟩ | ⟨-, hs, -, -⟩ | ⟨-, -, -, rfl⟩
              · rfl
              · rw [readSlot_opcode, ha] at ha'; cases ha'
              · exact absurd hs hx
              · rfl
            have hzero : [z0, z1, z2, z3] = [0, 0, 0, 0] := by
              rw [← le32_of32 z0 z1 z2 z3, Decidable.not_not.mp hz]; rfl
            cases hzero
            subst hf
            exact .inr ⟨b, h0, h1, h2, h3, rest', rfl, hd, rfl⟩

theorem decodeOne_slot {b : Slot} {i : Instruction} (hn : normalise (readSlot b) = .ok i)
    (hd : (readSlot b).opcode.isDwordLoad = false) (rest : Bytes) :
    decodeOne (ofSlot b ++ rest) = .ok i := by
  simp only [decodeOne, slot_ofSlot, hn, hd, bind, Except.bind, Bool.not_false, if_true]

/-- Normalising keeps an instruction in one slot. -/
theorem normalise_width {b : Slot} {i : Instruction} (hn : normalise (readSlot b) = .ok i)
    (hd : (readSlot b).opcode.isDwordLoad = false) : i.opcode.isDwordLoad = false := by
  obtain ⟨op, regs, o0, o1, i0, i1, i2, i3⟩ := b
  rcases normalise_ok hn with ⟨-, rfl⟩ | ⟨-, ha, ⟨ext, he, rfl⟩ | ⟨-, rfl⟩⟩ | ⟨-, hs, hm, rfl⟩ |
    ⟨-, -, -, rfl⟩
  · exact hd
  · exact (ofByte_extendedAlu ha he).2.2.2.2.2.2
  · exact hd
  · exact (ofByte_atomic hs hm).2.2.2.2.2.1
  · exact hd

private theorem zeroOffset_zeroOffset (b : Slot) : b.zeroOffset.zeroOffset = b.zeroOffset := rfl

/-- The one opcode byte that takes two slots. -/
theorem ofByte_dword : ∀ op : Byte, (ofByte op).isDwordLoad = true →
    (ofByte op).jumpOp ≠ Jmp.call ∧ (ofByte op).opClass.isAlu = false ∧
      (ofByte op).atomicOp = invalidAtomic := by decide

/-- A one-slot instruction that is canonical already was read from a slot without an offset it
would drop. -/
theorem zeroOffset_of_canonical {b : Slot} {i : Instruction}
    (hn : normalise (readSlot b) = .ok i) (hp : i.isPlainAlu = true) (hi : i.canonical = i) :
    b.zeroOffset = b := by
  have hoff : i.offset = 0 := by
    rw [← hi, Instruction.canonical, if_pos hp]
  have ho : (readSlot b).offset = 0 := by
    rcases normalise_ok hn with ⟨-, rfl⟩ | ⟨-, ha, ⟨ext, he', rfl⟩ | ⟨-, rfl⟩⟩ |
      ⟨-, hs, hm, rfl⟩ | ⟨-, -, -, rfl⟩
    · exact hoff
    · obtain ⟨-, -, -, hwire, hne, -, -⟩ := @ofByte_extendedAlu b.1 _ _ ha he'
      rw [Instruction.isPlainAlu, show (readSlot b).opcode = ofByte b.1 from rfl, hwire] at hp
      simp only [Bool.and_eq_true, decide_eq_true_eq] at hp
      exact absurd hp.2 hne
    · exact hoff
    · exact hoff
    · exact hoff
  obtain ⟨op, regs, o0, o1, i0, i1, i2, i3⟩ := b
  have hb : [o0, o1] = [0, 0] := by
    rw [← le16_of16 o0 o1, show of16 o0 o1 = 0 from ho]; rfl
  cases hb
  rfl

/-- What `encode` writes for an instruction of one slot. -/
theorem decodeOne_encode_slot {b : Slot} {i : Instruction} {s : Bytes}
    (hn : normalise (readSlot b) = .ok i) (hd : (readSlot b).opcode.isDwordLoad = false)
    (he : i.encode = .ok s) :
    s.length = 8 * i.width ∧ (∀ rest, decodeOne (s ++ rest) = .ok i.canonical) ∧
      i.canonical.encode = .ok s ∧ (i.canonical = i → s = ofSlot b) := by
  have hw : i.width = 1 := by rw [Instruction.width, normalise_width hn hd]; rfl
  have hs : s = ofSlot (if i.isPlainAlu then b.zeroOffset else b) := by
    rcases encode_normalise hn hd with hs | ⟨-, -, -, e, hs⟩
    · rw [he] at hs; cases hs; rfl
    · rw [he] at hs; cases hs
  subst hs
  refine ⟨by rw [hw]; rfl, ?_⟩
  cases hp : i.isPlainAlu with
  | false =>
    have hcan : i.canonical = i := by rw [Instruction.canonical, hp]; rfl
    rw [hp] at he
    simp only [Bool.false_eq_true, if_false, hcan]
    exact ⟨decodeOne_slot hn hd, he, fun _ => trivial⟩
  | true =>
    have hcan : i.canonical = { i with offset := 0 } := by rw [Instruction.canonical, hp]; rfl
    have hp' : i.canonical.isPlainAlu = true := by rw [hcan]; exact hp
    have hn' := normalise_zeroOffset hn hp
    rw [← hcan] at hn'
    have hd' : (readSlot b.zeroOffset).opcode.isDwordLoad = false := hd
    simp only [if_true]
    refine ⟨decodeOne_slot hn' hd', ?_, fun hi => ?_⟩
    · rcases encode_normalise hn' hd' with hs | ⟨hi, hc, -⟩
      · rw [hs, hp', if_pos rfl, zeroOffset_zeroOffset]
      · rw [@isPlainAlu_of_isBuiltinCall _ b.1 (by rw [hi]; rfl) hc] at hp'
        cases hp'
    · rw [zeroOffset_of_canonical hn hp hi]

theorem canonical_wide {b : Slot} {high : BitVec 32}
    (hd : (readSlot b).opcode.isDwordLoad = true) : (wide b high).canonical = wide b high := by
  obtain ⟨-, ha, -⟩ := ofByte_dword b.1 hd
  have hp : (wide b high).isPlainAlu = false := by
    rw [Instruction.isPlainAlu, show (wide b high).opcode = ofByte b.1 from rfl, ha, Bool.false_and]
  rw [Instruction.canonical, hp]
  rfl

theorem width_wide {b : Slot} {high : BitVec 32}
    (hd : (readSlot b).opcode.isDwordLoad = true) : (wide b high).width = 2 := by
  rw [Instruction.width, show (wide b high).opcode = (readSlot b).opcode from rfl, hd]
  rfl

theorem encode_wide {b : Slot} {h0 h1 h2 h3 : Byte}
    (hd : (readSlot b).opcode.isDwordLoad = true) :
    (wide b (of32 h0 h1 h2 h3)).encode = .ok (ofSlot b ++ ofSlot (0, 0, 0, 0, h0, h1, h2, h3)) := by
  obtain ⟨op, regs, o0, o1, i0, i1, i2, i3⟩ := b
  have hd' : (ofByte op).isDwordLoad = true := hd
  obtain ⟨hj, ha, ht⟩ := ofByte_dword op hd
  have hhi : highU32 (of32 h0 h1 h2 h3 ++ of32 i0 i1 i2 i3 : BitVec 64) = of32 h0 h1 h2 h3 :=
    highU32_append _ _
  have hlo : lowU32 (of32 h0 h1 h2 h3 ++ of32 i0 i1 i2 i3 : BitVec 64) = of32 i0 i1 i2 i3 :=
    lowU32_append _ _
  have hwide : wide (op, regs, o0, o1, i0, i1, i2, i3) (of32 h0 h1 h2 h3) =
      ⟨ofByte op, regs &&& 0x0f, regs >>> 4, of16 o0 o1, of32 h0 h1 h2 h3 ++ of32 i0 i1 i2 i3⟩ := by
    rw [← lowU32_signExtend (of32 i0 i1 i2 i3)]; rfl
  rw [hwide, encode_other (ofByte_ne_invalid op) (isBuiltinCall_of_jumpOp hj) ha ht,
    Instruction.write, if_pos (ofByte_lt op), if_pos hd', hhi, hlo, registers_regs, le16_of16,
    le32_of32, le32_of32, ofByte_setWidth]
  rfl

theorem decodeOne_wide {b : Slot} {h0 h1 h2 h3 : Byte}
    (hd : (readSlot b).opcode.isDwordLoad = true) (rest : Bytes) :
    decodeOne (ofSlot b ++ (ofSlot (0, 0, 0, 0, h0, h1, h2, h3) ++ rest)) =
      .ok (wide b (of32 h0 h1 h2 h3)) := by
  obtain ⟨hj, ha, -⟩ := ofByte_dword b.1 hd
  have hn : normalise (readSlot b) = .ok (readSlot b) := by
    have key : ∀ op : Byte, (ofByte op).isDwordLoad = true → (ofByte op).opClass ≠ .stX := by
      decide
    rw [normalise, isBuiltinCall_of_jumpOp (i := readSlot b) hj]
    simp only [Bool.false_eq_true, if_false]
    rw [if_neg (by rw [show (readSlot b).opcode = ofByte b.1 from rfl, ha]; simp),
      if_neg (fun hx => key b.1 hd hx.1)]
  have hz : of32 0 0 0 0 = 0 := by decide
  rw [decodeOne, slot_ofSlot, slot_ofSlot_one]
  simp only [hn, hd, bind, Except.bind, Bool.not_true, Bool.false_eq_true, if_false]
  rw [if_neg (by rw [hz]; simp)]
  rfl

/-- **What `encode` writes for a decoded instruction decodes to its canonical form**, whatever
follows, and encodes the same again; an instruction that is canonical already gives the bytes it
was read from. -/
theorem decodeOne_encode {raw s : Bytes} {i : Instruction} (h : decodeOne raw = .ok i)
    (he : i.encode = .ok s) :
    s.length = 8 * i.width ∧ (∀ rest, decodeOne (s ++ rest) = .ok i.canonical) ∧
      i.canonical.encode = .ok s ∧ (i.canonical = i → ∃ rest, raw = s ++ rest) := by
  rcases decodeOne_ok h with ⟨b, rest, rfl, hd, hn⟩ | ⟨b, h0, h1, h2, h3, rest, rfl, hd, rfl⟩
  · obtain ⟨hlen, hdec, henc, hraw⟩ := decodeOne_encode_slot hn hd he
    exact ⟨hlen, hdec, henc, fun hi => ⟨rest, by rw [hraw hi]⟩⟩
  · rw [encode_wide hd] at he
    cases he
    rw [canonical_wide hd, width_wide hd, encode_wide hd]
    refine ⟨rfl, fun rest' => ?_, rfl, fun _ => ⟨rest, by simp⟩⟩
    rw [List.append_assoc, decodeOne_wide hd]

end Asm
end Sda
