import DeviceAccess.Asm.OpCode

/-!
# The instruction codec (`src/cgroup/asm.rs`)

`Instruction.encode` writes an instruction to its 8-byte slot (two for a `ld_imm64`), `decode`
reads a program back, with the normalisations of the package the daemon's wire format follows:

* a helper call's ID is checked for a platform tag;
* the ALU operations that a non-zero offset turns into signed division, signed modulo and
  sign-extending moves are operations of their own once decoded, and every other ALU instruction
  is encoded with offset 0;
* an atomic store carries its operation in the opcode while decoded.

The errors carry the data the source prints them from (`OpCodeBits` the opcode, `Unsupported` the
helper ID).
-/

namespace Sda
namespace Asm

open Bytes

/-- One instruction; `constant` is the immediate, sign-extended from 32 bits except for a
`ld_imm64`. -/
structure Instruction where
  opcode : OpCode
  dst : Register
  src : Register
  offset : BitVec 16
  constant : BitVec 64
  deriving DecidableEq, Repr, Inhabited

/-- The low 32 bits of a 64-bit value. -/
def lowU32 (value : BitVec 64) : BitVec 32 := value.setWidth 32

/-- The high 32 bits of a 64-bit value. -/
def highU32 (value : BitVec 64) : BitVec 32 := lowU32 (value.sshiftRight 32)

/-- Why an instruction does not encode. -/
inductive EncodeCause where
  | invalidOpCode
  | opCodeBits (opcode : OpCode)
  | unsupported (function : BitVec 32) (platform : String)
  | extendedOffset
  deriving DecidableEq, Repr

/-- Why one instruction does not decode. -/
inductive DecodeCause where
  | unexpectedEof
  | missingSecondHalf
  | nonZeroFields
  | invalidConstant (id : BitVec 32)
  deriving DecidableEq, Repr

/-- Why raw bytes do not decode, with the byte offset of the instruction. -/
structure DecodeError where
  offset : Nat
  cause : DecodeCause
  deriving DecidableEq, Repr

/-- The register byte: the destination in the low nibble. -/
def registers (dst src : Register) : Byte := (src <<< 4) ||| (dst &&& 0x0f)

namespace Instruction

/-- A load of `size` from `src` plus `offset` into `dst`. -/
def loadMem (dst src : Register) (offset : BitVec 16) (size : BitVec 32) : Instruction where
  opcode := OpCode.loadX modeMem size
  dst := dst
  src := src
  offset := offset
  constant := 0

/-- A 32-bit ALU operation with an immediate operand. -/
def alu32Imm (op : BitVec 32) (dst : Register) (value : BitVec 32) : Instruction where
  opcode := OpCode.alu32 op immSource
  dst := dst
  src := r0
  offset := 0
  constant := value.signExtend 64

/-- A 32-bit ALU operation with a register operand. -/
def alu32Reg (op : BitVec 32) (dst src : Register) : Instruction where
  opcode := OpCode.alu32 op regSource
  dst := dst
  src := src
  offset := 0
  constant := 0

/-- A 64-bit conditional jump comparing `dst` with an immediate. -/
def jumpImm (op : BitVec 32) (dst : Register) (value : BitVec 32) (offset : BitVec 16) :
    Instruction where
  opcode := OpCode.jump op immSource
  dst := dst
  src := r0
  offset := offset
  constant := value.signExtend 64

/-- A 64-bit conditional jump comparing `dst` with `src`. -/
def jumpReg (op : BitVec 32) (dst src : Register) (offset : BitVec 16) : Instruction where
  opcode := OpCode.jump op regSource
  dst := dst
  src := src
  offset := offset
  constant := 0

/-- `exit`. -/
def exit : Instruction where
  opcode := OpCode.jump Jmp.exit immSource
  dst := r0
  src := r0
  offset := 0
  constant := 0

/-- How many slots it takes: two for a `ld_imm64`. -/
def width (self : Instruction) : Nat := if self.opcode.isDwordLoad then 2 else 1

/-- A call of a kernel helper. -/
def isBuiltinCall (self : Instruction) : Bool :=
  self.opcode.jumpOp = Jmp.call ∧ self.src = r0 ∧ self.dst = r0

/-- The operation a decoded ALU operation has on the wire, and the wire offset that stands for
it. -/
def wireAluOp (op : BitVec 32) : BitVec 32 × BitVec 16 :=
  if op = Alu.sdiv then (Alu.div, 1)
  else if op = Alu.smod then (Alu.mod, 1)
  else if op = Alu.movsx8 then (Alu.mov, 8)
  else if op = Alu.movsx16 then (Alu.mov, 16)
  else if op = Alu.movsx32 then (Alu.mov, 32)
  else (op, 0)

/-- The bytes `encode` writes, once the opcode, the offset and the immediate on the wire are
known. -/
def write (self : Instruction) (opcode : OpCode) (offset : BitVec 16) (immediate : BitVec 32) :
    Except EncodeCause Bytes :=
  if opcode.bits.toNat < 256 then
    .ok ([opcode.bits.setWidth 8, registers self.dst self.src] ++ le16 offset ++ le32 immediate ++
      if opcode.isDwordLoad then le32 0 ++ le32 (highU32 self.constant) else [])
  else .error (.opCodeBits opcode)

/-- `Instruction::encode`: the slot of an instruction, or what cannot be encoded. -/
def encode (self : Instruction) : Except EncodeCause Bytes :=
  if self.opcode.bits = invalidOpcode then .error .invalidOpCode
  else
    let immediate := lowU32 self.constant
    if self.isBuiltinCall then
      let tag := immediate &&& platformMask
      if tag = 0 then self.write self.opcode self.offset (immediate &&& ~~~platformMask)
      else .error (.unsupported immediate (if tag = windowsTag then "windows" else ""))
    else if self.opcode.opClass.isAlu then
      let (base, wireOffset) := wireAluOp self.opcode.aluOp
      if wireOffset ≠ 0 ∧ self.offset ≠ 0 then .error .extendedOffset
      else self.write (self.opcode.withAluOp base) wireOffset immediate
    else if self.opcode.atomicOp ≠ invalidAtomic then
      self.write ⟨self.opcode.bits &&& ~~~atomicMask⟩ self.offset immediate
    else self.write self.opcode self.offset immediate

end Instruction

/-- Encodes a program; `wrap` makes the error of an instruction that does not encode from its
index. `canonical_bytes` and `emit_owned` run this loop with their own errors. -/
def encodeFrom {ε : Type} (wrap : Nat → EncodeCause → ε) : Nat → List Instruction → Except ε Bytes
  | _, [] => .ok []
  | index, instruction :: rest => do
    let head ← instruction.encode.mapError (wrap index)
    let tail ← encodeFrom wrap (index + 1) rest
    .ok (head ++ tail)

/-- The eight bytes of one instruction slot. -/
abbrev Slot := Byte × Byte × Byte × Byte × Byte × Byte × Byte × Byte

/-- The bytes of slot `index`. -/
def slot (raw : Bytes) (index : Nat) : Option Slot :=
  match raw.drop (index * instructionSize) with
  | a :: b :: c :: d :: e :: f :: g :: h :: _ => some (a, b, c, d, e, f, g, h)
  | _ => none

/-- The operation that an ALU operation and its wire offset stand for, when it is one of its
own. -/
def extendedAluOp (op : BitVec 32) (offset : BitVec 16) : Option (BitVec 32) :=
  if op = Alu.div ∧ offset = 1 then some Alu.sdiv
  else if op = Alu.mod ∧ offset = 1 then some Alu.smod
  else if op = Alu.mov ∧ offset = 8 then some Alu.movsx8
  else if op = Alu.mov ∧ offset = 16 then some Alu.movsx16
  else if op = Alu.mov ∧ offset = 32 then some Alu.movsx32
  else none

/-- The instruction read off one slot, normalised: `decode_one` before a second half. -/
def normalise (instruction : Instruction) : Except DecodeCause Instruction :=
  let opcode := instruction.opcode
  if instruction.isBuiltinCall then
    -- A negative ID is kept as it is; a non-negative one must carry no platform tag.
    if ¬ instruction.constant.msb ∧ 0 < (lowU32 instruction.constant >>> platformShift).toNat then
      .error (.invalidConstant (lowU32 instruction.constant))
    else .ok instruction
  else if opcode.opClass.isAlu then
    match extendedAluOp opcode.aluOp instruction.offset with
    | some op => .ok { instruction with opcode := opcode.withAluOp op, offset := 0 }
    | none => .ok instruction
  else if opcode.opClass = .stX ∧ opcode.mode = modeAtomic then
    .ok { instruction with
      opcode := ⟨opcode.bits ||| (lowU32 (instruction.constant <<< 8) &&& atomicMask)⟩ }
  else .ok instruction

/-- The fields of one slot, before any normalisation. -/
def readSlot : Slot → Instruction
  | (op, regs, offset0, offset1, imm0, imm1, imm2, imm3) =>
    { opcode := ⟨op.setWidth 32⟩
      dst := regs &&& 0x0f
      src := regs >>> 4
      offset := of16 offset0 offset1
      constant := (of32 imm0 imm1 imm2 imm3).signExtend 64 }

/-- `decode_one`: the first instruction of `raw`. -/
def decodeOne (raw : Bytes) : Except DecodeCause Instruction :=
  match slot raw 0 with
  | none => .error .unexpectedEof
  | some bytes => do
    let first := readSlot bytes
    let instruction ← normalise first
    if !first.opcode.isDwordLoad then .ok instruction
    else
      match slot raw 1 with
      | none => .error .missingSecondHalf
      | some (zero0, zero1, zero2, zero3, high0, high1, high2, high3) =>
        if of32 zero0 zero1 zero2 zero3 ≠ 0 then .error .nonZeroFields
        else
          .ok { instruction with
            constant := of32 high0 high1 high2 high3 ++ lowU32 instruction.constant }

/-- The loop of `decode`, at byte `offset` of the program; `fuel` bounds the instructions that are
left, and the length of `raw` is always enough (`decodeFrom_cons`). -/
def decodeFrom : Nat → Nat → Bytes → Except DecodeError (List Instruction)
  | 0, _, _ => .ok []
  | fuel + 1, offset, raw =>
    if raw = [] then .ok []
    else do
      let instruction ← (decodeOne raw).mapError fun cause => ⟨offset, cause⟩
      let size := instruction.width * instructionSize
      let rest ← decodeFrom fuel (offset + size) (raw.drop size)
      .ok (instruction :: rest)

/-- `decode`: the instructions of a raw program. -/
def decode (raw : Bytes) : Except DecodeError (List Instruction) := decodeFrom raw.length 0 raw

end Asm
end Sda
