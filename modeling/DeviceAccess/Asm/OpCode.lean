import DeviceAccess.Bytes

/-!
# BPF opcodes (`src/cgroup/asm.rs`)

An opcode is the byte on the wire, and for a decoded instruction the extra bits that tell the
signed, sign-extending and atomic operations apart, so it is 32 bits wide (`OpCode`). This file
has the constants and the field accessors of that type; the codec is in
`DeviceAccess/Asm/Codec.lean`.

Only little-endian hosts are modelled: the wire is in host byte order, and the daemon's targets
are little-endian.
-/

namespace Sda
namespace Asm

/-- The size of one instruction slot in bytes. -/
def instructionSize : Nat := 8

/-- A register number; the kernel has `r0` to `r10`, and a slot has room for 0 to 15. -/
abbrev Register := BitVec 8

def r0 : Register := 0
def r1 : Register := 1
def r2 : Register := 2
def r3 : Register := 3
def r4 : Register := 4
def r5 : Register := 5
def r6 : Register := 6
/-- The read-only frame pointer. -/
def rfp : Register := 10

def classMask : BitVec 32 := 0x07

def modeMask : BitVec 32 := 0xe0
def modeImm : BitVec 32 := 0x00
def modeMem : BitVec 32 := 0x60
def modeAtomic : BitVec 32 := 0xc0
def invalidMode : BitVec 32 := 0xff

def sizeMask : BitVec 32 := 0x18
def word : BitVec 32 := 0x00
def half : BitVec 32 := 0x08
def byte : BitVec 32 := 0x10
def dword : BitVec 32 := 0x18
def invalidSize : BitVec 32 := 0xff

def sourceMask : BitVec 32 := 0x08
/-- The immediate is the operand. -/
def immSource : BitVec 32 := 0x00
/-- The source register is the operand. -/
def regSource : BitVec 32 := 0x08
def invalidSource : BitVec 32 := 0xffff

/-- The operation bits of an ALU opcode, wider than the byte for the decoded signed and
sign-extending operations. -/
def aluMask : BitVec 32 := 0x3ff0
def Alu.div : BitVec 32 := 0x30
def Alu.sdiv : BitVec 32 := 0x130
def Alu.or : BitVec 32 := 0x40
def Alu.and : BitVec 32 := 0x50
def Alu.lsh : BitVec 32 := 0x60
def Alu.rsh : BitVec 32 := 0x70
def Alu.mod : BitVec 32 := 0x90
def Alu.smod : BitVec 32 := 0x190
def Alu.mov : BitVec 32 := 0xb0
def Alu.movsx8 : BitVec 32 := 0x1b0
def Alu.movsx16 : BitVec 32 := 0x2b0
def Alu.movsx32 : BitVec 32 := 0x3b0
def Alu.swap : BitVec 32 := 0xd0
def invalidAluOp : BitVec 32 := 0xffff

def jumpMask : BitVec 32 := 0xf0
def Jmp.ja : BitVec 32 := 0x00
def Jmp.jeq : BitVec 32 := 0x10
def Jmp.jgt : BitVec 32 := 0x20
def Jmp.jge : BitVec 32 := 0x30
def Jmp.jset : BitVec 32 := 0x40
def Jmp.jne : BitVec 32 := 0x50
def Jmp.jsgt : BitVec 32 := 0x60
def Jmp.jsge : BitVec 32 := 0x70
def Jmp.call : BitVec 32 := 0x80
def Jmp.exit : BitVec 32 := 0x90
def Jmp.jlt : BitVec 32 := 0xa0
def Jmp.jle : BitVec 32 := 0xb0
def Jmp.jslt : BitVec 32 := 0xc0
def Jmp.jsle : BitVec 32 := 0xd0
def invalidJumpOp : BitVec 32 := 0xff

/-- The operation of a decoded atomic store, moved there from the immediate. -/
def atomicMask : BitVec 32 := 0x1ff00
def invalidAtomic : BitVec 32 := 0xffffffff

def invalidOpcode : BitVec 32 := 0xffff

/-- A helper ID's platform tag sits in bits 28 to 30; Linux's is 0. -/
def platformShift : Nat := 28
def platformMask : BitVec 32 := 0x70000000
def windowsTag : BitVec 32 := 0x10000000

/-- The class of an opcode, its low three bits. -/
inductive Class where
  | ld | ldX | st | stX | alu | jump | jump32 | alu64
  deriving DecidableEq, Repr

def Class.isLoadOrStore : Class → Bool
  | .ld | .ldX | .st | .stX => true
  | _ => false

def Class.isAlu : Class → Bool
  | .alu | .alu64 => true
  | _ => false

def Class.isJump : Class → Bool
  | .jump | .jump32 => true
  | _ => false

/-- The opcode byte, with the extra bits of a decoded instruction. -/
structure OpCode where
  bits : BitVec 32
  deriving DecidableEq, Repr, Inhabited

namespace OpCode

/-- A 32-bit ALU opcode. -/
def alu32 (op source : BitVec 32) : OpCode := ⟨0x04 ||| op ||| source⟩

/-- A 64-bit jump opcode. -/
def jump (op source : BitVec 32) : OpCode := ⟨0x05 ||| op ||| source⟩

/-- A load into a register in `mode` and `size`. -/
def loadX (mode size : BitVec 32) : OpCode := ⟨0x01 ||| mode ||| size⟩

/-- A non-standard load in `mode` and `size`; `modeImm` with `dword` is `ld_imm64`. -/
def load (mode size : BitVec 32) : OpCode := ⟨mode ||| size⟩

/-- `OpCode::class`. -/
def opClass (self : OpCode) : Class :=
  let low := self.bits &&& classMask
  if low = 0 then .ld
  else if low = 1 then .ldX
  else if low = 2 then .st
  else if low = 3 then .stX
  else if low = 4 then .alu
  else if low = 5 then .jump
  else if low = 6 then .jump32
  else .alu64

/-- The memory mode of a load or store. -/
def mode (self : OpCode) : BitVec 32 :=
  if self.opClass.isLoadOrStore then self.bits &&& modeMask else invalidMode

/-- The access size of a load or store. -/
def size (self : OpCode) : BitVec 32 :=
  if self.opClass.isLoadOrStore then self.bits &&& sizeMask else invalidSize

/-- The operation of an atomic store. -/
def atomicOp (self : OpCode) : BitVec 32 :=
  if self.opClass = .stX ∧ self.mode = modeAtomic then self.bits &&& atomicMask else invalidAtomic

/-- The ALU operation. -/
def aluOp (self : OpCode) : BitVec 32 :=
  if self.opClass.isAlu then self.bits &&& aluMask else invalidAluOp

/-- The operand source of a jump or a non-swap ALU operation. -/
def source (self : OpCode) : BitVec 32 :=
  if !(self.opClass.isJump || self.opClass.isAlu) ∨ self.aluOp = Alu.swap then invalidSource
  else self.bits &&& sourceMask

/-- The jump operation; a 32-bit exit or call has none. -/
def jumpOp (self : OpCode) : BitVec 32 :=
  if !self.opClass.isJump then invalidJumpOp
  else
    let op := self.bits &&& jumpMask
    if self.opClass = .jump32 ∧ (op = Jmp.exit ∨ op = Jmp.call) then invalidJumpOp else op

def withAluOp (self : OpCode) (op : BitVec 32) : OpCode := ⟨(self.bits &&& ~~~aluMask) ||| op⟩

/-- `ld_imm64`, the one instruction that takes two slots. -/
def isDwordLoad (self : OpCode) : Bool := self.bits = (load modeImm dword).bits

end OpCode

end Asm
end Sda
