import Mathlib.Algebra.Group.Int.Defs
import Mathlib.Algebra.GroupWithZero.Nat
import DeviceAccess.Asm.Codec

/-!
# The device filter builder (`src/cgroup/ebpf.rs`)

A program under construction is the context loads and one block per device rule, appended from the
last rule to the first (`Program.appendDevice`). A block checks the type, the access, the major and
the minor number of the request, in this order, and each check jumps to the next block when it
fails; the jumps are resolved when the program is laid out (`Program.layout`).

`appendDevice` is split in two: `ruleMatch` reads a rule, with every error of the source, and
`RuleMatch.block` is the code for what was read.
-/

namespace Sda
namespace Filter

open Asm

/-- One device rule. An absent number is an error for the builder, a negative one the wildcard. -/
structure DeviceRule where
  allow : Bool
  kind : String
  major : Option Int
  minor : Option Int
  access : String
  deriving DecidableEq, Repr

/-- The device types of `struct bpf_cgroup_dev_ctx`. -/
inductive DeviceType where
  | block | char
  deriving DecidableEq, Repr

/-- `BPF_DEVCG_DEV_BLOCK` and `BPF_DEVCG_DEV_CHAR`. -/
def DeviceType.code : DeviceType → BitVec 32
  | .block => 1
  | .char => 2

/-- `BPF_DEVCG_ACC_MKNOD`. -/
def accMknod : BitVec 3 := 1
/-- `BPF_DEVCG_ACC_READ`. -/
def accRead : BitVec 3 := 2
/-- `BPF_DEVCG_ACC_WRITE`. -/
def accWrite : BitVec 3 := 4

/-- The mask of `rwm`, which needs no access check. -/
def accAll : BitVec 3 := accRead ||| accWrite ||| accMknod

/-- Why a rule cannot be added to a program, or a program not be built. -/
inductive RuleError where
  | finalized
  | invalidType (kind : String)
  | noMajor
  | noMinor
  | invalidMajor (major : Int)
  | invalidMinor (minor : Int)
  | unknownAccess (letter : Char)
  | noOriginal
  deriving DecidableEq, Repr

/-- `u32::MAX`. -/
def u32Max : Nat := 4294967295

/-- The bit of an access letter. -/
def accessBit (letter : Char) : Except RuleError (BitVec 3) :=
  if letter = 'r' then .ok accRead
  else if letter = 'w' then .ok accWrite
  else if letter = 'm' then .ok accMknod
  else .error (.unknownAccess letter)

/-- The loop over the access letters, with the bits of those before. -/
def accessMask (access : BitVec 3) : List Char → Except RuleError (BitVec 3)
  | [] => .ok access
  | letter :: rest => do
    let bit ← accessBit letter
    accessMask (access ||| bit) rest

/-- What the block of a rule checks and answers: `none` for a check that is left out. -/
structure RuleMatch where
  deviceType : Option DeviceType
  access : BitVec 3
  major : Option (BitVec 32)
  minor : Option (BitVec 32)
  allow : Bool
  deriving DecidableEq, Repr

/-- The type of a rule; `a` is every type. -/
def kindType (kind : String) : Except RuleError (Option DeviceType) :=
  if kind = "c" then .ok (some .char)
  else if kind = "b" then .ok (some .block)
  else if kind = "a" then .ok none
  else .error (.invalidType kind)

/-- `low_i32` of a number that is checked, that is one that is not negative. -/
def numberCheck (number : Int) : Option (BitVec 32) :=
  if 0 ≤ number then some (BitVec.ofInt 32 number) else none

/-- The part of `append_device` that reads the rule. -/
def ruleMatch (rule : DeviceRule) : Except RuleError RuleMatch := do
  let deviceType ← kindType rule.kind
  let major ← rule.major.elim (.error .noMajor) .ok
  let minor ← rule.minor.elim (.error .noMinor) .ok
  if u32Max < major then .error (.invalidMajor major)
  else if u32Max < minor then .error (.invalidMinor minor)
  else do
    let access ← accessMask 0 rule.access.toList
    .ok ⟨deviceType, access, numberCheck major, numberCheck minor, rule.allow⟩

/-- One instruction of a rule block, and whether it is a jump to the next block. -/
structure Step where
  instruction : Instruction
  toNextBlock : Bool
  deriving DecidableEq, Repr

def Step.plain (instruction : Instruction) : Step := ⟨instruction, false⟩

def Step.jump (instruction : Instruction) : Step := ⟨instruction, true⟩

namespace RuleMatch

def hasAccess (self : RuleMatch) : Bool := self.access ≠ accAll

/-- No check at all: the rule matches every request. -/
def matchesAll (self : RuleMatch) : Bool :=
  self.deviceType.isNone && !self.hasAccess && self.major.isNone && self.minor.isNone

/-- A check of `dst` against an immediate that jumps to the next block. -/
def numberStep (dst : Register) (value : BitVec 32) : Step :=
  .jump (.jumpImm Jmp.jne dst value (-1))

/-- `R3 & access != R3`: the access asked for is not contained in the rule's. -/
def accessSteps (self : RuleMatch) : List Step :=
  if self.hasAccess then
    [.plain (.alu32Reg Alu.mov r6 r3), .plain (.alu32Imm Alu.and r6 (self.access.setWidth 32)),
      .jump (.jumpReg Jmp.jne r6 r3 (-1))]
  else []

/-- The checks of a block: the type, the access, the major and the minor. -/
def checks (self : RuleMatch) : List Step :=
  (self.deviceType.map fun type => numberStep r2 type.code).toList ++ self.accessSteps ++
    (self.major.map (numberStep r4)).toList ++ (self.minor.map (numberStep r5)).toList

/-- The block of a rule: its checks, then the verdict. -/
def block (self : RuleMatch) : List Step :=
  self.checks ++ [.plain (.alu32Imm Alu.mov r0 (if self.allow then 1 else 0)), .plain .exit]

end RuleMatch

/-- A device filter program being built; the context loads are `Program.init`. -/
structure Program where
  blocks : List (List Step)
  hasWildCard : Bool
  finalized : Bool
  deriving DecidableEq, Repr

/-- How many raw slots `instructions` take. -/
def slots (instructions : List Instruction) : Nat := (instructions.map Instruction.width).sum

/-- `jump_offset`: `int16(target - position - 1)`, truncated. -/
def jumpOffset (target position : Nat) : BitVec 16 :=
  (BitVec.ofNat 64 target - BitVec.ofNat 64 position - 1).setWidth 16

namespace Program

/-- The context loads: `R2` the type, `R3` the access, `R4` the major, `R5` the minor. -/
def init : List Instruction :=
  [.loadMem r2 r1 0 half, .loadMem r3 r1 0 word, .alu32Imm Alu.rsh r3 16, .loadMem r4 r1 4 word,
    .loadMem r5 r1 8 word]

/-- The number of instructions the context loads take. -/
def initLen : Nat := 5

def new : Program := ⟨[], false, false⟩

/-- `instruction_count`. -/
def instructionCount (self : Program) : Nat := initLen + (self.blocks.map List.length).sum

/-- `append_device`: adds the block of `rule`, unless a rule that matches everything is there
already. -/
def appendDevice (self : Program) (rule : DeviceRule) : Except RuleError Program :=
  if self.finalized then .error .finalized
  else if self.hasWildCard then .ok self
  else do
    let checks ← ruleMatch rule
    .ok { self with
      blocks := self.blocks ++ [checks.block]
      hasWildCard := checks.matchesAll }

/-- Where each block's successor starts, the first block starting at `cursor`. -/
def nextStarts (cursor : Nat) : List (List Step) → List Nat
  | [] => []
  | block :: rest =>
    let next := cursor + slots (block.map Step.instruction)
    next :: nextStarts next rest

/-- The instructions of one block that starts at `position`, its jumps resolved to `next`. -/
def placeSteps (next : Nat) : Nat → List Step → List Instruction
  | _, [] => []
  | position, step :: rest =>
    let instruction :=
      if step.toNextBlock then { step.instruction with offset := jumpOffset next position }
      else step.instruction
    instruction :: placeSteps next (position + instruction.width) rest

/-- The instructions of the blocks from `position` on. -/
def placeBlocks : Nat → List (List Step × Nat) → List Instruction
  | _, [] => []
  | position, (block, next) :: rest =>
    placeSteps next position block ++
      placeBlocks (position + slots (block.map Step.instruction)) rest

/-- `layout`: `head`, the program and `tail`, with the jumps resolved. -/
def layout (self : Program) (head tail : List Instruction) : List Instruction :=
  let front := head ++ init
  let position := slots front
  front ++ placeBlocks position (self.blocks.zip (nextStarts position self.blocks)) ++ tail

/-- Appends the blocks of `rules`, given in the order they are appended. -/
def appendAll (self : Program) (rules : List DeviceRule) : Except RuleError Program :=
  rules.foldlM appendDevice self

end Program

end Filter
end Sda
