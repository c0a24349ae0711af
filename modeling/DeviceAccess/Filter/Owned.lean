import DeviceAccess.Filter.Builder

/-!
# The daemon's own device filter (`src/cgroup/owned.rs`)

The runtime's program wrapped as header, context loads, rule blocks, trailer and original. Header
and trailer are dead stores to `R0` that carry two magic words, a format version, the nonce of the
wrapper lineage, the first 128 bits of the SHA-256 of the original and the index of the trailer.

* `emitOwned` builds a wrapper, `parseOwned` takes one apart. A program is the daemon's own only
  when the wrapper regenerates byte for byte from what was parsed out of it; a program that starts
  like a header and does not is a conflict.
* `checkWrappable` is the gate that decides which originals may be wrapped at all.

The hash function is a parameter: `sha256` is the `sha2` package's.
-/

namespace Sda
namespace Filter

open Asm Bytes

/-- `"SDA_"`, little-endian. -/
def magicLo : BitVec 32 := 0x5f414453
/-- `"DBLK"`, little-endian. -/
def magicHi : BitVec 32 := 0x4b4c4244
def formatVersion : BitVec 32 := 1

def headerLen : Nat := 10
def trailerLen : Nat := 4

def hdrMagicHi : Nat := 1
def hdrVersion : Nat := 2
def hdrNonceLo : Nat := 3
def hdrNonceHi : Nat := 4
def hdrDigest : Nat := 5
def hdrBlockLen : Nat := 9

/-- The wildcard number of a rule that is read back. -/
def wildcard : Int := -1

/-- A validated wrapper taken apart. -/
structure OwnedProgram where
  nonce : BitVec 64
  /-- The rules the wrapper grants, in the order they were given. -/
  rules : List DeviceRule
  /-- The canonical bytes of the wrapped original. -/
  original : Bytes
  deriving DecidableEq, Repr

/-- An instruction that does not encode, with its index. -/
structure CanonicalError where
  index : Nat
  cause : EncodeCause
  deriving DecidableEq, Repr

/-- Why a wrapper cannot be emitted. -/
inductive EmitError where
  | decode (error : DecodeError)
  | rule (error : RuleError)
  | encode (index : Nat) (cause : EncodeCause)
  deriving DecidableEq, Repr

/-- Why the rule blocks of a wrapper do not parse. -/
inductive RuleBlock where
  | deviceType (value : BitVec 64)
  | accessMask
  | accessCheck
  | missingVerdict
  | verdict
  | missingExit
  deriving DecidableEq, Repr

/-- Why a program that starts like a wrapper is not one. -/
inductive Conflict where
  | header
  | headerField (index : Nat)
  | magicOrVersion
  | blockLen (value : BitVec 32)
  | trailer
  | ruleBlock (cause : RuleBlock)
  | original (error : CanonicalError)
  | digest
  | regenerated (error : Option EmitError)
  deriving DecidableEq, Repr

/-- Why a program's bytes cannot be taken apart. -/
inductive OwnedError where
  | decode (error : DecodeError)
  | conflict (cause : Conflict)
  deriving DecidableEq, Repr

def OwnedError.isConflict : OwnedError → Bool
  | .conflict _ => true
  | .decode _ => false

/-- `canonical_bytes`: the raw kernel bytes, the form every comparison and digest uses. -/
def canonicalBytes (instructions : List Instruction) : Except CanonicalError Bytes :=
  encodeFrom CanonicalError.mk 0 instructions

/-! ## Markers -/

/-- The dead store of `value` the header and the trailer are made of. -/
def marker (value : BitVec 32) : Instruction := .alu32Imm Alu.mov r0 value

/-- The value of a dead-store marker. -/
def markerValue (instruction : Instruction) : Option (BitVec 32) :=
  if instruction.opcode = OpCode.alu32 Alu.mov immSource ∧ instruction.dst = r0 ∧
      instruction.src = r0 ∧ instruction.offset = 0 then
    some (lowU32 instruction.constant)
  else none

/-! ## Reading rule blocks back -/

/-- An instruction that compares `dst` with an immediate. -/
def isJumpImm (instruction : Instruction) (op : BitVec 32) (dst : Register) : Bool :=
  instruction.opcode = OpCode.jump op immSource ∧ instruction.dst = dst

/-- `next_if`: the first element when it passes `test`, and what is left. -/
def nextIf (test : Instruction → Bool) : List Instruction → Option Instruction × List Instruction
  | [] => (none, [])
  | next :: rest => if test next then (some next, rest) else (none, next :: rest)

/-- The fields a block sets in the rule; `none` keeps the default, which matches everything. -/
structure BlockFields where
  kind : Option DeviceType
  access : Option (BitVec 64)
  major : Option (BitVec 64)
  minor : Option (BitVec 64)
  allow : Bool
  deriving DecidableEq, Repr

/-- A `BPF_DEVCG_ACC_*` mask as `rwm` letters. -/
def bpfAccessString (mask : BitVec 64) : String :=
  String.ofList (([(accRead, 'r'), (accWrite, 'w'), (accMknod, 'm')].filter
    fun (bit, _) => mask &&& bit.setWidth 64 ≠ 0).map Prod.snd)

/-- The type letter of a rule; every type by default. -/
def kindName : Option DeviceType → String
  | some .char => "c"
  | some .block => "b"
  | none => "a"

/-- The rule of a block. -/
def BlockFields.rule (self : BlockFields) : DeviceRule where
  allow := self.allow
  kind := kindName self.kind
  major := some (self.major.elim wildcard BitVec.toInt)
  minor := some (self.minor.elim wildcard BitVec.toInt)
  access := self.access.elim "rwm" bpfAccessString

/-- The device type of a type check. -/
def blockKind : Option Instruction → Except RuleBlock (Option DeviceType)
  | none => .ok none
  | some check =>
    if check.constant = DeviceType.char.code.signExtend 64 then .ok (some .char)
    else if check.constant = DeviceType.block.code.signExtend 64 then .ok (some .block)
    else .error (.deviceType check.constant)

/-- The mask of an access check, which is three instructions long. -/
def blockAccess (rest : List Instruction) :
    Except RuleBlock (Option (BitVec 64) × List Instruction) :=
  match nextIf (fun next => next.opcode = OpCode.alu32 Alu.mov regSource ∧ next.dst = r6) rest with
  | (none, rest) => .ok (none, rest)
  | (some _, rest) =>
    match rest with
    | [] => .error .accessMask
    | mask :: rest =>
      if mask.opcode = OpCode.alu32 Alu.and immSource ∧ mask.dst = r6 then
        match rest with
        | [] => .error .accessCheck
        | _ :: rest => .ok (some mask.constant, rest)
      else .error .accessMask

/-- The verdict and the exit that end a block. -/
def blockVerdict : List Instruction → Except RuleBlock (Bool × List Instruction)
  | [] => .error .missingVerdict
  | verdict :: rest =>
    if markerValue verdict = some 0 ∨ markerValue verdict = some 1 then
      match rest with
      | [] => .error .missingExit
      | exit :: rest =>
        if exit.opcode = OpCode.jump Jmp.exit immSource then
          .ok (markerValue verdict = some 1, rest)
        else .error .missingExit
    else .error .verdict

/-- One round of `parse_rule_blocks`: the first block, and what follows it. -/
def readBlock (rest : List Instruction) : Except RuleBlock (BlockFields × List Instruction) := do
  let (typeCheck, rest) := nextIf (isJumpImm · Jmp.jne r2) rest
  let kind ← blockKind typeCheck
  let (access, rest) ← blockAccess rest
  let (major, rest) := nextIf (isJumpImm · Jmp.jne r4) rest
  let (minor, rest) := nextIf (isJumpImm · Jmp.jne r5) rest
  let (allow, rest) ← blockVerdict rest
  .ok (⟨kind, access, major.map Instruction.constant, minor.map Instruction.constant, allow⟩, rest)

/-- The loop of `parse_rule_blocks`; `fuel` bounds the blocks that are left, and the number of
instructions is always enough. -/
def readBlocks : Nat → List Instruction → Except RuleBlock (List BlockFields)
  | 0, _ => .ok []
  | fuel + 1, instructions =>
    if instructions = [] then .ok []
    else do
      let (block, rest) ← readBlock instructions
      let blocks ← readBlocks fuel rest
      .ok (block :: blocks)

/-- `parse_rule_blocks`: the candidate rules of the blocks `append_device` emits, which is fed the
rules last to first. -/
def parseRuleBlocks (instructions : List Instruction) : Except RuleBlock (List DeviceRule) := do
  let blocks ← readBlocks instructions.length instructions
  .ok (blocks.map BlockFields.rule).reverse

/-! ## Wrappers -/

section Wrappers

variable (sha256 : Bytes → Vector Byte 32)

/-- The first 128 bits of the SHA-256 of `original`, as four little-endian words. -/
def digestOf (original : Bytes) : List (BitVec 32) :=
  let sum := sha256 original
  [of32 sum[0] sum[1] sum[2] sum[3], of32 sum[4] sum[5] sum[6] sum[7],
    of32 sum[8] sum[9] sum[10] sum[11], of32 sum[12] sum[13] sum[14] sum[15]]

/-- The low word of a nonce. -/
def nonceLo (nonce : BitVec 64) : BitVec 32 := nonce.extractLsb' 0 32

/-- The high word of a nonce. -/
def nonceHi (nonce : BitVec 64) : BitVec 32 := nonce.extractLsb' 32 32

/-- The block length of the header: the index of the trailer, or `u32::MAX` beyond 32 bits. -/
def blockLen (index : Nat) : BitVec 32 :=
  if index ≤ u32Max then BitVec.ofNat 32 index else BitVec.ofNat 32 u32Max

/-- The values of the header, for a trailer at `index`. -/
def headerValues (nonce : BitVec 64) (original : Bytes) (index : Nat) : List (BitVec 32) :=
  [magicLo, magicHi, formatVersion, nonceLo nonce, nonceHi nonce] ++ digestOf sha256 original ++
    [blockLen index]

/-- The values of the trailer. -/
def trailerValues (nonce : BitVec 64) : List (BitVec 32) :=
  [magicLo, magicHi, nonceLo nonce, nonceHi nonce]

/-- `emit_owned`: the wrapper for `rules` around the canonical `original`. -/
def emitOwned (rules : List DeviceRule) (nonce : BitVec 64) (original : Bytes) :
    Except EmitError Bytes := do
  let originalInstructions ← (decode original).mapError .decode
  if originalInstructions = [] then .error (.rule .noOriginal)
  else do
    let body ← (Program.new.appendAll rules.reverse).mapError .rule
    let header := headerValues sha256 nonce original (headerLen + body.instructionCount)
    -- The last rule block falls through to the trailer, and that to the original.
    let tail := (trailerValues nonce).map marker ++ originalInstructions
    encodeFrom .encode 0 (body.layout (header.map marker) tail)

/-- The values of the header markers from field `index` on. -/
def readHeader (index : Nat) : List Instruction → Except Conflict (List (BitVec 32))
  | [] => .ok []
  | instruction :: rest =>
    match markerValue instruction with
    | none => .error (.headerField index)
    | some value => do
      let values ← readHeader (index + 1) rest
      .ok (value :: values)

/-- Header field `index`. -/
def field (header : List (BitVec 32)) (index : Nat) : BitVec 32 := header.getD index 0

/-- The nonce of the header. -/
def headerNonce (header : List (BitVec 32)) : BitVec 64 :=
  (field header hdrNonceLo).setWidth 64 ||| ((field header hdrNonceHi).setWidth 64 <<< 32)

/-- Whether `trailer` carries the values `want`. -/
def trailerMatches (trailer : List Instruction) (want : List (BitVec 32)) : Bool :=
  (trailer.zip want).all fun pair => markerValue pair.1 = some pair.2

/-- The regeneration check of `validate_owned`. -/
def regenerate (owned : OwnedProgram) (raw : Bytes) : Except Conflict OwnedProgram :=
  match emitOwned sha256 owned.rules owned.nonce owned.original with
  | .error error => .error (.regenerated (some error))
  | .ok regenerated => if regenerated ≠ raw then .error (.regenerated none) else .ok owned

/-- The part of `validate_owned` after the header: the trailer at `blockLen`, the rule blocks and
the original, and whether the wrapper regenerates from them. -/
def validateBody (header : List (BitVec 32)) (blockLen : Nat) (instructions : List Instruction)
    (raw : Bytes) : Except Conflict OwnedProgram :=
  let want := [magicLo, magicHi, field header hdrNonceLo, field header hdrNonceHi]
  if ¬ trailerMatches ((instructions.drop blockLen).take trailerLen) want then .error .trailer
  else do
    let rules ← (parseRuleBlocks ((instructions.take blockLen).drop
      (headerLen + Program.initLen))).mapError .ruleBlock
    let original ← (canonicalBytes (instructions.drop (blockLen + trailerLen))).mapError .original
    if digestOf sha256 original ≠ (header.take hdrBlockLen).drop hdrDigest then .error .digest
    else regenerate sha256 ⟨headerNonce header, rules, original⟩ raw

/-- `validate_owned`: takes a program that starts like a header apart. -/
def validateOwned (instructions : List Instruction) (raw : Bytes) :
    Except Conflict OwnedProgram :=
  if instructions.length < headerLen then .error .header
  else do
    let header ← readHeader 0 (instructions.take headerLen)
    if field header hdrMagicHi ≠ magicHi ∨ field header hdrVersion ≠ formatVersion then
      .error .magicOrVersion
    else
      let blockLen := (field header hdrBlockLen).toNat
      if blockLen < headerLen + Program.initLen ∨ instructions.length ≤ blockLen + trailerLen then
        .error (.blockLen (field header hdrBlockLen))
      else validateBody sha256 header blockLen instructions raw

/-- `parse_owned`: `none` when the program does not start like a header. -/
def parseOwned (raw : Bytes) : Except OwnedError (Option OwnedProgram) := do
  let instructions ← (decode raw).mapError .decode
  match instructions with
  | [] => .ok none
  | first :: _ =>
    if markerValue first ≠ some magicLo then .ok none
    else ((validateOwned sha256 instructions raw).map some).mapError .conflict

end Wrappers

/-! ## The gate -/

/-- What the gate needs to know about a program besides its code. -/
structure ProgMeta where
  /-- Whether the kernel told the program's map IDs. -/
  mapIdsKnown : Bool
  /-- How many maps the program uses. -/
  mapCount : Nat
  deriving DecidableEq, Repr

/-- Why a program cannot be wrapped. -/
inductive GateError where
  | mapIdsUnavailable
  | usesMaps (count : Nat)
  | empty
  | instruction (index : Nat) (instruction : Instruction)
  | jumpsOut (index : Nat)
  deriving DecidableEq, Repr

/-- The instructions whose translated dump loads back unchanged. -/
def inSubset (instruction : Instruction) : Bool :=
  let opcode := instruction.opcode
  match opcode.opClass with
  | .ldX =>
    opcode.mode = modeMem ∧ instruction.src = r1 ∧
      (instruction.offset = 0 ∨ instruction.offset = 4 ∨ instruction.offset = 8)
  -- A non-zero offset turns `mov` into a sign-extending move.
  | .alu | .alu64 =>
    opcode.aluOp ∈ [Alu.mov, Alu.and, Alu.or, Alu.rsh, Alu.lsh] ∧ instruction.offset = 0
  | .jump | .jump32 =>
    if opcode.jumpOp ∈ [Jmp.jeq, Jmp.jne, Jmp.jgt, Jmp.jge, Jmp.jlt, Jmp.jle, Jmp.jset, Jmp.jsgt,
        Jmp.jsge, Jmp.jslt, Jmp.jsle] then true
    -- A `jump32` exit is not an instruction, a `jump32` ja is a long jump.
    else if opcode.jumpOp = Jmp.exit ∨ opcode.jumpOp = Jmp.ja then opcode.opClass = .jump
    else false
  | .ld | .st | .stX => false

/-- The loop of the gate from instruction `index` on, in a program of `len` instructions. -/
def checkInstructions (len : Nat) : Nat → List Instruction → Except GateError Unit
  | _, [] => .ok ()
  | index, instruction :: rest =>
    if ¬ inSubset instruction then .error (.instruction index instruction)
    else
      let opcode := instruction.opcode
      let target : Int := index + instruction.offset.toInt + 1
      if opcode.opClass.isJump ∧ opcode.jumpOp ≠ Jmp.exit ∧ ¬ (0 ≤ target ∧ target < len) then
        .error (.jumpsOut index)
      else checkInstructions len (index + 1) rest

/-- `check_wrappable`: the reloadability gate. -/
def checkWrappable (instructions : List Instruction) (progMeta : ProgMeta) :
    Except GateError Unit :=
  if ¬ progMeta.mapIdsKnown then .error .mapIdsUnavailable
  else if 0 < progMeta.mapCount then .error (.usesMaps progMeta.mapCount)
  else if instructions = [] then .error .empty
  else checkInstructions instructions.length 0 instructions

end Filter
end Sda
