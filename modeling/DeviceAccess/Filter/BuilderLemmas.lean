import DeviceAccess.Filter.Builder
import DeviceAccess.Asm.Stream

/-!
# Lemmas about the device filter builder

* `compile`: the rules an `appendAll` keeps, read (`appendAll_eq`): everything after a rule that
  matches everything is ignored.
* `RuleMatch.code`: the instructions of a block, the same wherever it is placed
  (`layout_ofMatches`).
* `wire_code`, `wire_init`: the builder's instructions go over the wire unchanged.
-/

namespace Sda
namespace Filter

open Asm

/-! ## What is appended -/

/-- What is appended for `rules`, given in the order they are appended. -/
def compile : List DeviceRule → Except RuleError (List RuleMatch)
  | [] => .ok []
  | rule :: rest => do
    let checks ← ruleMatch rule
    if checks.matchesAll then .ok [checks]
    else do
      let more ← compile rest
      .ok (checks :: more)

/-- The program with the blocks of `ms`. -/
def Program.ofMatches (ms : List RuleMatch) : Program :=
  ⟨ms.map RuleMatch.block, ms.any RuleMatch.matchesAll, false⟩

theorem appendAll_hasWildCard {p : Program} (hf : p.finalized = false)
    (hw : p.hasWildCard = true) (rules : List DeviceRule) : p.appendAll rules = .ok p := by
  induction rules with
  | nil => rfl
  | cons rule rest ih =>
    have happ : p.appendDevice rule = .ok p := by simp [Program.appendDevice, hf, hw]
    rw [Program.appendAll, List.foldlM_cons, happ]
    exact ih

/-- Appending to a program without a match-everything rule. -/
theorem appendAll_ofMatches {ms : List RuleMatch} (h : ms.any RuleMatch.matchesAll = false)
    (rules : List DeviceRule) :
    (Program.ofMatches ms).appendAll rules =
      (compile rules).map fun more => Program.ofMatches (ms ++ more) := by
  induction rules generalizing ms with
  | nil => simp [Program.appendAll, compile, pure, Except.pure, Except.map]
  | cons rule rest ih =>
    cases hm : ruleMatch rule with
    | error e =>
      simp [Program.appendAll, List.foldlM_cons, Program.appendDevice, Program.ofMatches, h, hm,
        compile, bind, Except.bind, Except.map]
    | ok m =>
      have happ : (Program.ofMatches ms).appendDevice rule = .ok
          (Program.ofMatches (ms ++ [m])) := by
        simp [Program.appendDevice, Program.ofMatches, h, hm, bind, Except.bind]
      rw [Program.appendAll, List.foldlM_cons, happ, compile, hm]
      simp only [bind, Except.bind]
      cases hall : m.matchesAll with
      | true =>
        have hw : (Program.ofMatches (ms ++ [m])).hasWildCard = true := by
          simp [Program.ofMatches, hall]
        exact appendAll_hasWildCard rfl hw rest
      | false =>
        have hms : (ms ++ [m]).any RuleMatch.matchesAll = false := by simp [h, hall]
        have hrest := ih hms
        rw [Program.appendAll] at hrest
        rw [hrest]
        cases compile rest with
        | error e => rfl
        | ok more =>
          simp only [Bool.false_eq_true, if_false, Except.map, List.append_assoc,
            List.singleton_append]

/-- `append_device` over a list of rules keeps what `compile` says. -/
theorem appendAll_eq (rules : List DeviceRule) :
    Program.new.appendAll rules = (compile rules).map Program.ofMatches := by
  have h : ([] : List RuleMatch).any RuleMatch.matchesAll = false := rfl
  exact appendAll_ofMatches h rules

/-! ## Numbers -/

private theorem numberCheck_neg {number : Int} (h : number < 0) : numberCheck number = none := by
  rw [numberCheck, if_neg (by omega)]

/-- A 32-bit immediate is read back as the number it was when it is below 2^31. -/
theorem numberCheck_toInt {v : BitVec 32} (h : v.msb = false) : numberCheck v.toInt = some v := by
  have hnn : 0 ≤ v.toInt := by rw [BitVec.toInt_eq_msb_cond, h]; simp
  rw [numberCheck, if_pos hnn, BitVec.ofInt_toInt]

theorem numberCheck_toInt_msb {v : BitVec 32} (h : v.msb = true) : numberCheck v.toInt = none := by
  apply numberCheck_neg
  have := BitVec.toInt_eq_msb_cond v
  rw [h, if_pos rfl] at this
  have := v.isLt
  omega

theorem toInt_le_u32Max (v : BitVec 32) : v.toInt ≤ u32Max := by
  have := BitVec.toInt_lt (x := v)
  simp only [u32Max]
  omega

/-! ## The code of a block -/

/-- The instructions of a block, jumps resolved to the instruction after it. -/
def RuleMatch.code (m : RuleMatch) : List Instruction :=
  Program.placeSteps m.block.length 0 m.block

/-- The code of all blocks. -/
def codes (ms : List RuleMatch) : List Instruction := ms.flatMap RuleMatch.code

@[simp] theorem codes_nil : codes [] = [] := rfl

@[simp] theorem codes_cons (m : RuleMatch) (ms : List RuleMatch) :
    codes (m :: ms) = m.code ++ codes ms := rfl

theorem jumpOffset_add (p target position : Nat) :
    jumpOffset (p + target) (p + position) = jumpOffset target position := by
  have h : BitVec.ofNat 64 (p + target) - BitVec.ofNat 64 (p + position) =
      BitVec.ofNat 64 target - BitVec.ofNat 64 position := by
    rw [BitVec.ofNat_add, BitVec.ofNat_add]
    bv_omega
  rw [jumpOffset, jumpOffset, h]

theorem placeSteps_add (p next position : Nat) (steps : List Step) :
    Program.placeSteps (p + next) (p + position) steps =
      Program.placeSteps next position steps := by
  induction steps generalizing position with
  | nil => rfl
  | cons step rest ih =>
    simp only [Program.placeSteps, jumpOffset_add]
    rw [Nat.add_assoc, ih]

private theorem placeSteps_length (next position : Nat) (steps : List Step) :
    (Program.placeSteps next position steps).length = steps.length := by
  induction steps generalizing position with
  | nil => rfl
  | cons step rest ih => simp only [Program.placeSteps, List.length_cons, ih]

theorem code_length (m : RuleMatch) : m.code.length = m.block.length := placeSteps_length ..

theorem checks_length_le (m : RuleMatch) : m.checks.length ≤ 6 := by
  have hone : ∀ o : Option Step, o.toList.length ≤ 1 := by intro o; cases o <;> simp
  have hacc : m.accessSteps.length ≤ 3 := by unfold RuleMatch.accessSteps; split <;> simp
  have htype := hone (m.deviceType.map fun type => RuleMatch.numberStep r2 type.code)
  have hmaj := hone (m.major.map (RuleMatch.numberStep r4))
  have hmin := hone (m.minor.map (RuleMatch.numberStep r5))
  simp only [RuleMatch.checks, List.length_append]
  omega

theorem block_length (m : RuleMatch) : m.block.length = m.checks.length + 2 := by
  rw [RuleMatch.block, List.length_append]
  rfl

/-- The kinds of step a block is made of. -/
inductive BlockStep : Step → Prop
  | number (dst : Register) (value : BitVec 32) (hd : dst.toNat < 16) :
      BlockStep (RuleMatch.numberStep dst value)
  | copy : BlockStep (.plain (.alu32Reg Alu.mov r6 r3))
  | mask (access : BitVec 32) : BlockStep (.plain (.alu32Imm Alu.and r6 access))
  | contained : BlockStep (.jump (.jumpReg Jmp.jne r6 r3 (-1)))
  | verdict (allow : Bool) : BlockStep (.plain (.alu32Imm Alu.mov r0 (if allow then 1 else 0)))
  | exit : BlockStep (.plain .exit)

theorem blockStep_of_mem {m : RuleMatch} {step : Step} (hs : step ∈ m.block) : BlockStep step := by
  simp only [RuleMatch.block, RuleMatch.checks, RuleMatch.accessSteps, List.mem_append,
    Option.mem_toList, Option.map_eq_some_iff, List.mem_cons, List.not_mem_nil, or_false] at hs
  rcases hs with (((⟨_, _, rfl⟩ | hs) | ⟨_, _, rfl⟩) | ⟨_, _, rfl⟩) | rfl | rfl
  · exact .number _ _ (by decide)
  · split at hs
    · simp only [List.mem_cons, List.not_mem_nil, or_false] at hs
      rcases hs with rfl | rfl | rfl
      · exact .copy
      · exact .mask _
      · exact .contained
    · cases hs
  · exact .number _ _ (by decide)
  · exact .number _ _ (by decide)
  · exact .verdict _
  · exact .exit

/-- An instruction of a placed block is one of its steps, with the offset of a jump filled in. -/
theorem mem_placeSteps {next position : Nat} {steps : List Step} {i : Instruction}
    (hi : i ∈ Program.placeSteps next position steps) :
    ∃ step ∈ steps, i = step.instruction ∨
      step.toNextBlock = true ∧ ∃ offset, i = { step.instruction with offset := offset } := by
  induction steps generalizing position with
  | nil => cases hi
  | cons step rest ih =>
    simp only [Program.placeSteps, List.mem_cons] at hi
    rcases hi with rfl | hi
    · refine ⟨step, List.mem_cons_self, ?_⟩
      split
      · exact .inr ⟨‹_›, _, rfl⟩
      · exact .inl rfl
    · obtain ⟨s, hs, h⟩ := ih hi
      exact ⟨s, List.mem_cons_of_mem _ hs, h⟩

theorem mem_code {m : RuleMatch} {i : Instruction} (hi : i ∈ m.code) :
    ∃ step, BlockStep step ∧ (i = step.instruction ∨
      step.toNextBlock = true ∧ ∃ offset, i = { step.instruction with offset := offset }) := by
  obtain ⟨step, hs, h⟩ := mem_placeSteps hi
  exact ⟨step, blockStep_of_mem hs, h⟩

theorem slots_eq_length {is : List Instruction} (h : ∀ i ∈ is, i.width = 1) :
    slots is = is.length := by
  induction is with
  | nil => rfl
  | cons i is ih =>
    have hrest := ih fun j hj => h j (List.mem_cons_of_mem _ hj)
    rw [slots, List.map_cons, List.sum_cons, h i List.mem_cons_self, ← slots, hrest,
      List.length_cons, Nat.add_comm]

/-- Every instruction of a block takes one slot. -/
theorem width_block {m : RuleMatch} : ∀ step ∈ m.block, step.instruction.width = 1 := by
  intro step hs
  cases blockStep_of_mem hs <;> rfl

private theorem slots_block (m : RuleMatch) :
    slots (m.block.map Step.instruction) = m.block.length := by
  rw [slots_eq_length, List.length_map]
  intro i hi
  obtain ⟨step, hs, rfl⟩ := List.mem_map.mp hi
  exact width_block step hs

theorem placeBlocks_eq (p : Nat) (ms : List RuleMatch) :
    Program.placeBlocks p ((ms.map RuleMatch.block).zip
      (Program.nextStarts p (ms.map RuleMatch.block))) = codes ms := by
  induction ms generalizing p with
  | nil => rfl
  | cons m ms ih =>
    simp only [List.map_cons, Program.nextStarts, List.zip_cons_cons, Program.placeBlocks,
      slots_block, codes_cons]
    rw [ih, RuleMatch.code, ← placeSteps_add p m.block.length 0 m.block, Nat.add_zero]

/-- `layout` puts the code of the blocks between the context loads and `tail`. -/
theorem layout_ofMatches (ms : List RuleMatch) (head tail : List Instruction) :
    (Program.ofMatches ms).layout head tail = head ++ Program.init ++ codes ms ++ tail := by
  simp only [Program.layout, Program.ofMatches, placeBlocks_eq]

theorem instructionCount_ofMatches (ms : List RuleMatch) :
    (Program.ofMatches ms).instructionCount = Program.initLen + (codes ms).length := by
  have h : ((ms.map RuleMatch.block).map List.length).sum = (codes ms).length := by
    induction ms with
    | nil => rfl
    | cons m ms ih =>
      simp only [List.map_cons, List.sum_cons, ih, codes_cons, List.length_append, code_length]
  rw [Program.instructionCount, Program.ofMatches, h]

/-! ## On the wire -/

theorem wire_jump {op : Byte} {dst src : Register} (offset : BitVec 16) (value : BitVec 32)
    (hop : op = 0x55 ∨ op = 0x5d ∨ op = 0x95) (hd : dst.toNat < 16) (hs : src.toNat < 16) :
    Wire ⟨ofByte op, dst, src, offset, value.signExtend 64⟩ := by
  refine wire_of_plain value ?_ hd hs
  rcases hop with rfl | rfl | rfl <;>
    exact ⟨by decide, by decide, by decide, by decide, fun h => absurd h (by decide)⟩

theorem wire_alu {op : Byte} {dst src : Register} (value : BitVec 32)
    (hop : op = 0xb4 ∨ op = 0xbc ∨ op = 0x54 ∨ op = 0x74) (hd : dst.toNat < 16)
    (hs : src.toNat < 16) : Wire ⟨ofByte op, dst, src, 0, value.signExtend 64⟩ := by
  refine wire_of_plain value ?_ hd hs
  rcases hop with rfl | rfl | rfl | rfl <;>
    exact ⟨by decide, by decide, by decide, by decide, fun _ => rfl⟩

theorem wire_mov_imm (dst : Register) (value : BitVec 32) (hd : dst.toNat < 16) :
    Wire (.alu32Imm Alu.mov dst value) :=
  wire_alu value (.inl rfl) hd (by decide)

private theorem wire_jne_imm (dst : Register) (value : BitVec 32) (offset : BitVec 16)
    (hd : dst.toNat < 16) : Wire (.jumpImm Jmp.jne dst value offset) :=
  wire_jump offset value (.inl rfl) hd (by decide)

theorem wire_init : ∀ i ∈ Program.init, Wire i := by
  have hload : ∀ (op : Byte) (dst : Register) (offset : BitVec 16), op = 0x69 ∨ op = 0x61 →
      dst.toNat < 16 → Wire ⟨ofByte op, dst, r1, offset, (0 : BitVec 32).signExtend 64⟩ := by
    intro op dst offset hop hd
    refine wire_of_plain 0 ?_ hd (by decide)
    rcases hop with rfl | rfl <;>
      exact ⟨by decide, by decide, by decide, by decide, fun h => absurd h (by decide)⟩
  intro i hi
  simp only [Program.init, List.mem_cons, List.not_mem_nil, or_false] at hi
  rcases hi with rfl | rfl | rfl | rfl | rfl
  · exact hload 0x69 r2 0 (.inl rfl) (by decide)
  · exact hload 0x61 r3 0 (.inr rfl) (by decide)
  · exact wire_alu 16 (.inr (.inr (.inr rfl))) (by decide) (by decide)
  · exact hload 0x61 r4 4 (.inr rfl) (by decide)
  · exact hload 0x61 r5 8 (.inr rfl) (by decide)

theorem wire_code (m : RuleMatch) : ∀ i ∈ m.code, Wire i := by
  intro i hi
  obtain ⟨step, hs, rfl | ⟨hj, offset, rfl⟩⟩ := mem_code hi
  · cases hs with
    | number dst value hd => exact wire_jne_imm dst value _ hd
    | copy => exact wire_alu 0 (.inr (.inl rfl)) (by decide) (by decide)
    | mask access => exact wire_alu access (.inr (.inr (.inl rfl))) (by decide) (by decide)
    | contained => exact wire_jump _ 0 (.inr (.inl rfl)) (by decide) (by decide)
    | verdict allow => exact wire_mov_imm r0 _ (by decide)
    | exit => exact wire_jump 0 0 (.inr (.inr rfl)) (by decide) (by decide)
  · cases hs with
    | number dst value hd => exact wire_jne_imm dst value offset hd
    | contained => exact wire_jump offset 0 (.inr (.inl rfl)) (by decide) (by decide)
    | copy | mask | verdict | exit => cases hj

theorem wire_codes (ms : List RuleMatch) : ∀ i ∈ codes ms, Wire i := by
  intro i hi
  obtain ⟨m, -, hm⟩ := List.mem_flatMap.mp hi
  exact wire_code m i hm

end Filter
end Sda
