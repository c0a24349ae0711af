import DeviceAccess.Filter.Gate
import DeviceAccess.Filter.Innermost

/-!
# What the gate accepts can be wrapped

`emit_owned` computes jumps in slots and cuts them to 16 bits, while the gate counts instructions.
Neither matters: a program of the subset has no instruction of two slots (`width_of_inSubset`), a
rule block has at most eight instructions (`block_length_le`), and the jumps of the original keep
their offsets, since everything they can reach moves with them.

`wrapped_passes_gate`: an accepted original can be wrapped with every rule list the builder accepts,
the wrapper is accepted in turn, and every jump in it lands where it should (`Laid`).
-/

namespace Sda
namespace Filter

open Asm

/-! ## Where jumps land -/

/-- An instruction with a jump target: a jump other than `exit`. -/
def jumps (i : Instruction) : Bool := i.opcode.opClass.isJump && i.opcode.jumpOp ≠ Jmp.exit

/-- The jump at instruction `k` of `code` lands on instruction `j`. The kernel counts slots. -/
def Lands (code : List Instruction) (k j : Nat) : Prop :=
  j < code.length ∧ ∃ i, code[k]? = some i ∧
    (slots (code.take j) : Int) = slots (code.take k) + 1 + i.offset.toInt

/-- Where block `b` of the program starts in a wrapper; for the number of blocks, the trailer. -/
def blockStart (program : Program) (b : Nat) : Nat :=
  headerLen + Program.initLen + ((program.blocks.take b).map List.length).sum

/-- `code` is a wrapper with the blocks of `program` around `is`, and its jumps are right. -/
structure Laid (program : Program) (nonce : BitVec 64) (is code : List Instruction) : Prop where
  /-- The blocks follow each other, only the offsets of their jumps are filled in, and each of these
  jumps lands on the first instruction after the block. -/
  blocks : ∀ b block, program.blocks[b]? = some block → ∀ k step, block[k]? = some step →
    ∃ i, code[blockStart program b + k]? = some i ∧
      { i with offset := step.instruction.offset } = step.instruction ∧
      (jumps i = false → i = step.instruction) ∧
      (jumps i = true → Lands code (blockStart program b + k) (blockStart program (b + 1)))
  trailer : (code.drop (blockStart program program.blocks.length)).take trailerLen =
    (trailerValues nonce).map marker
  original : code.drop (blockStart program program.blocks.length + trailerLen) = is
  /-- A jump of the original lands on the instruction it landed on before. -/
  jumps : ∀ k i, is[k]? = some i → jumps i = true → ∃ j, Lands is k j ∧
    Lands code (blockStart program program.blocks.length + trailerLen + k)
      (blockStart program program.blocks.length + trailerLen + j)

/-! ## The gate, instruction by instruction -/

/-- What the gate asks of instruction `index` in a program of `len` instructions. -/
def Passes (len index : Nat) (i : Instruction) : Prop :=
  inSubset i = true ∧ (jumps i = true → 0 ≤ index + i.offset.toInt + 1 ∧
    index + i.offset.toInt + 1 < len)

/-- The gate accepts the instructions of `is`, the first being instruction `index`. -/
def PassesFrom (len index : Nat) (is : List Instruction) : Prop :=
  ∀ k i, is[k]? = some i → Passes len (index + k) i

theorem checkInstructions_iff {len index : Nat} {is : List Instruction} :
    checkInstructions len index is = .ok () ↔ PassesFrom len index is := by
  induction is generalizing index with
  | nil => simp [checkInstructions, PassesFrom]
  | cons i is ih =>
    have hsplit : PassesFrom len index (i :: is) ↔
        Passes len index i ∧ PassesFrom len (index + 1) is := by
      constructor
      · intro h
        refine ⟨h 0 i rfl, fun k j hj => ?_⟩
        rw [Nat.add_assoc, Nat.add_comm 1 k]
        exact h (k + 1) j hj
      · rintro ⟨h0, h⟩ k j hj
        cases k with
        | zero => cases hj; exact h0
        | succ k =>
          have := h k j hj
          rwa [Nat.add_assoc, Nat.add_comm 1 k] at this
    rw [hsplit, ← ih, checkInstructions]
    by_cases hs : inSubset i = true
    · rw [if_neg (by simp [hs])]
      simp only
      by_cases hj : jumps i = true
      · simp only [jumps, Bool.and_eq_true, decide_eq_true_eq] at hj
        by_cases ht : 0 ≤ (index : Int) + i.offset.toInt + 1 ∧
          (index : Int) + i.offset.toInt + 1 < len
        · rw [if_neg fun h => h.2.2 ht]
          exact ⟨fun h => ⟨⟨hs, fun _ => ht⟩, h⟩, fun h => h.2⟩
        · rw [if_pos ⟨hj.1, hj.2, ht⟩]
          refine iff_of_false (fun hok => ?_) fun h => absurd (h.1.2 ?_) ht
          · cases hok
          · simp [jumps, hj.1, hj.2]
      · rw [if_neg fun h => hj (by simp [jumps, h.1, h.2.1])]
        exact ⟨fun h => ⟨⟨hs, fun h' => absurd h' hj⟩, h⟩, fun h => h.2⟩
    · rw [if_pos hs]
      refine iff_of_false (fun hok => ?_) fun h => absurd h.1.1 hs
      cases hok

theorem checkWrappable_iff {is : List Instruction} {progMeta : ProgMeta} :
    checkWrappable is progMeta = .ok () ↔ progMeta.mapIdsKnown = true ∧ progMeta.mapCount = 0 ∧
      is ≠ [] ∧ PassesFrom is.length 0 is := by
  rw [← checkInstructions_iff, checkWrappable]
  by_cases hk : progMeta.mapIdsKnown = true
  · rw [if_neg (by simp [hk])]
    by_cases hm : 0 < progMeta.mapCount
    · rw [if_pos hm]
      exact ⟨nofun, fun h => absurd h.2.1 (by omega)⟩
    · rw [if_neg hm]
      by_cases hn : is = []
      · rw [if_pos hn]
        exact ⟨nofun, fun h => absurd hn h.2.2.1⟩
      · rw [if_neg hn]
        exact ⟨fun h => ⟨hk, by omega, hn, h⟩, fun h => h.2.2.2⟩
  · rw [if_pos hk]
    exact ⟨nofun, fun h => absurd h.1 hk⟩

/-- An instruction of the subset takes one slot. -/
theorem width_of_inSubset {i : Instruction} (h : inSubset i = true) : i.width = 1 := by
  rw [Instruction.width]
  split
  · rename_i hd
    have hld : i.opcode.opClass = .ld := by
      rw [OpCode.isDwordLoad, decide_eq_true_eq] at hd
      rw [show i.opcode = OpCode.load modeImm dword from congrArg OpCode.mk hd]
      decide
    rw [inSubset, hld] at h
    cases h
  · rfl

/-- In a program of one-slot instructions slots and instructions are the same. -/
theorem lands_iff {code : List Instruction} (hw : ∀ i ∈ code, i.width = 1) {k j : Nat} :
    Lands code k j ↔ j < code.length ∧ ∃ i, code[k]? = some i ∧
      (j : Int) = k + 1 + i.offset.toInt := by
  have hslots : ∀ n ≤ code.length, slots (code.take n) = n := by
    intro n hn
    rw [slots_eq_length fun i hi => hw i (List.mem_of_mem_take hi), List.length_take]
    omega
  rw [Lands]
  refine and_congr_right fun hj => exists_congr fun i => and_congr_right fun hi => ?_
  have hk : k < code.length := (List.getElem?_eq_some_iff.mp hi).1
  rw [hslots j (by omega), hslots k (by omega)]

/-! ## Rule blocks -/

theorem block_length_le (m : RuleMatch) : m.block.length ≤ 8 := by
  have hchecks := checks_length_le m
  rw [block_length]
  omega

/-- The offsets of a block are not cut. -/
theorem jumpOffset_block : ∀ next ≤ 8, ∀ k < next,
    (jumpOffset next k).toInt = (next : Int) - k - 1 := by
  decide

theorem placeSteps_getElem? {next position : Nat} {steps : List Step}
    (hw : ∀ step ∈ steps, step.instruction.width = 1) (k : Nat) :
    (Program.placeSteps next position steps)[k]? = steps[k]?.map fun step =>
      if step.toNextBlock then
        { step.instruction with offset := jumpOffset next (position + k) }
      else step.instruction := by
  induction steps generalizing position k with
  | nil => rfl
  | cons step rest ih =>
    have hone : (if step.toNextBlock then
        { step.instruction with offset := jumpOffset next position }
        else step.instruction).width = 1 := by
      have := hw step List.mem_cons_self
      split <;> exact this
    rw [Program.placeSteps]
    cases k with
    | zero => rfl
    | succ k =>
      simp only [hone, List.getElem?_cons_succ]
      rw [ih fun s hs => hw s (List.mem_cons_of_mem _ hs), Nat.add_assoc, Nat.add_comm 1 k]

theorem inSubset_jump {i : Instruction} {op source : BitVec 32}
    (hi : i.opcode = OpCode.jump op source) (ho : op = Jmp.jne ∨ op = Jmp.exit)
    (hs : source = immSource ∨ source = regSource) : inSubset i = true := by
  have hc : (OpCode.jump op source).opClass = .jump ∧ (OpCode.jump op source).jumpOp = op := by
    rcases ho with rfl | rfl <;> rcases hs with rfl | rfl <;> decide
  rw [inSubset, hi]
  simp only [hc.1, hc.2]
  rcases ho with rfl | rfl <;> decide

theorem inSubset_alu {i : Instruction} {op source : BitVec 32}
    (hi : i.opcode = OpCode.alu32 op source) (ho : op = Alu.mov ∨ op = Alu.and ∨ op = Alu.rsh)
    (hs : source = immSource ∨ source = regSource) (hz : i.offset = 0) : inSubset i = true := by
  have hc : (OpCode.alu32 op source).opClass = .alu ∧ (OpCode.alu32 op source).aluOp = op := by
    rcases ho with rfl | rfl | rfl <;> rcases hs with rfl | rfl <;> decide
  rw [inSubset, hi]
  simp only [hc.1, hc.2, hz, and_true, decide_eq_true_eq]
  rcases ho with rfl | rfl | rfl <;> simp

/-- The steps of a block that are filled in are its jumps. -/
theorem BlockStep.jumps_eq {step : Step} (h : BlockStep step) :
    Filter.jumps step.instruction = step.toNextBlock := by
  have hop : ∀ op : OpCode, op = OpCode.jump Jmp.jne immSource ∨
    op = OpCode.jump Jmp.jne regSource →
      (op.opClass.isJump && decide (op.jumpOp ≠ Jmp.exit)) = true := by
    rintro op (rfl | rfl) <;> decide
  have hop' : ∀ op : OpCode, op = OpCode.alu32 Alu.mov regSource ∨
    op = OpCode.alu32 Alu.and immSource ∨
      op = OpCode.alu32 Alu.mov immSource ∨ op = OpCode.jump Jmp.exit immSource →
      (op.opClass.isJump && decide (op.jumpOp ≠ Jmp.exit)) = false := by
    rintro op (rfl | rfl | rfl | rfl) <;> decide
  cases h with
  | number => exact hop _ (.inl rfl)
  | copy => exact hop' _ (.inl rfl)
  | mask => exact hop' _ (.inr (.inl rfl))
  | contained => exact hop _ (.inr rfl)
  | verdict => exact hop' _ (.inr (.inr (.inl rfl)))
  | exit => exact hop' _ (.inr (.inr (.inr rfl)))

theorem BlockStep.inSubset {step : Step} (h : BlockStep step) (offset : BitVec 16) :
    Filter.inSubset (if step.toNextBlock then { step.instruction with offset := offset }
      else step.instruction) = true := by
  cases h with
  | number => exact @inSubset_jump _ Jmp.jne immSource rfl (.inl rfl) (.inl rfl)
  | copy => exact @inSubset_alu _ Alu.mov regSource rfl (.inl rfl) (.inr rfl) rfl
  | mask => exact @inSubset_alu _ Alu.and immSource rfl (.inr (.inl rfl)) (.inl rfl) rfl
  | contained => exact @inSubset_jump _ Jmp.jne regSource rfl (.inl rfl) (.inr rfl)
  | verdict => exact @inSubset_alu _ Alu.mov immSource rfl (.inl rfl) (.inl rfl) rfl
  | exit => exact @inSubset_jump _ Jmp.exit immSource rfl (.inr rfl) (.inl rfl)

private theorem passes_marker (value : BitVec 32) :
    inSubset (marker value) = true ∧ jumps (marker value) = false := by
  refine ⟨@inSubset_alu _ Alu.mov immSource rfl (.inl rfl) (.inl rfl) rfl, ?_⟩
  have hc : (OpCode.alu32 Alu.mov immSource).opClass.isJump = false := by decide
  exact Bool.and_eq_false_imp.mpr fun h => absurd (hc.symm.trans h) Bool.false_ne_true

private theorem passes_init : ∀ i ∈ Program.init, inSubset i = true ∧ jumps i = false := by
  intro i hi
  simp only [Program.init, List.mem_cons, List.not_mem_nil, or_false] at hi
  rcases hi with rfl | rfl | rfl | rfl | rfl <;> decide

/-- Step `k` of a block, as it is laid out. -/
theorem code_getElem? {m : RuleMatch} {k : Nat} {step : Step} (h : m.block[k]? = some step) :
    m.code[k]? = some (if step.toNextBlock then
      { step.instruction with offset := jumpOffset m.block.length k } else step.instruction) := by
  rw [RuleMatch.code, placeSteps_getElem? width_block, h, Nat.zero_add]
  rfl

/-! ## The gate on a wrapper -/

theorem PassesFrom.append {len index : Nat} {is js : List Instruction}
    (hi : PassesFrom len index is) (hj : PassesFrom len (index + is.length) js) :
    PassesFrom len index (is ++ js) := by
  intro k i h
  by_cases hk : k < is.length
  · rw [List.getElem?_append_left hk] at h
    exact hi k i h
  · rw [List.getElem?_append_right (by omega)] at h
    have := hj _ i h
    rwa [show index + is.length + (k - is.length) = index + k by omega] at this

/-- Straight code passes anywhere. -/
theorem passesFrom_straight {len index : Nat} {is : List Instruction}
    (h : ∀ i ∈ is, inSubset i = true ∧ jumps i = false) : PassesFrom len index is := by
  intro k i hk
  obtain ⟨hs, hj⟩ := h i (List.mem_of_getElem? hk)
  exact ⟨hs, fun hj' => absurd (hj.symm.trans hj') Bool.false_ne_true⟩

/-- A block passes when something follows it. -/
theorem passesFrom_code {len index : Nat} {m : RuleMatch} (h : index + m.code.length < len) :
    PassesFrom len index m.code := by
  intro k i hk
  have hlt : k < m.block.length := by
    rw [← code_length]
    exact (List.getElem?_eq_some_iff.mp hk).1
  obtain ⟨step, hstep⟩ : ∃ step, m.block[k]? = some step := ⟨_, List.getElem?_eq_getElem hlt⟩
  have hb := blockStep_of_mem (List.mem_of_getElem? hstep)
  rw [code_getElem? hstep, Option.some.injEq] at hk
  refine ⟨hk ▸ hb.inSubset _, fun hj => ?_⟩
  have hnext : step.toNextBlock = true := by
    rw [← hb.jumps_eq, ← hj, ← hk]
    split <;> rfl
  rw [hnext, if_pos rfl] at hk
  have hoff := jumpOffset_block _ (block_length_le m) k hlt
  rw [← hk]
  rw [code_length] at h
  simp only [hoff]
  omega

theorem passesFrom_codes {len index : Nat} {ms : List RuleMatch}
    (h : index + (codes ms).length < len) : PassesFrom len index (codes ms) := by
  induction ms generalizing index with
  | nil => exact passesFrom_straight nofun
  | cons m ms ih =>
    rw [codes_cons, List.length_append] at h
    exact (passesFrom_code (by omega)).append (ih (by omega))

/-- A program that passes on its own passes behind `d` instructions. -/
theorem PassesFrom.shift {is : List Instruction} {len : Nat} (h : PassesFrom len 0 is) (d : Nat) :
    PassesFrom (d + len) d is := by
  intro k i hk
  obtain ⟨hs, ht⟩ := h k i hk
  refine ⟨hs, fun hj => ?_⟩
  have := ht hj
  push_cast at this ⊢
  omega

section Wrapper

variable {sha256 : Bytes → Vector Byte 32} {ms : List RuleMatch} {nonce : BitVec 64}
  {original : Bytes} {is : List Instruction}

theorem passesFrom_wrapper (h : PassesFrom is.length 0 is) :
    PassesFrom (wrapperCode sha256 ms nonce original is).length 0
      (wrapperCode sha256 ms nonce original is) := by
  have hmarkers : ∀ values : List (BitVec 32), ∀ i ∈ values.map marker,
      inSubset i = true ∧ jumps i = false := by
    intro values i hi
    obtain ⟨value, -, rfl⟩ := List.mem_map.mp hi
    exact passes_marker value
  have hfront := @wrapperFront_length sha256 ms nonce original
  rw [wrapperCode_length, wrapperCode_eq]
  refine PassesFrom.append ?_ (PassesFrom.append (passesFrom_straight (hmarkers _)) ?_)
  · refine ((passesFrom_straight (hmarkers _)).append (passesFrom_straight passes_init)).append ?_
    refine passesFrom_codes ?_
    rw [wrapperFront, List.length_append] at hfront
    simp only [trailerLen]
    omega
  · rw [hfront, Nat.zero_add]
    exact h.shift _

private theorem width_wrapper (h : PassesFrom is.length 0 is) :
    ∀ i ∈ wrapperCode sha256 ms nonce original is, i.width = 1 := by
  intro i hi
  obtain ⟨k, hk⟩ := List.getElem?_of_mem hi
  exact width_of_inSubset (passesFrom_wrapper h k i hk).1

theorem blockStart_ofMatches (b : Nat) :
    blockStart (Program.ofMatches ms) b =
      headerLen + Program.initLen + (codes (ms.take b)).length := by
  rw [blockStart, Program.ofMatches, ← List.map_take]
  have := instructionCount_ofMatches (ms.take b)
  rw [Program.instructionCount, Program.ofMatches] at this
  simp only at this ⊢
  omega

private theorem blockStart_length :
    blockStart (Program.ofMatches ms) (Program.ofMatches ms).blocks.length = trailerIndex ms := by
  rw [blockStart_ofMatches, Program.ofMatches, List.length_map, List.take_length, trailerIndex]

theorem codes_append (as bs : List RuleMatch) : codes (as ++ bs) = codes as ++ codes bs :=
  List.flatMap_append

/-- The code of block `b` starts where `blockStart` says. -/
theorem wrapper_block {b k : Nat} {m : RuleMatch} {i : Instruction} (hb : ms[b]? = some m)
    (hk : m.code[k]? = some i) :
    (wrapperCode sha256 ms nonce original is)[blockStart (Program.ofMatches ms) b + k]? =
      some i := by
  obtain ⟨hlt, rfl⟩ := List.getElem?_eq_some_iff.mp hb
  have hsplit : codes ms = codes (ms.take b) ++ (ms[b].code ++ codes (ms.drop (b + 1))) := by
    rw [← codes_cons, ← codes_append, List.getElem_cons_drop, List.take_append_drop]
  have hfront :
    ((headerValues sha256 nonce original (trailerIndex ms)).map marker ++ Program.init ++
      codes (ms.take b)).length = blockStart (Program.ofMatches ms) b := by
    rw [List.length_append, List.length_append, List.length_map, headerValues_length,
      blockStart_ofMatches]
    rfl
  have hcode : wrapperCode sha256 ms nonce original is =
      ((headerValues sha256 nonce original (trailerIndex ms)).map marker ++ Program.init ++
        codes (ms.take b)) ++ (ms[b].code ++ (codes (ms.drop (b + 1)) ++
          ((trailerValues nonce).map marker ++ is))) := by
    simp only [wrapperCode, hsplit, List.append_assoc]
  rw [hcode, List.getElem?_append_right (by omega), hfront, Nat.add_sub_cancel_left,
    List.getElem?_append_left (List.getElem?_eq_some_iff.mp hk).1, hk]

theorem blockStart_succ {b : Nat} {m : RuleMatch} (hb : ms[b]? = some m) :
    blockStart (Program.ofMatches ms) (b + 1) =
      blockStart (Program.ofMatches ms) b + m.block.length := by
  obtain ⟨hlt, rfl⟩ := List.getElem?_eq_some_iff.mp hb
  rw [blockStart_ofMatches, blockStart_ofMatches, List.take_succ_eq_append_getElem hlt,
    codes_append, codes_cons, codes_nil, List.append_nil, List.length_append, code_length]
  omega

private theorem blockStart_le (b : Nat) :
    blockStart (Program.ofMatches ms) b ≤ trailerIndex ms := by
  have hsplit : codes ms = codes (ms.take b) ++ codes (ms.drop b) := by
    rw [← codes_append, List.take_append_drop]
  rw [blockStart_ofMatches, trailerIndex, hsplit, List.length_append]
  omega

private theorem drop_blockStart :
    (wrapperCode sha256 ms nonce original is).drop (trailerIndex ms + trailerLen) = is := by
  rw [wrapperCode_eq, ← List.drop_drop, List.drop_left' wrapperFront_length]
  exact List.drop_left' rfl

/-- The layout of a wrapper around a program that passes the gate. -/
theorem laid_wrapper (h : PassesFrom is.length 0 is) (hne : is ≠ []) :
    Laid (Program.ofMatches ms) nonce is (wrapperCode sha256 ms nonce original is) where
  blocks := by
    intro b block hblock k step hstep
    rw [Program.ofMatches, List.getElem?_map, Option.map_eq_some_iff] at hblock
    obtain ⟨m, hm, rfl⟩ := hblock
    have hlt : k < m.block.length := (List.getElem?_eq_some_iff.mp hstep).1
    have hjumps := (blockStep_of_mem (List.mem_of_getElem? hstep)).jumps_eq
    have hi := @wrapper_block sha256 ms nonce original is _ _ _ _ hm (code_getElem? hstep)
    refine ⟨_, hi, ?_⟩
    cases hnext : step.toNextBlock with
    | false =>
      rw [hnext] at hjumps
      rw [if_neg Bool.false_ne_true]
      exact ⟨rfl, fun _ => rfl, fun hj => absurd (hjumps.symm.trans hj) Bool.false_ne_true⟩
    | true =>
      rw [hnext] at hjumps
      rw [hnext, if_pos rfl] at hi
      rw [if_pos rfl]
      refine ⟨rfl, fun hj => absurd (hj.symm.trans hjumps) Bool.false_ne_true, fun _ => ?_⟩
      rw [lands_iff (width_wrapper h)]
      have hle := @blockStart_le ms (b + 1)
      refine ⟨?_, _, hi, ?_⟩
      · rw [wrapperCode_length]
        have := List.length_pos_iff.mpr hne
        omega
      · rw [blockStart_succ hm]
        simp only [jumpOffset_block _ (block_length_le m) k hlt]
        push_cast
        omega
  trailer := by
    rw [blockStart_length, wrapperCode_eq, List.drop_left' wrapperFront_length]
    exact List.take_left' rfl
  original := by rw [blockStart_length, drop_blockStart]
  jumps := by
    intro k i hk hj
    have hw : ∀ i ∈ is, i.width = 1 := by
      intro i hi
      obtain ⟨k, hk⟩ := List.getElem?_of_mem hi
      exact width_of_inSubset (h k i hk).1
    obtain ⟨-, ht⟩ := h k i hk
    obtain ⟨hnn, hlt⟩ := ht hj
    obtain ⟨j, hj⟩ := Int.eq_ofNat_of_zero_le hnn
    have hbase : (wrapperCode sha256 ms nonce original is)[trailerIndex ms + trailerLen + k]? =
        some i := by
      rw [← List.getElem?_drop, drop_blockStart, hk]
    rw [blockStart_length]
    refine ⟨j, (lands_iff hw).mpr ⟨by omega, i, hk, by omega⟩, ?_⟩
    refine (lands_iff (width_wrapper h)).mpr ⟨?_, i, hbase, ?_⟩
    · rw [wrapperCode_length]
      omega
    · push_cast
      omega

end Wrapper

/-- **What the gate accepts can be wrapped, and the wrapper passes the gate.** Every rule list that
the builder accepts goes around an accepted original; the wrapper decodes, is accepted with the same
metadata, and its jumps land where they should. -/
theorem wrapped_passes_gate {sha256 : Bytes → Vector Byte 32} {is : List Instruction}
    {original : Bytes} {progMeta : ProgMeta} {rules : List DeviceRule} {program : Program}
    (hc : canonicalBytes is = .ok original) (hd : decode original = .ok is)
    (hg : checkWrappable is progMeta = .ok ())
    (hr : Program.new.appendAll rules.reverse = .ok program) (nonce : BitVec 64) :
    ∃ raw code, emitOwned sha256 rules nonce original = .ok raw ∧ decode raw = .ok code ∧
      checkWrappable code progMeta = .ok () ∧ Laid program nonce is code := by
  obtain ⟨hknown, hmaps, hne, hpass⟩ := checkWrappable_iff.mp hg
  obtain ⟨ms, hms, rfl⟩ : ∃ ms, compile rules.reverse = .ok ms ∧
      Program.ofMatches ms = program := by
    rw [appendAll_eq] at hr
    cases hms : compile rules.reverse with
    | error e => rw [hms] at hr; cases hr
    | ok ms => rw [hms] at hr; cases hr; exact ⟨ms, rfl, rfl⟩
  have hdec := decode_iff.mp hd
  obtain ⟨raw, hw⟩ := @exists_wraps sha256 ms original is (compiled_of_compile hms) hne hdec
    (encodeFrom_iff.mp hc) nonce
  obtain ⟨is', hne', hdec', -, hD⟩ := hw.decodes
  obtain rfl := hdec'.unique hdec
  obtain ⟨-, is', -, hdec', -, hE⟩ := hw
  obtain rfl := hdec'.unique hdec
  refine ⟨raw, _, emitOwned_ok.mpr ⟨is', ms, hdec, hne, hms, hE⟩, decode_iff.mpr hD, ?_,
    laid_wrapper hpass hne⟩
  refine checkWrappable_iff.mpr ⟨hknown, hmaps, ?_, passesFrom_wrapper hpass⟩
  intro hnil
  have := congrArg List.length hnil
  rw [wrapperCode_length] at this
  simp only [List.length_nil, trailerLen] at this
  omega

/-- A filter with a jump: it skips an instruction unless `r1` is 0. -/
def skipOne : Bytes :=
  [0x55, 1, 1, 0, 0, 0, 0, 0, 0xb4, 0, 0, 0, 0, 0, 0, 0, 0x95, 0, 0, 0, 0, 0, 0, 0]

theorem wrapped_passes_gate_skip :
    ∃ program raw code, Program.new.appendAll [nullRule] = .ok program ∧
      emitOwned sampleSha256 [nullRule] 7 skipOne = .ok raw ∧ decode raw = .ok code ∧
      checkWrappable code ⟨true, 0⟩ = .ok () ∧
      Laid program 7 [.jumpImm Jmp.jne r1 0 1, .alu32Imm Alu.mov r0 0, .exit] code := by
  obtain ⟨raw, code, h⟩ := @wrapped_passes_gate sampleSha256
    [.jumpImm Jmp.jne r1 0 1, .alu32Imm Alu.mov r0 0, .exit] skipOne ⟨true, 0⟩ [nullRule] _
    (by decide) (by decide) (by decide) rfl 7
  exact ⟨_, raw, code, rfl, h⟩

end Filter
end Sda
