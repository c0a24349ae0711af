import DeviceAccess.Asm.Codec
import Mathlib.Logic.Relation

/-!
# A BPF machine for device filters

The kernel's semantics of the instructions the reloadability gate lets through: context loads, 32
and 64-bit `mov`, `and`, `or`, shifts, conditional and unconditional jumps, `exit`.

* A register holds `none` until it is written. Reading such a register, loading outside the
  context and leaving the program are faults, and a program that faults does not return; so
  `Returns` of a program says what the kernel's verifier makes sure of as well: it terminates,
  reads only registers that are written (`R1` and the frame pointer at the start) and stays inside
  the context.
* `effect` is what one instruction does, apart from the program counter. It grows with the
  registers (`effect_mono`), so a program runs the same behind another one (`RunsTo.shift`).
-/

namespace Sda
namespace Asm

/-! ## The machine -/

/-- What a filter runs on: the context, the address it is at, and the frame pointer. -/
structure Env where
  context : Bytes
  base : BitVec 64
  frame : BitVec 64

/-- The registers; `none` is a register that has not been written. -/
abbrev Regs := Register → Option (BitVec 64)

structure State where
  pc : Nat
  regs : Regs

/-- The registers with `dst` set to `value`. -/
def Regs.set (regs : Regs) (dst : Register) (value : BitVec 64) : Regs :=
  fun r => if r = dst then some value else regs r

/-- The state a filter starts in. -/
def State.start (env : Env) : State where
  pc := 0
  regs := fun r => if r = r1 then some env.base else if r = rfp then some env.frame else none

/-- Little-endian bytes, zero-extended. -/
def leValue : Bytes → BitVec 64
  | [] => 0
  | b :: rest => b.setWidth 64 ||| (leValue rest <<< 8)

/-- How many bytes a load of `size` reads. -/
def sizeBytes (size : BitVec 32) : Nat :=
  if size = word then 4 else if size = half then 2 else if size = byte then 1 else 8

/-- A load of `size` at `address`, which has to be inside the context. -/
def Env.load (env : Env) (size : BitVec 32) (address : BitVec 64) : Option (BitVec 64) :=
  let start := (address - env.base).toNat
  if start + sizeBytes size ≤ env.context.length then
    some (leValue ((env.context.drop start).take (sizeBytes size)))
  else none

/-- The second operand of an ALU instruction or a jump. -/
def operand (regs : Regs) (i : Instruction) : Option (BitVec 64) :=
  if i.opcode.source = regSource then regs i.src else some i.constant

/-- A 64-bit ALU operation on `left` and `right`. -/
def alu64 (op : BitVec 32) (left right : BitVec 64) : Option (BitVec 64) :=
  if op = Alu.and then some (left &&& right)
  else if op = Alu.or then some (left ||| right)
  else if op = Alu.lsh then some (left <<< (right &&& 63))
  else if op = Alu.rsh then some (left >>> (right &&& 63))
  else none

/-- A 32-bit ALU operation, which clears the upper half. -/
def alu32 (op : BitVec 32) (left right : BitVec 64) : Option (BitVec 64) :=
  let (left, right) := (lowU32 left, lowU32 right)
  if op = Alu.and then some ((left &&& right).setWidth 64)
  else if op = Alu.or then some ((left ||| right).setWidth 64)
  else if op = Alu.lsh then some ((left <<< (right &&& 31)).setWidth 64)
  else if op = Alu.rsh then some ((left >>> (right &&& 31)).setWidth 64)
  else none

/-- Whether a conditional jump is taken. -/
def taken {w : Nat} (op : BitVec 32) (left right : BitVec w) : Option Bool :=
  if op = Jmp.jeq then some (left = right)
  else if op = Jmp.jne then some (left ≠ right)
  else if op = Jmp.jgt then some (right < left)
  else if op = Jmp.jge then some (right ≤ left)
  else if op = Jmp.jlt then some (left < right)
  else if op = Jmp.jle then some (left ≤ right)
  else if op = Jmp.jset then some (left &&& right ≠ 0)
  else if op = Jmp.jsgt then some (right.slt left)
  else if op = Jmp.jsge then some (right.sle left)
  else if op = Jmp.jslt then some (left.slt right)
  else if op = Jmp.jsle then some (left.sle right)
  else none

/-- What an instruction does, apart from the program counter. -/
inductive Effect where
  | write (dst : Register) (value : BitVec 64)
  | branch (taken : Bool) (offset : BitVec 16)
  | exit (value : BitVec 64)

/-- The effect of `i`, or `none` for a fault. -/
def effect (env : Env) (regs : Regs) (i : Instruction) : Option Effect :=
  let opcode := i.opcode
  match opcode.opClass with
  | .ldX =>
    if opcode.mode = modeMem then do
      let address ← regs i.src
      let value ← env.load opcode.size (address + i.offset.signExtend 64)
      some (.write i.dst value)
    else none
  | .alu => do
    let right ← operand regs i
    if opcode.aluOp = Alu.mov then some (.write i.dst ((lowU32 right).setWidth 64))
    else do
      let left ← regs i.dst
      let value ← alu32 opcode.aluOp left right
      some (.write i.dst value)
  | .alu64 => do
    let right ← operand regs i
    if opcode.aluOp = Alu.mov then some (.write i.dst right)
    else do
      let left ← regs i.dst
      let value ← alu64 opcode.aluOp left right
      some (.write i.dst value)
  | .jump =>
    if opcode.jumpOp = Jmp.exit then do
      let value ← regs r0
      some (.exit value)
    else if opcode.jumpOp = Jmp.ja then some (.branch true i.offset)
    else do
      let left ← regs i.dst
      let right ← operand regs i
      let taken ← taken opcode.jumpOp left right
      some (.branch taken i.offset)
  | .jump32 => do
    let left ← regs i.dst
    let right ← operand regs i
    let taken ← taken opcode.jumpOp (lowU32 left) (lowU32 right)
    some (.branch taken i.offset)
  | .ld | .st | .stX => none

/-- Where a jump at `pc` leads. -/
def target (pc : Nat) (offset : BitVec 16) : Option Nat :=
  let dest : Int := pc + 1 + offset.toInt
  if 0 ≤ dest then some dest.toNat else none

/-- What one step leads to. -/
inductive Outcome where
  | next (state : State)
  | exit (value : BitVec 64)
  | fault

/-- One step of a program. -/
def step (prog : List Instruction) (env : Env) (s : State) : Outcome :=
  match prog[s.pc]? with
  | none => .fault
  | some i =>
    match effect env s.regs i with
    | none => .fault
    | some (.write dst value) => .next ⟨s.pc + 1, s.regs.set dst value⟩
    | some (.branch false _) => .next ⟨s.pc + 1, s.regs⟩
    | some (.branch true offset) =>
      match target s.pc offset with
      | none => .fault
      | some pc => .next ⟨pc, s.regs⟩
    | some (.exit value) => .exit value

/-- The value a program returns from `s` within `fuel` steps. -/
def run (prog : List Instruction) (env : Env) : Nat → State → Option (BitVec 64)
  | 0, _ => none
  | fuel + 1, s =>
    match step prog env s with
    | .next s' => run prog env fuel s'
    | .exit value => some value
    | .fault => none

/-- A program, run from `s`, returns `value`. -/
def RunsTo (prog : List Instruction) (env : Env) (s : State) (value : BitVec 64) : Prop :=
  ∃ fuel, run prog env fuel s = some value

/-- A program, run from the start, returns `value`. -/
def Returns (prog : List Instruction) (env : Env) (value : BitVec 64) : Prop :=
  RunsTo prog env (.start env) value

/-! ## Runs -/

section Runs

variable {prog : List Instruction} {env : Env} {s s' : State} {v w : BitVec 64}

theorem RunsTo.of_exit (h : step prog env s = .exit v) : RunsTo prog env s v :=
  ⟨1, by rw [run, h]⟩

theorem RunsTo.of_next (h : step prog env s = .next s') (hr : RunsTo prog env s' v) :
    RunsTo prog env s v := by
  obtain ⟨fuel, hfuel⟩ := hr
  exact ⟨fuel + 1, by rw [run, h]; exact hfuel⟩

/-- A run that returns exits now or takes a step and returns. -/
theorem RunsTo.cases (h : RunsTo prog env s v) :
    step prog env s = .exit v ∨ ∃ s', step prog env s = .next s' ∧ RunsTo prog env s' v := by
  obtain ⟨fuel, hfuel⟩ := h
  cases fuel with
  | zero => cases hfuel
  | succ fuel =>
    rw [run] at hfuel
    cases hs : step prog env s with
    | next s' => rw [hs] at hfuel; exact .inr ⟨s', rfl, fuel, hfuel⟩
    | exit value => rw [hs] at hfuel; cases hfuel; exact .inl rfl
    | fault => rw [hs] at hfuel; cases hfuel

/-- A program returns one value only. -/
theorem RunsTo.unique (h : RunsTo prog env s v) (h' : RunsTo prog env s w) : v = w := by
  obtain ⟨fuel, hfuel⟩ := h
  induction fuel generalizing s with
  | zero => cases hfuel
  | succ fuel ih =>
    rw [run] at hfuel
    rcases h'.cases with hs | ⟨s', hs, hr⟩
    · rw [hs] at hfuel; cases hfuel; rfl
    · rw [hs] at hfuel
      exact ih hr hfuel

/-- Steps lead from `s` to `s'`, perhaps none. -/
def Reaches (prog : List Instruction) (env : Env) : State → State → Prop :=
  Relation.ReflTransGen fun s s' => step prog env s = .next s'

theorem Reaches.runsTo (h : Reaches prog env s s') (hr : RunsTo prog env s' v) :
    RunsTo prog env s v := by
  induction h using Relation.ReflTransGen.head_induction_on with
  | refl => exact hr
  | head hs _ ih => exact .of_next hs ih

theorem Reaches.step (h : step prog env s = .next s') : Reaches prog env s s' :=
  Relation.ReflTransGen.single h

theorem Reaches.trans {s'' : State} (h : Reaches prog env s s') (h' : Reaches prog env s' s'') :
    Reaches prog env s s'' :=
  Relation.ReflTransGen.trans h h'

/-- A step whose instruction writes a register. -/
theorem step_write {i : Instruction} {dst : Register} {value : BitVec 64}
    (hi : prog[s.pc]? = some i) (he : effect env s.regs i = some (.write dst value)) :
    step prog env s = .next ⟨s.pc + 1, s.regs.set dst value⟩ := by
  simp only [Asm.step, hi, he]

/-- A step whose instruction is a jump that is not taken. -/
theorem step_fall {i : Instruction} {offset : BitVec 16} (hi : prog[s.pc]? = some i)
    (he : effect env s.regs i = some (.branch false offset)) :
    step prog env s = .next ⟨s.pc + 1, s.regs⟩ := by
  simp only [Asm.step, hi, he]

/-- A step whose instruction is a jump that is taken. -/
theorem step_jump {i : Instruction} {offset : BitVec 16} {dest : Nat} (hi : prog[s.pc]? = some i)
    (he : effect env s.regs i = some (.branch true offset)) (ht : target s.pc offset = some dest) :
    step prog env s = .next ⟨dest, s.regs⟩ := by
  simp only [Asm.step, hi, he, ht]

theorem step_exit {i : Instruction} (hi : prog[s.pc]? = some i)
    (he : effect env s.regs i = some (.exit v)) : step prog env s = .exit v := by
  simp only [Asm.step, hi, he]

end Runs

/-! ## Effects by class -/

section Effects

variable {env : Env} {regs : Regs} {i : Instruction} {left right value : BitVec 64}

theorem operand_imm (h : i.opcode.source = immSource) : operand regs i = some i.constant := by
  rw [operand, if_neg (by rw [h]; decide)]

theorem operand_reg (h : i.opcode.source = regSource) : operand regs i = regs i.src := by
  rw [operand, if_pos h]

theorem effect_load (hc : i.opcode.opClass = .ldX) (hm : i.opcode.mode = modeMem)
    (ha : regs i.src = some left)
    (hl : env.load i.opcode.size (left + i.offset.signExtend 64) = some value) :
    effect env regs i = some (.write i.dst value) := by
  simp only [effect, hc, hm, if_true, ha, hl, Option.bind_eq_bind, Option.bind_some]

theorem effect_mov32 (hc : i.opcode.opClass = .alu) (ho : i.opcode.aluOp = Alu.mov)
    (hr : operand regs i = some right) :
    effect env regs i = some (.write i.dst ((lowU32 right).setWidth 64)) := by
  simp only [effect, hc, ho, hr, if_true, Option.bind_eq_bind, Option.bind_some]

theorem effect_alu32 (hc : i.opcode.opClass = .alu) (ho : i.opcode.aluOp ≠ Alu.mov)
    (hr : operand regs i = some right) (hl : regs i.dst = some left)
    (hv : alu32 i.opcode.aluOp left right = some value) :
    effect env regs i = some (.write i.dst value) := by
  simp only [effect, hc, ho, hr, hl, hv, if_false, Option.bind_eq_bind, Option.bind_some]

theorem effect_jump (hc : i.opcode.opClass = .jump) (he : i.opcode.jumpOp ≠ Jmp.exit)
    (hj : i.opcode.jumpOp ≠ Jmp.ja) (hl : regs i.dst = some left)
    (hr : operand regs i = some right) {t : Bool}
    (ht : taken i.opcode.jumpOp left right = some t) :
    effect env regs i = some (.branch t i.offset) := by
  simp only [effect, hc, he, hj, hl, hr, ht, if_false, Option.bind_eq_bind, Option.bind_some]

theorem effect_exit (hc : i.opcode.opClass = .jump) (he : i.opcode.jumpOp = Jmp.exit)
    (hv : regs r0 = some value) : effect env regs i = some (.exit value) := by
  simp only [effect, hc, he, hv, if_true, Option.bind_eq_bind, Option.bind_some]

end Effects

/-! ## More registers, another place -/

/-- `regs'` agrees with `regs` where that is written. -/
def Regs.le (regs regs' : Regs) : Prop := ∀ r v, regs r = some v → regs' r = some v

theorem Regs.le.set {regs regs' : Regs} (h : regs.le regs') (dst : Register) (value : BitVec 64) :
    (regs.set dst value).le (regs'.set dst value) := by
  intro r v hv
  unfold Regs.set at hv ⊢
  split at hv
  · rename_i hr; rw [if_pos hr]; exact hv
  · rename_i hr; rw [if_neg hr]; exact h r v hv

private theorem operand_mono {regs regs' : Regs} (h : regs.le regs') {i : Instruction}
    {v : BitVec 64}
    (hv : operand regs i = some v) : operand regs' i = some v := by
  unfold operand at hv ⊢
  split at hv
  · rename_i hs; rw [if_pos hs]; exact h _ _ hv
  · rename_i hs; rw [if_neg hs]; exact hv

/-- An instruction that does not fault does the same with more registers written. -/
theorem effect_mono {env : Env} {regs regs' : Regs} (h : regs.le regs') {i : Instruction}
    {e : Effect} (he : effect env regs i = some e) : effect env regs' i = some e := by
  unfold effect at he ⊢
  cases hc : i.opcode.opClass with
  | ldX =>
    simp only [hc] at he ⊢
    split at he
    · rename_i hm
      obtain ⟨a, ha, he⟩ := Option.bind_eq_some_iff.mp he
      rw [if_pos hm, h _ _ ha]
      exact he
    · cases he
  | alu =>
    simp only [hc] at he ⊢
    obtain ⟨right, hr, he⟩ := Option.bind_eq_some_iff.mp he
    rw [operand_mono h hr]
    simp only [Option.bind_eq_bind, Option.bind_some] at he ⊢
    split at he
    · rename_i hm; rw [if_pos hm]; exact he
    · rename_i hm
      obtain ⟨left, hl, he⟩ := Option.bind_eq_some_iff.mp he
      rw [if_neg hm, h _ _ hl]
      exact he
  | alu64 =>
    simp only [hc] at he ⊢
    obtain ⟨right, hr, he⟩ := Option.bind_eq_some_iff.mp he
    rw [operand_mono h hr]
    simp only [Option.bind_eq_bind, Option.bind_some] at he ⊢
    split at he
    · rename_i hm; rw [if_pos hm]; exact he
    · rename_i hm
      obtain ⟨left, hl, he⟩ := Option.bind_eq_some_iff.mp he
      rw [if_neg hm, h _ _ hl]
      exact he
  | jump =>
    simp only [hc] at he ⊢
    split at he
    · rename_i hm
      obtain ⟨value, hv, he⟩ := Option.bind_eq_some_iff.mp he
      rw [if_pos hm, h _ _ hv]
      exact he
    · rename_i hm
      rw [if_neg hm]
      split at he
      · rename_i hj; rw [if_pos hj]; exact he
      · rename_i hj
        obtain ⟨left, hl, he⟩ := Option.bind_eq_some_iff.mp he
        obtain ⟨right, hr, he⟩ := Option.bind_eq_some_iff.mp he
        rw [if_neg hj, h _ _ hl]
        simp only [Option.bind_eq_bind, Option.bind_some]
        rw [operand_mono h hr]
        exact he
  | jump32 =>
    simp only [hc] at he ⊢
    obtain ⟨left, hl, he⟩ := Option.bind_eq_some_iff.mp he
    obtain ⟨right, hr, he⟩ := Option.bind_eq_some_iff.mp he
    rw [h _ _ hl]
    simp only [Option.bind_eq_bind, Option.bind_some]
    rw [operand_mono h hr]
    exact he
  | ld => simp only [hc] at he; cases he
  | st => simp only [hc] at he; cases he
  | stX => simp only [hc] at he; cases he

theorem target_add {pc dest : Nat} {offset : BitVec 16} (h : target pc offset = some dest)
    (k : Nat) : target (k + pc) offset = some (k + dest) := by
  simp only [target] at h ⊢
  split at h
  · cases h
    rw [if_pos (by omega)]
    congr 1
    omega
  · cases h

/-- **A program runs the same behind another one**, and with more registers written. -/
theorem RunsTo.shift {prog : List Instruction} {env : Env} {v : BitVec 64}
    (front : List Instruction) {pc : Nat} {regs regs' : Regs} (hle : regs.le regs')
    (h : RunsTo prog env ⟨pc, regs⟩ v) :
    RunsTo (front ++ prog) env ⟨front.length + pc, regs'⟩ v := by
  obtain ⟨fuel, hfuel⟩ := h
  induction fuel generalizing pc regs regs' with
  | zero => cases hfuel
  | succ fuel ih =>
    have hget : (front ++ prog)[front.length + pc]? = prog[pc]? := by
      rw [List.getElem?_append_right (Nat.le_add_right ..), Nat.add_sub_cancel_left]
    rw [run, step] at hfuel
    cases hi : prog[pc]? with
    | none => simp only [hi] at hfuel; cases hfuel
    | some i =>
      simp only [hi] at hfuel
      cases he : effect env regs i with
      | none => simp only [he] at hfuel; cases hfuel
      | some e =>
        have he' := effect_mono hle he
        simp only [he] at hfuel
        cases e with
        | write dst value =>
          have hs : step (front ++ prog) env ⟨front.length + pc, regs'⟩ =
              .next ⟨front.length + (pc + 1), regs'.set dst value⟩ := by
            simp only [step, hget, hi, he', Nat.add_assoc]
          exact .of_next hs (ih (hle.set dst value) hfuel)
        | exit value =>
          simp only [Option.some.injEq] at hfuel
          subst hfuel
          exact .of_exit (by simp only [step, hget, hi, he'])
        | branch taken offset =>
          cases taken with
          | false =>
            have hs : step (front ++ prog) env ⟨front.length + pc, regs'⟩ =
                .next ⟨front.length + (pc + 1), regs'⟩ := by
              simp only [step, hget, hi, he', Nat.add_assoc]
            exact .of_next hs (ih hle hfuel)
          | true =>
            cases ht : target pc offset with
            | none => simp only [ht] at hfuel; cases hfuel
            | some dest =>
              simp only [ht] at hfuel
              have hs : step (front ++ prog) env ⟨front.length + pc, regs'⟩ =
                  .next ⟨front.length + dest, regs'⟩ := by
                simp only [step, hget, hi, he', target_add ht]
              exact .of_next hs (ih hle hfuel)

end Asm
end Sda
