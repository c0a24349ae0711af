import DeviceAccess.Filter.Innermost
import DeviceAccess.Filter.Gate
import DeviceAccess.Asm.Machine

/-!
# The verdict of a wrapper

Running a wrapper gives the answer of the last rule that matches the request, and that of the
original when none does.

* **Rules** (`DeviceRule.matches`, `lastMatch`): what the rules of a wrapper are for.
* **Blocks** (`RuleMatch.accepts`): what the code of a block checks, on the registers the context
  loads fill; the same as the rule for numbers below 2^31 (`accepts_eq`).
* **Runs**: header, context loads, blocks and trailer one after the other. A `Stage` is a part of
  a block that goes on to the next part or jumps to the next block; the registers the blocks read
  (`Ready`) stay as they are.
-/

namespace Sda
namespace Filter

open Asm Bytes

/-! ## Requests and rules -/

/-- The access a process asks for: a `bpf_cgroup_dev_ctx`. -/
structure Request where
  kind : BitVec 16
  access : BitVec 16
  major : BitVec 32
  minor : BitVec 32
  deriving DecidableEq, Repr

/-- The context as the kernel lays it out. -/
def Request.context (req : Request) : Bytes :=
  le32 (req.access ++ req.kind) ++ le32 req.major ++ le32 req.minor

/-- The request as a filter sees it, at the address `base`. -/
def Request.env (req : Request) (base frame : BitVec 64) : Env := ⟨req.context, base, frame⟩

/-- The program with the bytes `raw`, run from the start, returns `value`. -/
def Answers (raw : Bytes) (env : Env) (value : BitVec 64) : Prop :=
  ∃ is, decode raw = .ok is ∧ Returns is env value

def kindMatches (kind : String) (asked : BitVec 16) : Bool :=
  kind = "a" || (kind = "c" && asked = 2) || (kind = "b" && asked = 1)

def numberMatches (number : Option Int) (asked : BitVec 32) : Bool :=
  number.any fun n => n < 0 || n = (asked.toNat : Int)

/-- Every bit asked for is the bit of a letter; all three letters allow anything. -/
def accessMatches (access : String) (asked : BitVec 16) : Bool :=
  ['r', 'w', 'm'].all (· ∈ access.toList) ||
    asked &&& (lettersMask ('r' ∈ access.toList) ('w' ∈ access.toList)
      ('m' ∈ access.toList)).setWidth 16 = asked

/-- The rule is about the request. -/
def DeviceRule.matches (rule : DeviceRule) (req : Request) : Bool :=
  kindMatches rule.kind req.kind && accessMatches rule.access req.access &&
    numberMatches rule.major req.major && numberMatches rule.minor req.minor

/-- The answer of the last rule that is about the request. -/
def lastMatch (rules : List DeviceRule) (req : Request) : Option Bool :=
  (rules.reverse.find? (·.matches req)).map DeviceRule.allow

/-! ## What a block checks -/

/-- A register with part of the request has the number that is checked for, if there is one. -/
def RuleMatch.acceptsNumber (number : Option (BitVec 32)) (register : BitVec 64) : Bool :=
  number.all fun v => register = v.signExtend 64

def RuleMatch.acceptsAccess (m : RuleMatch) (asked : BitVec 16) : Bool :=
  !m.hasAccess || asked &&& m.access.setWidth 16 = asked

/-- The block does not jump to the next one. -/
def RuleMatch.accepts (m : RuleMatch) (req : Request) : Bool :=
  acceptsNumber (m.deviceType.map DeviceType.code) (req.kind.setWidth 64) &&
    m.acceptsAccess req.access && acceptsNumber m.major (req.major.setWidth 64) &&
    acceptsNumber m.minor (req.minor.setWidth 64)

theorem acceptsNumber_eq {n : Int} (h : n < 2 ^ 31) (asked : BitVec 32) :
    RuleMatch.acceptsNumber (numberCheck n) (asked.setWidth 64) =
      numberMatches (some n) asked := by
  have hlt := asked.isLt
  rw [RuleMatch.acceptsNumber, numberMatches, Option.any_some, numberCheck]
  by_cases hn : 0 ≤ n
  · have hv : ((BitVec.ofInt 32 n).signExtend 64).toInt = n := by
      rw [BitVec.toInt_signExtend_of_le (by decide), toInt_ofInt_small hn h]
    have ha : (asked.setWidth 64).toInt = asked.toNat := by
      rw [BitVec.toInt_setWidth, Int.bmod_eq_of_le_mul_two] <;> omega
    rw [if_pos hn, Option.all_some, decide_eq_false (by omega : ¬ n < 0), Bool.false_or]
    apply decide_eq_decide.mpr
    rw [← BitVec.toInt_inj, ha, hv]
    exact eq_comm
  · rw [if_neg hn, decide_eq_true (by omega : n < 0)]
    rfl

theorem acceptsKind_eq {rule : DeviceRule} {m : RuleMatch} (h : ruleMatch rule = .ok m)
    (asked : BitVec 16) :
    RuleMatch.acceptsNumber (m.deviceType.map DeviceType.code) (asked.setWidth 64) =
      kindMatches rule.kind asked := by
  obtain ⟨-, -, hk, -⟩ := ruleMatch_ok h
  have key : ∀ (asked : BitVec 16) (type : DeviceType),
      asked.setWidth 64 = type.code.signExtend 64 ↔ asked = type.code.setWidth 16 := by
    intro asked type
    constructor
    · intro h
      have := congrArg (BitVec.setWidth 16) h
      cases type <;> simpa [DeviceType.code] using this
    · rintro rfl
      cases type <;> rfl
  rw [kindType_ok hk]
  rcases m.deviceType with _ | type
  · rfl
  · simp only [RuleMatch.acceptsNumber, Option.map_some, Option.all_some, key]
    cases type <;> simp [kindMatches, kindName, DeviceType.code]

theorem acceptsAccess_eq {rule : DeviceRule} {m : RuleMatch} (h : ruleMatch rule = .ok m)
    (asked : BitVec 16) : m.acceptsAccess asked = accessMatches rule.access asked := by
  rw [RuleMatch.acceptsAccess, hasAccess_of_ruleMatch h, access_of_ruleMatch h, accessMatches]

/-- A block checks what its rule says. -/
theorem accepts_eq {rule : DeviceRule} {m : RuleMatch} (h : ruleMatch rule = .ok m)
    (hs : rule.SmallNumbers) (req : Request) : m.accepts req = rule.matches req := by
  obtain ⟨major, minor, -, hmaj, hmin, -, hmaj', hmin', -⟩ := ruleMatch_ok h
  rw [RuleMatch.accepts, DeviceRule.matches, acceptsKind_eq h, acceptsAccess_eq h,
    hmaj', hmin', hmaj,
    hmin, acceptsNumber_eq (hs.1 major hmaj), acceptsNumber_eq (hs.2 minor hmin)]

/-- Looking for a block is looking for its rule: the blocks end at the first rule that matches
everything, which nothing behind it could answer for. -/
theorem find_compiled {rules : List DeviceRule} {ms : List RuleMatch} (h : compile rules = .ok ms)
    {p : RuleMatch → Bool} {q : DeviceRule → Bool}
    (hpq : ∀ rule ∈ rules, ∀ m, ruleMatch rule = .ok m → p m = q rule)
    (hall : ∀ m : RuleMatch, m.matchesAll = true → p m = true) :
    (ms.find? p).map RuleMatch.allow = (rules.find? q).map DeviceRule.allow := by
  induction rules generalizing ms with
  | nil => cases h; rfl
  | cons rule rest ih =>
    cases hm : ruleMatch rule with
    | error e => simp only [compile, hm, bind, Except.bind] at h; cases h
    | ok m =>
      have hacc := hpq rule List.mem_cons_self m hm
      have hallow : m.allow = rule.allow := by
        obtain ⟨_, _, -, -, -, -, -, -, hallow, -⟩ := ruleMatch_ok hm
        exact hallow
      simp only [compile, hm, bind, Except.bind] at h
      cases hmall : m.matchesAll with
      | true =>
        rw [hmall, if_pos rfl] at h
        cases h
        simp only [List.find?_cons, ← hacc, hall m hmall, Option.map_some, hallow]
      | false =>
        rw [hmall, if_neg (by simp)] at h
        cases hr : compile rest with
        | error e => rw [hr] at h; cases h
        | ok more =>
          rw [hr] at h
          cases h
          have hrest := ih hr fun r hr => hpq r (List.mem_cons_of_mem _ hr)
          cases ha : p m with
          | true => simp only [List.find?_cons, ← hacc, ha, Option.map_some, hallow]
          | false => simp only [List.find?_cons, ← hacc, ha, hrest]

theorem RuleMatch.matchesAll_iff {m : RuleMatch} : m.matchesAll = true ↔
    m.deviceType = none ∧ m.hasAccess = false ∧ m.major = none ∧ m.minor = none := by
  simp [matchesAll, and_assoc]

/-- The first block that accepts the request is that of the last rule about it. -/
theorem find_accepts {rules : List DeviceRule} {ms : List RuleMatch} (h : compile rules = .ok ms)
    (hs : ∀ rule ∈ rules, rule.SmallNumbers) (req : Request) :
    (ms.find? (·.accepts req)).map RuleMatch.allow =
      (rules.find? (·.matches req)).map DeviceRule.allow := by
  refine find_compiled h (fun rule hr m hm => accepts_eq hm (hs rule hr) req) fun m hall => ?_
  obtain ⟨h1, h2, h3, h4⟩ := RuleMatch.matchesAll_iff.mp hall
  simp [RuleMatch.accepts, RuleMatch.acceptsNumber, RuleMatch.acceptsAccess, h1, h2, h3, h4]

/-! ## Context loads -/

private theorem leValue_two (a b : Byte) : leValue [a, b] = (of16 a b).setWidth 64 := by
  apply BitVec.eq_of_getLsbD_eq
  intro i hi
  simp only [leValue, of16, BitVec.getLsbD_or, BitVec.getLsbD_setWidth, BitVec.getLsbD_shiftLeft,
    BitVec.getLsbD_append]
  grind

private theorem leValue_four (a b c d : Byte) :
    leValue [a, b, c, d] = (of32 a b c d).setWidth 64 := by
  apply BitVec.eq_of_getLsbD_eq
  intro i hi
  simp only [leValue, of32, BitVec.getLsbD_or, BitVec.getLsbD_setWidth, BitVec.getLsbD_shiftLeft,
    BitVec.getLsbD_append]
  grind

theorem add_sub_base (base k : BitVec 64) : base + k - base = k := by bv_omega

section Loads

variable (req : Request) (base frame : BitVec 64)

theorem load_type : (req.env base frame).load half (base + BitVec.signExtend 64 (0 : BitVec 16)) =
    some (req.kind.setWidth 64) := by
  have hlow : of16 ((req.access ++ req.kind).extractLsb' 0 8)
      ((req.access ++ req.kind).extractLsb' 8 8) = req.kind := by
    apply BitVec.eq_of_getLsbD_eq
    intro i hi
    simp only [of16, BitVec.getLsbD_append, BitVec.getLsbD_extractLsb']
    grind
  rw [Env.load, show (req.env base frame).base = base from rfl, add_sub_base, ← hlow, ← leValue_two]
  rfl

/-- The word of the context that `[a, b, c, d]` are the bytes of. -/
theorem load_word {k : BitVec 16} {a b c d : Byte} {rest : Bytes}
    (hk : (k.signExtend 64).toNat + sizeBytes word ≤ 12)
    (hd : req.context.drop (k.signExtend 64).toNat = [a, b, c, d] ++ rest) :
    (req.env base frame).load word (base + k.signExtend 64) =
      some ((of32 a b c d).setWidth 64) := by
  have hlen : (req.env base frame).context.length = 12 := rfl
  rw [Env.load, show (req.env base frame).base = base from rfl, add_sub_base]
  simp only [hlen]
  rw [if_pos hk, show (req.env base frame).context = req.context from rfl, hd, ← leValue_four]
  rfl

private theorem load_access :
    (req.env base frame).load word (base + BitVec.signExtend 64 (0 : BitVec 16)) =
      some ((req.access ++ req.kind).setWidth 64) := by
  rw [load_word req base frame (by decide) rfl, of32_extract]

private theorem load_major :
    (req.env base frame).load word (base + BitVec.signExtend 64 (4 : BitVec 16)) =
      some (req.major.setWidth 64) := by
  rw [load_word req base frame (by decide) rfl, of32_extract]

private theorem load_minor :
    (req.env base frame).load word (base + BitVec.signExtend 64 (8 : BitVec 16)) =
      some (req.minor.setWidth 64) := by
  rw [load_word req base frame (by decide) rfl, of32_extract]

end Loads

/-! ## Where the code is -/

/-- `code` is in `prog` at `p`. -/
def At (prog : List Instruction) (p : Nat) (code : List Instruction) : Prop :=
  ∃ rest, prog.drop p = code ++ rest

section At

variable {prog : List Instruction} {p : Nat} {a b : List Instruction}

theorem At.fetch {i : Instruction} (h : At prog p (i :: a)) : prog[p]? = some i := by
  obtain ⟨rest, h⟩ := h
  have := congrArg (·[0]?) h
  simpa using this

theorem At.right (h : At prog p (a ++ b)) : At prog (p + a.length) b := by
  obtain ⟨rest, h⟩ := h
  refine ⟨rest, ?_⟩
  rw [← List.drop_drop, h, List.append_assoc, List.drop_left]

theorem At.left (h : At prog p (a ++ b)) : At prog p a := by
  obtain ⟨rest, h⟩ := h
  exact ⟨b ++ rest, by rw [h, List.append_assoc]⟩

theorem At.tail {i : Instruction} (h : At prog p (i :: a)) : At prog (p + 1) a :=
  @At.right prog p [i] a h

end At

/-! ## Runs -/

section Run

variable {prog : List Instruction} {req : Request} {base frame : BitVec 64}

/-- The registers that hold the context pointer and the frame pointer, at `p`. -/
structure Loaded (env : Env) (s : State) (p : Nat) : Prop where
  pc : s.pc = p
  context : s.regs r1 = some env.base
  frame : s.regs rfp = some env.frame

/-- The registers the blocks read hold the request, at `p`. -/
structure Ready (req : Request) (env : Env) (s : State) (p : Nat) :
    Prop extends Loaded env s p where
  kind : s.regs r2 = some (req.kind.setWidth 64)
  access : s.regs r3 = some (req.access.setWidth 64)
  major : s.regs r4 = some (req.major.setWidth 64)
  minor : s.regs r5 = some (req.minor.setWidth 64)

private theorem mov_imm : (OpCode.alu32 Alu.mov immSource).opClass = .alu ∧
    (OpCode.alu32 Alu.mov immSource).aluOp = Alu.mov ∧
      (OpCode.alu32 Alu.mov immSource).source = immSource := by decide

private theorem mov_reg : (OpCode.alu32 Alu.mov regSource).opClass = .alu ∧
    (OpCode.alu32 Alu.mov regSource).aluOp = Alu.mov ∧
      (OpCode.alu32 Alu.mov regSource).source = regSource := by decide

private theorem alu_imm {op : BitVec 32} (h : op = Alu.and ∨ op = Alu.rsh) :
    (OpCode.alu32 op immSource).opClass = .alu ∧ (OpCode.alu32 op immSource).aluOp = op ∧
      (OpCode.alu32 op immSource).source = immSource ∧ op ≠ Alu.mov := by
  rcases h with rfl | rfl <;> decide

private theorem jne_imm : (OpCode.jump Jmp.jne immSource).opClass = .jump ∧
    (OpCode.jump Jmp.jne immSource).jumpOp = Jmp.jne ∧
      (OpCode.jump Jmp.jne immSource).source = immSource := by decide

private theorem jne_reg : (OpCode.jump Jmp.jne regSource).opClass = .jump ∧
    (OpCode.jump Jmp.jne regSource).jumpOp = Jmp.jne ∧
      (OpCode.jump Jmp.jne regSource).source = regSource := by decide

theorem exit_imm : (OpCode.jump Jmp.exit immSource).opClass = .jump ∧
    (OpCode.jump Jmp.exit immSource).jumpOp = Jmp.exit := by decide

private theorem load_size {size : BitVec 32} (h : size = word ∨ size = half) :
    (OpCode.loadX modeMem size).opClass = .ldX ∧ (OpCode.loadX modeMem size).mode = modeMem ∧
      (OpCode.loadX modeMem size).size = size := by
  rcases h with rfl | rfl <;> decide

section Effects

variable (env : Env) {regs : Regs} {x y : BitVec 64}

/-- A store to `R0` of an immediate: a marker, or a verdict. -/
theorem effect_marker (regs : Regs) (value : BitVec 32) :
    effect env regs (marker value) = some (.write r0 (value.setWidth 64)) := by
  have h : effect env regs (marker value) =
      some (.write r0 ((lowU32 (value.signExtend 64)).setWidth 64)) :=
    effect_mov32 mov_imm.1 mov_imm.2.1 (operand_imm mov_imm.2.2)
  rw [h, lowU32_signExtend]

theorem effect_loadMem {size : BitVec 32} (hs : size = word ∨ size = half) {dst : Register}
    {offset : BitVec 16} (hx : regs r1 = some x)
    (hl : env.load size (x + offset.signExtend 64) = some y) :
    effect env regs (.loadMem dst r1 offset size) = some (.write dst y) := by
  obtain ⟨hc, hm, hsz⟩ := load_size hs
  refine effect_load hc hm hx ?_
  rw [show (Instruction.loadMem dst r1 offset size).opcode.size = size from hsz]
  exact hl

theorem effect_alu_imm {op : BitVec 32} (h : op = Alu.and ∨ op = Alu.rsh) {dst : Register}
    {value : BitVec 32} (hx : regs dst = some x)
    (hy : alu32 op x (value.signExtend 64) = some y) :
    effect env regs (.alu32Imm op dst value) = some (.write dst y) := by
  obtain ⟨hc, ho, hs, hne⟩ := alu_imm h
  have ho' : (Instruction.alu32Imm op dst value).opcode.aluOp = op := ho
  refine effect_alu32 hc ?_ (operand_imm hs) hx ?_
  · rw [ho']; exact hne
  · rw [ho']; exact hy

theorem effect_jne_imm {dst : Register} {value : BitVec 32} {offset : BitVec 16}
    (hx : regs dst = some x) :
    effect env regs (.jumpImm Jmp.jne dst value offset) =
      some (.branch (x ≠ value.signExtend 64) offset) := by
  obtain ⟨hc, hj, hs⟩ := jne_imm
  refine effect_jump hc (fun h => ?_) (fun h => ?_) hx (operand_imm hs) ?_
  · exact absurd (hj.symm.trans h) (by decide)
  · exact absurd (hj.symm.trans h) (by decide)
  · rw [show (Instruction.jumpImm Jmp.jne dst value offset).opcode.jumpOp = Jmp.jne from hj]
    rfl

theorem effect_jne_reg {dst src : Register} {offset : BitVec 16} (hx : regs dst = some x)
    (hy : regs src = some y) :
    effect env regs (.jumpReg Jmp.jne dst src offset) = some (.branch (x ≠ y) offset) := by
  obtain ⟨hc, hj, hs⟩ := jne_reg
  refine effect_jump hc (fun h => ?_) (fun h => ?_) hx ((operand_reg hs).trans hy) ?_
  · exact absurd (hj.symm.trans h) (by decide)
  · exact absurd (hj.symm.trans h) (by decide)
  · rw [show (Instruction.jumpReg Jmp.jne dst src offset).opcode.jumpOp = Jmp.jne from hj]
    rfl

end Effects

theorem Loaded.markers {env : Env} {values : List (BitVec 32)} {p : Nat} {s : State}
    (h : Loaded env s p) (hat : At prog p (values.map marker)) :
    ∃ s', Reaches prog env s s' ∧ Loaded env s' (p + values.length) := by
  induction values generalizing p s with
  | nil => exact ⟨s, .refl, h⟩
  | cons v vs ih =>
    have hfetch := hat.fetch
    rw [← h.pc] at hfetch
    have hstep := step_write hfetch (effect_marker env s.regs v)
    have hnext : Loaded env ⟨s.pc + 1, s.regs.set r0 (v.setWidth 64)⟩ (p + 1) :=
      ⟨by rw [h.pc], h.context, h.frame⟩
    obtain ⟨s', hs', hl⟩ := ih hnext hat.tail
    refine ⟨s', .head hstep hs', ?_⟩
    rwa [List.length_cons, Nat.add_comm vs.length, ← Nat.add_assoc]

/-- The access is the upper half of the first word. -/
theorem access_shift : alu32 Alu.rsh ((req.access ++ req.kind).setWidth 64)
    (BitVec.signExtend 64 (16 : BitVec 32)) = some (req.access.setWidth 64) := by
  have h : lowU32 (BitVec.signExtend 64 (16 : BitVec 32)) &&& 31 = 16 := by decide
  simp only [alu32, h]
  rw [if_neg (by decide), if_neg (by decide), if_neg (by decide), if_pos trivial]
  congr 1
  apply BitVec.eq_of_getLsbD_eq
  intro i hi
  simp [lowU32]
  grind

/-- The context loads fill the registers the blocks read. -/
theorem Loaded.init {p : Nat} {s : State} (h : Loaded (req.env base frame) s p)
    (hat : At prog p Program.init) :
    ∃ s', Reaches prog (req.env base frame) s s' ∧
      Ready req (req.env base frame) s' (p + Program.initLen) := by
  obtain ⟨pc, g⟩ := s
  obtain ⟨rfl, hctx, hframe⟩ := h
  let g1 := g.set r2 (req.kind.setWidth 64)
  let g2 := g1.set r3 ((req.access ++ req.kind).setWidth 64)
  let g3 := g2.set r3 (req.access.setWidth 64)
  let g4 := g3.set r4 (req.major.setWidth 64)
  have h1 := step_write (s := ⟨pc, g⟩) hat.fetch
    (effect_loadMem _ (.inr rfl) hctx (load_type req base frame))
  have h2 := step_write (s := ⟨pc + 1, g1⟩) hat.tail.fetch
    (effect_loadMem _ (.inl rfl) hctx (load_access req base frame))
  have h3 := step_write (s := ⟨pc + 1 + 1, g2⟩) hat.tail.tail.fetch
    (effect_alu_imm (req.env base frame) (.inr rfl) rfl access_shift)
  have h4 := step_write (s := ⟨pc + 1 + 1 + 1, g3⟩) hat.tail.tail.tail.fetch
    (effect_loadMem _ (.inl rfl) hctx (load_major req base frame))
  have h5 := step_write (s := ⟨pc + 1 + 1 + 1 + 1, g4⟩) hat.tail.tail.tail.tail.fetch
    (effect_loadMem _ (.inl rfl) hctx (load_minor req base frame))
  exact ⟨_, .head h1 (.head h2 (.head h3 (.head h4 (.head h5 .refl)))),
    ⟨rfl, hctx, hframe⟩, rfl, rfl, rfl, rfl⟩

/-! ### Blocks -/

/-- The jump of a check leads to the next block. -/
theorem target_jumpOffset {q next : Nat} (h : q < next) (h' : next ≤ q + 8) :
    target q (jumpOffset next q) = some next := by
  obtain ⟨d, rfl⟩ : ∃ d, next = q + (d + 1) := ⟨next - q - 1, by omega⟩
  have hd : d < 8 := by omega
  have key : ∀ d : Fin 8, (jumpOffset (d.val + 1) 0).toInt = d.val := by decide
  have hoff : (jumpOffset (q + (d + 1)) q).toInt = d := by
    have hshift : jumpOffset (q + (d + 1)) q = jumpOffset (d + 1) 0 := jumpOffset_add q (d + 1) 0
    rw [hshift]
    exact key ⟨d, hd⟩
  simp only [target, hoff]
  rw [if_pos (by omega)]
  congr 1
  omega

/-- A part of a block: with the registers ready it goes on to the rest of the block when `cond`
holds, and otherwise jumps to the next block. -/
def Stage (prog : List Instruction) (req : Request) (env : Env) (next : Nat) (steps : List Step)
    (cond : Bool) : Prop :=
  ∀ (q : Nat) (rest : List Step) (s : State), Ready req env s q → q + steps.length < next →
    next ≤ q + 8 → At prog q (Program.placeSteps next q (steps ++ rest)) →
    ∃ s', Reaches prog env s s' ∧
      if cond then Ready req env s' (q + steps.length) ∧
        At prog (q + steps.length) (Program.placeSteps next (q + steps.length) rest)
      else Ready req env s' next

variable {env : Env} {next : Nat}

theorem Stage.nil : Stage prog req env next [] true := by
  intro q rest s hr _ _ hat
  exact ⟨s, .refl, hr, hat⟩

theorem Stage.append {a b : List Step} {c d : Bool} (ha : Stage prog req env next a c)
    (hb : Stage prog req env next b d) : Stage prog req env next (a ++ b) (c && d) := by
  intro q rest s hr hlt hle hat
  rw [List.length_append] at hlt
  rw [List.append_assoc] at hat
  obtain ⟨s1, h1, hc⟩ := ha q (b ++ rest) s hr (by omega) hle hat
  cases c with
  | false => exact ⟨s1, h1, hc⟩
  | true =>
    obtain ⟨hr1, hat1⟩ := hc
    obtain ⟨s2, h2, hd⟩ := hb _ rest s1 hr1 (by omega) (by omega) hat1
    refine ⟨s2, h1.trans h2, ?_⟩
    rwa [List.length_append, ← Nat.add_assoc, Bool.true_and]

private theorem placeSteps_jump (next q : Nat) (i : Instruction) (hw : i.width = 1)
    (rest : List Step) :
    Program.placeSteps next q (.jump i :: rest) =
      { i with offset := jumpOffset next q } :: Program.placeSteps next (q + 1) rest := by
  have hw' : ({ i with offset := jumpOffset next q } : Instruction).width = 1 := hw
  simp only [Program.placeSteps, Step.jump, if_true, hw']

theorem placeSteps_plain (next q : Nat) (i : Instruction) (hw : i.width = 1) (rest : List Step) :
    Program.placeSteps next q (.plain i :: rest) = i :: Program.placeSteps next (q + 1) rest := by
  simp only [Program.placeSteps, Step.plain, Bool.false_eq_true, if_false, hw]

/-- A jump to the next block, taken when `cond` does not hold. -/
theorem Ready.branch {q : Nat} {i : Instruction} {rest : List Step} {s : State} {cond : Bool}
    (hr : Ready req env s q) (hlt : q < next) (hle : next ≤ q + 8) (hw : i.width = 1)
    (hat : At prog q (Program.placeSteps next q (.jump i :: rest)))
    (he : effect env s.regs { i with offset := jumpOffset next q } =
      some (.branch (!cond) (jumpOffset next q))) :
    ∃ s', Reaches prog env s s' ∧
      if cond then Ready req env s' (q + 1) ∧ At prog (q + 1) (Program.placeSteps next (q + 1) rest)
      else Ready req env s' next := by
  obtain ⟨⟨rfl, hctx, hframe⟩, hkind, hacc, hmaj, hmin⟩ := hr
  rw [placeSteps_jump next s.pc i hw] at hat
  cases cond with
  | true =>
    refine ⟨_, .step (step_fall hat.fetch he), ?_, hat.tail⟩
    exact ⟨⟨rfl, hctx, hframe⟩, hkind, hacc, hmaj, hmin⟩
  | false =>
    refine ⟨_, .step (step_jump hat.fetch he (target_jumpOffset hlt hle)), ?_⟩
    exact ⟨⟨rfl, hctx, hframe⟩, hkind, hacc, hmaj, hmin⟩

/-- A check of a register against an immediate. -/
theorem Stage.number {number : Option (BitVec 32)} {dst : Register} {x : BitVec 64}
    (hx : ∀ q s, Ready req env s q → s.regs dst = some x) :
    Stage prog req env next (number.map (RuleMatch.numberStep dst)).toList
      (RuleMatch.acceptsNumber number x) := by
  cases number with
  | none => exact .nil
  | some v =>
    intro q rest s hr hlt hle hat
    have hlt : q < next := by simp at hlt; omega
    refine hr.branch hlt hle rfl hat ?_
    rw [RuleMatch.acceptsNumber, Option.all_some, ← decide_not]
    exact effect_jne_imm env (hx q s hr)

private theorem lowU32_access (asked : BitVec 16) :
    (lowU32 (asked.setWidth 64)).setWidth 64 = asked.setWidth 64 := by
  apply BitVec.eq_of_getLsbD_eq
  intro i hi
  simp only [lowU32, BitVec.getLsbD_setWidth]
  grind

/-- The mask of the access check, on 64 bits and on the 16 of the access. -/
theorem and_access (asked : BitVec 16) (mask : BitVec 3) :
    alu32 Alu.and (asked.setWidth 64) ((mask.setWidth 32).signExtend 64) =
      some ((asked &&& mask.setWidth 16).setWidth 64) := by
  simp only [alu32, lowU32_signExtend, if_true]
  congr 1
  apply BitVec.eq_of_getLsbD_eq
  intro i hi
  simp only [lowU32, BitVec.getLsbD_setWidth, BitVec.getLsbD_and]
  grind

theorem setWidth_access_inj {a b : BitVec 16} : a.setWidth 64 = b.setWidth 64 ↔ a = b := by
  constructor
  · intro h
    have := congrArg (BitVec.setWidth 16) h
    simpa using this
  · rintro rfl
    rfl

/-- The access check: `R6` gets what of the access the rule allows. -/
theorem Stage.access (m : RuleMatch) :
    Stage prog req env next m.accessSteps (m.acceptsAccess req.access) := by
  rw [RuleMatch.accessSteps, RuleMatch.acceptsAccess]
  cases m.hasAccess with
  | false => exact .nil
  | true =>
    intro q rest s hr hlt hle hat
    simp only [if_true, List.length_cons, List.length_nil] at hlt
    obtain ⟨⟨rfl, hctx, hframe⟩, hkind, hacc, hmaj, hmin⟩ := hr
    simp only [if_true, List.cons_append, List.nil_append] at hat
    rw [placeSteps_plain next s.pc _ rfl, placeSteps_plain next (s.pc + 1) _ rfl] at hat
    let g1 := s.regs.set r6 (req.access.setWidth 64)
    let g2 := g1.set r6 ((req.access &&& m.access.setWidth 16).setWidth 64)
    have hmov : effect env s.regs (.alu32Reg Alu.mov r6 r3) =
        some (.write r6 (req.access.setWidth 64)) := by
      rw [← lowU32_access]
      exact effect_mov32 mov_reg.1 mov_reg.2.1 ((operand_reg mov_reg.2.2).trans hacc)
    have h1 := step_write hat.fetch hmov
    have h2 := step_write (s := ⟨s.pc + 1, g1⟩) hat.tail.fetch
      (effect_alu_imm env (.inl rfl) rfl (and_access req.access m.access))
    have hr2 : Ready req env ⟨s.pc + 1 + 1, g2⟩ (s.pc + 1 + 1) :=
      ⟨⟨rfl, hctx, hframe⟩, hkind, hacc, hmaj, hmin⟩
    have hcond : (!(!true || decide (req.access &&& m.access.setWidth 16 = req.access))) =
        decide ((req.access &&& m.access.setWidth 16).setWidth 64 ≠ req.access.setWidth 64) := by
      rw [Bool.not_true, Bool.false_or, ← decide_not]
      exact decide_eq_decide.mpr (not_congr setWidth_access_inj.symm)
    obtain ⟨s', h3, hs'⟩ := hr2.branch (by omega) (by omega) rfl hat.tail.tail (by
      rw [hcond]
      exact effect_jne_reg env rfl hacc)
    exact ⟨s', .head h1 (.head h2 h3), hs'⟩

/-- The checks of a block pass when it accepts the request. -/
theorem Stage.checks (m : RuleMatch) :
    Stage prog req env next m.checks (m.accepts req) := by
  have htype : Stage prog req env next
      (m.deviceType.map fun type => RuleMatch.numberStep r2 type.code).toList
      (RuleMatch.acceptsNumber (m.deviceType.map DeviceType.code) (req.kind.setWidth 64)) := by
    have h : Stage prog req env next
        ((m.deviceType.map DeviceType.code).map (RuleMatch.numberStep r2)).toList _ :=
      .number fun q s hr => hr.kind
    rwa [Option.map_map] at h
  exact ((htype.append (.access m)).append (.number fun q s hr => hr.major)).append
    (.number fun q s hr => hr.minor)

/-- **A block answers the requests it accepts and passes on the others.** -/
theorem Ready.block {m : RuleMatch} {p : Nat} {s : State} (hr : Ready req env s p)
    (hat : At prog p m.code) :
    (m.accepts req = true → RunsTo prog env s (if m.allow then 1 else 0)) ∧
      (m.accepts req = false → ∃ s', Reaches prog env s s' ∧
        Ready req env s' (p + m.code.length)) := by
  have hlen := block_length m
  have hchecks := checks_length_le m
  have hcode : m.code = Program.placeSteps (p + m.block.length) p (m.checks ++
      [.plain (.alu32Imm Alu.mov r0 (if m.allow then 1 else 0)), .plain .exit]) :=
    (placeSteps_add p m.block.length 0 m.block).symm
  rw [hcode] at hat
  obtain ⟨s', hs', hc⟩ := Stage.checks m p _ s hr (by omega) (by omega) hat
  constructor
  · intro ha
    rw [ha, if_pos rfl] at hc
    obtain ⟨⟨⟨hpc, -, -⟩, -⟩, hat'⟩ := hc
    rw [placeSteps_plain _ _ _ rfl, placeSteps_plain _ _ _ rfl, ← hpc] at hat'
    have h1 := step_write hat'.fetch (effect_marker env s'.regs (if m.allow then 1 else 0))
    have hval : (if m.allow then (1 : BitVec 32) else 0).setWidth 64 =
        if m.allow then (1 : BitVec 64) else 0 := by cases m.allow <;> rfl
    rw [hval] at h1
    have h2 : step prog env ⟨s'.pc + 1, s'.regs.set r0 (if m.allow then 1 else 0)⟩ =
        .exit (if m.allow then 1 else 0) :=
      step_exit hat'.tail.fetch (effect_exit exit_imm.1 exit_imm.2 rfl)
    exact hs'.runsTo (.of_next h1 (.of_exit h2))
  · intro ha
    rw [ha] at hc
    refine ⟨s', hs', ?_⟩
    rw [code_length]
    exact hc

/-- The blocks one after the other: the first that accepts the request answers. -/
theorem Ready.codes {ms : List RuleMatch} {p : Nat} {s : State} (hr : Ready req env s p)
    (hat : At prog p (codes ms)) :
    (∀ m, ms.find? (·.accepts req) = some m → RunsTo prog env s (if m.allow then 1 else 0)) ∧
      (ms.find? (·.accepts req) = none → ∃ s', Reaches prog env s s' ∧
        Ready req env s' (p + (codes ms).length)) := by
  induction ms generalizing p s with
  | nil => exact ⟨fun m h => (Option.some_ne_none m h.symm).elim, fun _ => ⟨s, .refl, hr⟩⟩
  | cons m ms ih =>
    rw [codes_cons] at hat
    obtain ⟨hyes, hno⟩ := hr.block hat.left
    cases ha : m.accepts req with
    | true =>
      simp only [List.find?_cons, ha]
      refine ⟨fun n hn => ?_, fun hn => by cases hn⟩
      cases hn
      exact hyes ha
    | false =>
      obtain ⟨s', hs', hr'⟩ := hno ha
      obtain ⟨hsome, hnone⟩ := ih hr' hat.right
      simp only [List.find?_cons, ha]
      refine ⟨fun n hn => hs'.runsTo (hsome n hn), fun hn => ?_⟩
      obtain ⟨s'', hs'', hr''⟩ := hnone hn
      refine ⟨s'', hs'.trans hs'', ?_⟩
      rwa [codes_cons, List.length_append, ← Nat.add_assoc]

end Run

/-! ## Wrappers -/

section Wrappers

variable {sha256 : Bytes → Vector Byte 32} {ms : List RuleMatch} {nonce : BitVec 64}
  {original : Bytes} {is : List Instruction}

theorem wrapperCode_at (is : List Instruction) :
    At (wrapperCode sha256 ms nonce original is) 0
      ((headerValues sha256 nonce original (trailerIndex ms)).map marker ++ (Program.init ++
        (codes ms ++ ((trailerValues nonce).map marker ++ is)))) :=
  ⟨[], by rw [wrapperCode, List.drop_zero, List.append_nil, List.append_assoc, List.append_assoc]⟩

/-- The header and the context loads lead to the blocks. -/
theorem wrapper_ready (req : Request) (base frame : BitVec 64) :
    ∃ s, Reaches (wrapperCode sha256 ms nonce original is) (req.env base frame)
        (.start (req.env base frame)) s ∧
      Ready req (req.env base frame) s (headerLen + Program.initLen) := by
  have hat := @wrapperCode_at sha256 ms nonce original is
  have hstart : Loaded (req.env base frame) (.start (req.env base frame)) 0 := ⟨rfl, rfl, rfl⟩
  obtain ⟨s, hs, hl⟩ := hstart.markers hat.left
  rw [headerValues_length, Nat.zero_add] at hl
  have hinit := hat.right.left
  rw [List.length_map, headerValues_length, Nat.zero_add] at hinit
  obtain ⟨s', hs', hr⟩ := hl.init hinit
  exact ⟨s', hs.trans hs', hr⟩

/-- Behind the blocks the original runs as it does alone. -/
theorem wrapper_original {req : Request} {base frame : BitVec 64} {s : State}
    (hr : Ready req (req.env base frame) s (trailerIndex ms)) {v : BitVec 64}
    (hv : Returns is (req.env base frame) v) :
    RunsTo (wrapperCode sha256 ms nonce original is) (req.env base frame) s v := by
  have hat : At (wrapperCode sha256 ms nonce original is) (trailerIndex ms)
      ((trailerValues nonce).map marker) := by
    refine ⟨is, ?_⟩
    rw [wrapperCode_eq, List.drop_left' wrapperFront_length]
  obtain ⟨s', hs', hl⟩ := hr.toLoaded.markers hat
  have hfront : wrapperCode sha256 ms nonce original is =
      (wrapperFront sha256 ms nonce original ++ (trailerValues nonce).map marker) ++ is := by
    rw [wrapperCode_eq, List.append_assoc]
  have hlen : (wrapperFront sha256 ms nonce original ++ (trailerValues nonce).map marker).length =
      trailerIndex ms + (trailerValues nonce).length := by
    rw [List.length_append, wrapperFront_length, List.length_map]
  -- The wrapper leaves the two registers a filter starts with alone.
  have hle : (State.start (req.env base frame)).regs.le s'.regs := by
    intro r v hrv
    simp only [State.start] at hrv
    split at hrv
    · rename_i h; rw [h, hl.context]; exact hrv
    · split at hrv
      · rename_i h; rw [h, hl.frame]; exact hrv
      · cases hrv
  have hrun := RunsTo.shift (wrapperFront sha256 ms nonce original ++
    (trailerValues nonce).map marker) hle hv
  rw [hlen, ← hfront] at hrun
  obtain ⟨pc, regs⟩ := s'
  obtain ⟨rfl, -, -⟩ := hl
  exact hs'.runsTo hrun

/-- **The verdict of a wrapper**, by its blocks. -/
theorem wrapper_verdict (req : Request) (base frame : BitVec 64) :
    (∀ m, ms.find? (·.accepts req) = some m →
      Returns (wrapperCode sha256 ms nonce original is) (req.env base frame)
        (if m.allow then 1 else 0)) ∧
    (ms.find? (·.accepts req) = none → ∀ v, Returns is (req.env base frame) v →
      Returns (wrapperCode sha256 ms nonce original is) (req.env base frame) v) := by
  obtain ⟨s, hs, hr⟩ := @wrapper_ready sha256 ms nonce original is req base frame
  have hat := (@wrapperCode_at sha256 ms nonce original is).right.right.left
  rw [List.length_map, headerValues_length, Nat.zero_add] at hat
  obtain ⟨hsome, hnone⟩ := hr.codes hat
  refine ⟨fun m hm => hs.runsTo (hsome m hm), fun hn v hv => ?_⟩
  obtain ⟨s', hs', hr'⟩ := hnone hn
  exact hs.runsTo (hs'.runsTo (wrapper_original hr' hv))

end Wrappers

/-- **The verdict of the owned wrapper.** For rules that `append_device` accepts, with numbers the
kernel knows, and an original that the gate lets through and that always returns, the wrapper
answers with the last rule that is about the request, and otherwise as the original does. -/
theorem emitOwned_verdict (sha256 : Bytes → Vector Byte 32) {rules : List DeviceRule}
    (nonce : BitVec 64) {original : Bytes} {is : List Instruction} {progMeta : ProgMeta}
    (haccepted : ∃ program, Program.new.appendAll rules.reverse = .ok program)
    (hsmall : ∀ rule ∈ rules, rule.SmallNumbers)
    (hdecode : decode original = .ok is) (hgate : checkWrappable is progMeta = .ok ())
    (hverified : ∀ (req : Request) (base frame : BitVec 64),
      ∃ v, Returns is (req.env base frame) v) :
    ∃ raw, emitOwned sha256 rules nonce original = .ok raw ∧
      ∀ (req : Request) (base frame : BitVec 64),
        match lastMatch rules req with
        | some allow => Answers raw (req.env base frame) (if allow then 1 else 0)
        | none =>
          ∀ v, Answers raw (req.env base frame) v ↔ Answers original (req.env base frame) v := by
  obtain ⟨program, happ⟩ := haccepted
  rw [appendAll_eq] at happ
  cases hcomp : compile rules.reverse with
  | error e => rw [hcomp] at happ; cases happ
  | ok ms =>
    have hd := decode_iff.mp hdecode
    have he := encodes_of_checkWrappable hd hgate
    obtain ⟨hne, -, -⟩ := checkWrappable_ok hgate
    obtain ⟨raw, hw⟩ := @exists_wraps sha256 ms original is (compiled_of_compile hcomp)
      hne hd he nonce
    obtain ⟨is', -, hd', -, hD⟩ := hw.decodes
    obtain rfl := hd.unique hd'
    refine ⟨raw, emitOwned_ok.mpr ?_, fun req base frame => ?_⟩
    · obtain ⟨-, is', hne', hd', -, hE⟩ := hw
      exact ⟨is', ms, hd', hne', hcomp, hE⟩
    · have hfind := find_accepts hcomp (fun rule hr => hsmall rule (List.mem_reverse.mp hr)) req
      obtain ⟨hsome, hnone⟩ := @wrapper_verdict sha256 ms nonce original is req base frame
      rw [lastMatch, ← hfind]
      cases hm : ms.find? (·.accepts req) with
      | some m => exact ⟨_, decode_iff.mpr hD, hsome m hm⟩
      | none =>
        obtain ⟨w, hw⟩ := hverified req base frame
        have hwrapped := hnone hm w hw
        intro v
        constructor
        · rintro ⟨is', hdec, hv⟩
          obtain rfl := hD.unique (decode_iff.mp hdec)
          refine ⟨is, hdecode, ?_⟩
          rwa [hv.unique hwrapped]
        · rintro ⟨is', hdec, hv⟩
          obtain rfl := hd.unique (decode_iff.mp hdec)
          exact ⟨_, decode_iff.mpr hD, hnone hm v hv⟩

/-- `denyAll` returns 0 on every request. -/
theorem denyAll_returns (env : Env) : Returns [.alu32Imm Alu.mov r0 0, .exit] env 0 := by
  have h1 : step [.alu32Imm Alu.mov r0 0, .exit] env (.start env) =
      .next ⟨1, (State.start env).regs.set r0 0⟩ :=
    step_write rfl (effect_marker env _ 0)
  have h2 : step [.alu32Imm Alu.mov r0 0, .exit] env ⟨1, (State.start env).regs.set r0 0⟩ =
      .exit 0 :=
    step_exit rfl (effect_exit exit_imm.1 exit_imm.2 rfl)
  exact .of_next h1 (.of_exit h2)

theorem emitOwned_verdict_denyAll :
    ∃ raw, emitOwned sampleSha256 [nullRule] 7 denyAll = .ok raw ∧
      Answers raw (Request.env ⟨2, 2, 1, 3⟩ 0x1000 0x2000) 1 ∧
      Answers raw (Request.env ⟨2, 2, 1, 5⟩ 0x1000 0x2000) 0 := by
  obtain ⟨raw, hraw, h⟩ := @emitOwned_verdict sampleSha256 [nullRule] 7 denyAll
    [.alu32Imm Alu.mov r0 0, .exit] ⟨true, 0⟩ ⟨_, rfl⟩
      (fun rule hr => by rw [List.mem_singleton.mp hr]; exact ⟨by decide, by decide⟩)
    (by decide) (by decide) (fun req base frame => ⟨0, denyAll_returns _⟩)
  refine ⟨raw, hraw, h ⟨2, 2, 1, 3⟩ 0x1000 0x2000, ?_⟩
  exact (h ⟨2, 2, 1, 5⟩ 0x1000 0x2000 0).mpr ⟨_, rfl, denyAll_returns _⟩

end Filter
end Sda
