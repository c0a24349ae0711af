import DeviceAccess.V2.Controller
import DeviceAccess.Filter.NormalForm
import DeviceAccess.Filter.Gate

/-!
# What a wrapper keeps of the program it wraps

The gate looks at the bytes `classify` kept, and those were encoded from the dump. An offset that
the encoder drops is gone by then: the gate's test that an ALU instruction has no offset never sees
it. So the program in the wrapper is the program that was attached exactly when no ALU instruction
of the dump has an offset (`kept_program_iff`).
-/

namespace Sda
namespace V2

open Asm Sda.Filter

variable {sha256 : Bytes → Vector Byte 32}

/-- What `classify` keeps of a bare program. -/
theorem classifyDump_bare {index : Nat} {dump : Dump} {prog : AttachedProg sha256}
    (h : classifyDump index dump = .ok prog) (hb : prog.owned = false) :
    canonicalBytes dump.instructions = .ok prog.original.raw := by
  unfold classifyDump at h
  split at h
  · cases h
  · rename_i raw hraw
    split at h
    · cases h
    · cases h
      exact hraw
    · cases hg : gate (_ : OwnedProgram).original dump.progMeta with
      | error e => rw [hg] at h; cases h
      | ok u => rw [hg] at h; cases h; cases hb

/-- The gate accepts a program of the subset. -/
theorem gate_inSubset {original : Bytes} {is : List Instruction} {progMeta : ProgMeta}
    (hd : decode original = .ok is) (hg : gate original progMeta = .ok ()) :
    ∀ i ∈ is, inSubset i = true := by
  simp only [gate, hd, Except.mapError, bind, Except.bind] at hg
  cases hc : checkWrappable is progMeta with
  | error e => rw [hc] at hg; cases hg
  | ok u => exact (checkWrappable_ok hc).2.1

/-- An ALU instruction of the subset is a plain one. -/
theorem isPlainAlu_of_inSubset {i : Instruction} (hs : inSubset i.canonical = true)
    (ha : i.opcode.opClass.isAlu = true) : i.isPlainAlu = true := by
  have hop : i.canonical.opcode = i.opcode := by unfold Instruction.canonical; split <;> rfl
  have hmem : i.opcode.aluOp ∈ [Alu.mov, Alu.and, Alu.or, Alu.rsh, Alu.lsh] := by
    rw [inSubset, hop] at hs
    cases hc : i.opcode.opClass with
    | alu | alu64 =>
      simp only [hc, decide_eq_true_eq] at hs
      exact hs.1
    | ld | ldX | st | stX | jump | jump32 => rw [hc] at ha; cases ha
  have hwire : ∀ op ∈ [Alu.mov, Alu.and, Alu.or, Alu.rsh, Alu.lsh],
      (Instruction.wireAluOp op).2 = 0 := by
    intro op h
    simp only [List.mem_cons, List.not_mem_nil, or_false] at h
    rcases h with rfl | rfl | rfl | rfl | rfl <;> rfl
  rw [Instruction.isPlainAlu, ha, hwire _ hmem]
  rfl

/-- The kept bytes decode to the dump without the offsets of its plain ALU instructions. -/
theorem classifyDump_decode {index : Nat} {dump : Dump} {prog : AttachedProg sha256}
    (h : classifyDump index dump = .ok prog) (hb : prog.owned = false) :
    decode prog.original.raw = .ok (dump.instructions.map Instruction.canonical) := by
  obtain ⟨xlated, hx⟩ := dump.decoded
  have he := encodeFrom_iff.mp (classifyDump_bare h hb)
  exact decode_iff.mpr ((decode_iff.mp hx).encodes he).1

/-- **A wrapper keeps the program it wraps exactly when no ALU instruction of it has an offset.**
Of a bare program that the gate accepts, the bytes that go into every wrapper, and that a restore
loads, are the attached program's in this case only. -/
theorem kept_program_iff {index : Nat} {dump : Dump} {prog : AttachedProg sha256}
    (hc : classifyDump index dump = .ok prog) (hb : prog.owned = false)
    (hg : gate prog.raw dump.progMeta = .ok ()) :
    (decode prog.original.raw = .ok dump.instructions ↔
      ∀ i ∈ dump.instructions, i.opcode.opClass.isAlu = true → i.offset = 0) ∧
    ∀ rules nonce wrapper, emitOwned sha256 rules nonce prog.original.raw = .ok wrapper →
      ((∃ front, decode wrapper = .ok (front ++ dump.instructions)) ↔
        ∀ i ∈ dump.instructions, i.opcode.opClass.isAlu = true → i.offset = 0) := by
  have hdec := classifyDump_decode hc hb
  have hsub := gate_inSubset hdec (by rw [prog.bare hb]; exact hg)
  have hiff : dump.instructions.map Instruction.canonical = dump.instructions ↔
      ∀ i ∈ dump.instructions, i.opcode.opClass.isAlu = true → i.offset = 0 := by
    rw [map_canonical_eq_iff]
    refine forall₂_congr fun i hi => ⟨fun h ha => h ?_, fun h hp => h ?_⟩
    · exact isPlainAlu_of_inSubset (hsub _ (List.mem_map_of_mem hi)) ha
    · exact (Bool.and_eq_true_iff.mp hp).1
  refine ⟨by rw [hdec, ← hiff, Except.ok.injEq], fun rules nonce wrapper hw => ?_⟩
  obtain ⟨ms, -, hwraps⟩ := wraps_of_emitOwned prog.original.canonical hw
  obtain ⟨is, -, hd, -, hD⟩ := hwraps.decodes
  obtain rfl := hd.unique (decode_iff.mp hdec)
  rw [decode_iff.mpr hD, ← hiff]
  constructor
  · -- The original is as long as the dump, so the two tails are the same.
    rintro ⟨front, hfront⟩
    rw [Except.ok.injEq, wrapperCode, ← List.append_assoc] at hfront
    exact (List.append_inj' hfront (List.length_map _)).2
  · intro heq
    exact ⟨_, by rw [Except.ok.injEq, wrapperCode, ← List.append_assoc, heq]⟩

/-- A dump of `strayOffset`, a program without maps. -/
def strayDump : Dump where
  instructions := strayOffsetInstructions
  progMeta := ⟨true, 0⟩
  nonempty := by decide
  decoded := ⟨strayOffset, by decide⟩

/-- `r0 = 1` with an offset is accepted, and what is kept of it is `r0 = 1` without one. -/
theorem stray_offset_lost :
    ∃ prog : AttachedProg sampleSha256, classifyDump 0 strayDump = .ok prog ∧
      prog.owned = false ∧ gate prog.raw strayDump.progMeta = .ok () ∧
      decode prog.original.raw ≠ .ok strayDump.instructions := by
  exact ⟨_, rfl, rfl, rfl, by decide⟩

/-- A dump of `denyAll`. -/
def denyDump : Dump where
  instructions := [.alu32Imm Alu.mov r0 0, .exit]
  progMeta := ⟨true, 0⟩
  nonempty := by decide
  decoded := ⟨denyAll, by decide⟩

theorem kept_program_deny :
    ∃ prog : AttachedProg sampleSha256, classifyDump 0 denyDump = .ok prog ∧
      prog.owned = false ∧ gate prog.raw denyDump.progMeta = .ok () ∧
      decode prog.original.raw = .ok denyDump.instructions := by
  refine ⟨_, rfl, rfl, rfl, ?_⟩
  exact (@kept_program_iff sampleSha256 0 denyDump _ rfl rfl rfl).1.mpr (by decide)

end V2
end Sda
