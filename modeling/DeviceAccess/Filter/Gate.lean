import DeviceAccess.Filter.Owned
import DeviceAccess.Asm.Stream

/-!
# What the reloadability gate lets through

A program that `check_wrappable` accepts is made of instructions that encode to the bytes they were
decoded from (`encodes_of_checkWrappable`), so its bytes are canonical.
-/

namespace Sda
namespace Filter

open Asm

/-- The loop of the gate has seen every instruction. -/
theorem inSubset_of_checkInstructions {len index : Nat} {is : List Instruction}
    (h : checkInstructions len index is = .ok ()) : ∀ i ∈ is, inSubset i = true := by
  induction is generalizing index with
  | nil => intro i hi; cases hi
  | cons i is ih =>
    rw [checkInstructions] at h
    by_cases hs : inSubset i = true
    · rw [if_neg (by simp [hs])] at h
      simp only at h
      split at h
      · cases h
      · intro j hj
        rcases List.mem_cons.mp hj with rfl | hj
        · exact hs
        · exact ih h j hj
    · rw [if_pos hs] at h
      cases h

theorem checkWrappable_ok {is : List Instruction} {progMeta : ProgMeta}
    (h : checkWrappable is progMeta = .ok ()) :
    is ≠ [] ∧ (∀ i ∈ is, inSubset i = true) ∧ checkInstructions is.length 0 is = .ok () := by
  unfold checkWrappable at h
  split at h
  · cases h
  · split at h
    · cases h
    · split at h
      · cases h
      · exact ⟨‹_›, inSubset_of_checkInstructions h, h⟩

/-- An instruction of the subset has no offset that the wire would drop. -/
theorem canonical_of_inSubset {i : Instruction} (h : inSubset i = true) : i.canonical = i := by
  rw [Instruction.canonical]
  split
  · rename_i hp
    rw [Instruction.isPlainAlu, Bool.and_eq_true] at hp
    have ho : i.offset = 0 := by
      rw [inSubset] at h
      cases hc : i.opcode.opClass with
      | alu | alu64 =>
        simp only [hc, decide_eq_true_eq] at h
        exact h.2
      | ld | ldX | st | stX | jump | jump32 => rw [hc] at hp; cases hp.1
    rw [← ho]
  · rfl

/-- A decoded instruction of the subset encodes. -/
theorem encode_of_inSubset {raw : Bytes} {i : Instruction} (hd : decodeOne raw = .ok i)
    (h : inSubset i = true) : ∃ s, i.encode = .ok s := by
  rcases decodeOne_ok hd with ⟨b, rest, -, hdw, hn⟩ | ⟨b, h0, h1, h2, h3, rest, -, hdw, rfl⟩
  · rcases encode_normalise hn hdw with he | ⟨-, hcall, -⟩
    · exact ⟨_, he⟩
    · -- A call is a jump the subset does not have.
      have hj : i.opcode.jumpOp = Jmp.call := by
        simp only [Instruction.isBuiltinCall, decide_eq_true_eq] at hcall
        exact hcall.1
      rw [inSubset] at h
      cases hc : i.opcode.opClass with
      | jump | jump32 =>
        simp only [hc, hj] at h
        exact absurd h (by decide)
      | ld | ldX | st | stX | alu | alu64 =>
        rw [OpCode.jumpOp, hc] at hj
        exact absurd (show invalidJumpOp = Jmp.call from hj) (by decide)
  · exact ⟨_, encode_wide hdw⟩

/-- **What the gate lets through is canonical.** -/
theorem encodes_of_checkWrappable {raw : Bytes} {is : List Instruction} {progMeta : ProgMeta}
    (hd : Decodes raw is) (h : checkWrappable is progMeta = .ok ()) : Encodes is raw := by
  obtain ⟨-, hsub, -⟩ := checkWrappable_ok h
  have hex : ∃ raw', Encodes is raw' := by
    clear h
    induction hd with
    | nil => exact ⟨[], .nil⟩
    | @cons raw rest i is hdec hs hr ih =>
      obtain ⟨s, hs⟩ := encode_of_inSubset (hdec []) (hsub i List.mem_cons_self)
      obtain ⟨raw', hraw'⟩ := ih fun j hj => hsub j (List.mem_cons_of_mem _ hj)
      exact ⟨s ++ raw', .cons hs hraw'⟩
  obtain ⟨raw', he⟩ := hex
  have hmap : is.map Instruction.canonical = is := by
    conv_rhs => rw [← List.map_id is]
    exact List.map_congr_left fun i hi => canonical_of_inSubset (hsub i hi)
  rwa [← (hd.encodes he).2.2 hmap]

end Filter
end Sda
