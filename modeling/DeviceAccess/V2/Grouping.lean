import DeviceAccess.V2.Blocks

/-!
# Grouping the attached programs

`groupWrappers` splits the classified programs into the bare ones and the wrappers, and these into
lineages (`Grouping`): every wrapper is in the group of its nonce and original, and no two groups
have both in common.
-/

namespace Sda
namespace V2

open Asm Sda.Filter

variable {sha256 : Bytes → Vector Byte 32}

/-- What makes a lineage: the nonce and the bytes of the original. -/
abbrev Key := BitVec 64 × Bytes

def AttachedProg.key (prog : AttachedProg sha256) : Key := (prog.nonce, prog.original.raw)

def WrapperGroup.key (group : WrapperGroup sha256) : Key := (group.nonce, group.original.raw)

def CachedLineage.key (lineage : CachedLineage sha256) : Key :=
  (lineage.nonce, lineage.original.raw)

theorem WrapperGroup.has_iff {group : WrapperGroup sha256} {prog : AttachedProg sha256} :
    group.has prog = true ↔ group.key = prog.key := by
  simp [has, key, AttachedProg.key]

/-- What `groupWrappers` makes of the programs. -/
structure Grouping (progs : List (AttachedProg sha256)) (groups : List (WrapperGroup sha256))
    (bares : List (AttachedProg sha256)) : Prop where
  bares_eq : bares = progs.filter (!·.owned)
  members : (groups.flatMap WrapperGroup.members).Perm (progs.filter (·.owned))
  key_eq : ∀ group ∈ groups, ∀ prog ∈ group.members, prog.key = group.key
  distinct : (groups.map WrapperGroup.key).Nodup

theorem addToGroups_members (prog : AttachedProg sha256) (groups : List (WrapperGroup sha256)) :
    ((addToGroups prog groups).flatMap WrapperGroup.members).Perm
      (groups.flatMap WrapperGroup.members ++ [prog]) := by
  induction groups with
  | nil => rfl
  | cons group groups ih =>
    rw [addToGroups]
    split
    · simp only [List.flatMap_cons, WrapperGroup.push, List.append_assoc]
      exact .append_left _ List.perm_append_comm
    · simp only [List.flatMap_cons, List.append_assoc]
      exact .append_left _ ih

theorem mem_addToGroups {prog : AttachedProg sha256} {groups : List (WrapperGroup sha256)}
    {group : WrapperGroup sha256} (h : group ∈ addToGroups prog groups) :
    group ∈ groups ∨ group.key = prog.key ∧ ∀ member ∈ group.members,
      member = prog ∨ ∃ old ∈ groups, old.key = group.key ∧ member ∈ old.members := by
  induction groups with
  | nil =>
    rw [List.mem_singleton.mp h]
    exact .inr ⟨rfl, fun member hm => .inl (List.mem_singleton.mp hm)⟩
  | cons first groups ih =>
    rw [addToGroups] at h
    split at h
    · rename_i hhas
      rcases List.mem_cons.mp h with rfl | h
      · refine .inr ⟨WrapperGroup.has_iff.mp hhas, fun member hm => ?_⟩
        rcases List.mem_append.mp hm with hm | hm
        · exact .inr ⟨first, List.mem_cons_self, rfl, hm⟩
        · exact .inl (List.mem_singleton.mp hm)
      · exact .inl (List.mem_cons_of_mem _ h)
    · rcases List.mem_cons.mp h with rfl | h
      · exact .inl List.mem_cons_self
      · rcases ih h with h | ⟨hk, hm⟩
        · exact .inl (List.mem_cons_of_mem _ h)
        · refine .inr ⟨hk, fun member hmem => (hm member hmem).imp_right ?_⟩
          rintro ⟨old, ho, hold⟩
          exact ⟨old, List.mem_cons_of_mem _ ho, hold⟩

theorem addToGroups_keys (prog : AttachedProg sha256) (groups : List (WrapperGroup sha256)) :
    (addToGroups prog groups).map WrapperGroup.key =
      if prog.key ∈ groups.map WrapperGroup.key then groups.map WrapperGroup.key
      else groups.map WrapperGroup.key ++ [prog.key] := by
  induction groups with
  | nil => rfl
  | cons group groups ih =>
    rw [addToGroups]
    split
    · rename_i hhas
      rw [if_pos (by rw [← WrapperGroup.has_iff.mp hhas]; exact List.mem_cons_self)]
      rfl
    · rename_i hhas
      have hne : prog.key ≠ group.key := fun h => hhas (WrapperGroup.has_iff.mpr h.symm)
      rw [List.map_cons, ih]
      simp only [List.map_cons, List.mem_cons, hne, false_or]
      split <;> rfl

theorem Grouping.add_owned {progs : List (AttachedProg sha256)}
    {groups : List (WrapperGroup sha256)} {bares : List (AttachedProg sha256)}
    (h : Grouping progs groups bares) {prog : AttachedProg sha256} (ho : prog.owned = true) :
    Grouping (progs ++ [prog]) (addToGroups prog groups) bares where
  bares_eq := by simp [h.bares_eq, ho]
  members := by
    rw [List.filter_append, List.filter_cons_of_pos ho, List.filter_nil]
    exact (addToGroups_members prog groups).trans (h.members.append_right _)
  key_eq group hg member hm := by
    rcases mem_addToGroups hg with hg | ⟨hk, hmem⟩
    · exact h.key_eq group hg member hm
    · rcases hmem member hm with rfl | ⟨old, hold, hkey, hm⟩
      · exact hk.symm
      · exact (h.key_eq old hold member hm).trans hkey
  distinct := by
    rw [addToGroups_keys]
    split
    · exact h.distinct
    · rename_i hk
      refine List.nodup_append.mpr ⟨h.distinct, List.nodup_singleton _, fun a ha b hb hab => hk ?_⟩
      rwa [← List.mem_singleton.mp hb, ← hab]

theorem Grouping.step {progs : List (AttachedProg sha256)}
    {acc : List (WrapperGroup sha256) × List (AttachedProg sha256)}
    (h : Grouping progs acc.1 acc.2) (prog : AttachedProg sha256) :
    Grouping (progs ++ [prog]) (groupStep acc prog).1 (groupStep acc prog).2 := by
  rw [groupStep]
  cases ho : prog.owned with
  | true => exact h.add_owned ho
  | false =>
    refine ⟨by simp [h.bares_eq, ho], ?_, h.key_eq, h.distinct⟩
    rw [List.filter_append, List.filter_cons_of_neg (by simp [ho]), List.filter_nil,
      List.append_nil]
    exact h.members

theorem grouping_groupWrappers (progs : List (AttachedProg sha256)) :
    Grouping progs (groupWrappers progs).1 (groupWrappers progs).2 := by
  -- The loop, with the programs it has seen.
  have loop : ∀ (rest seen : List (AttachedProg sha256))
      (acc : List (WrapperGroup sha256) × List (AttachedProg sha256)), Grouping seen acc.1 acc.2 →
      Grouping (seen ++ rest) (rest.foldl groupStep acc).1 (rest.foldl groupStep acc).2 := by
    intro rest
    induction rest with
    | nil => intro seen acc h; simpa using h
    | cons prog rest ih =>
      intro seen acc h
      rw [List.foldl_cons, List.append_cons]
      exact ih _ _ (h.step prog)
  exact loop progs [] ([], []) ⟨rfl, .nil, nofun, List.nodup_nil⟩

theorem addToGroups_progMeta (prog : AttachedProg sha256) {groups : List (WrapperGroup sha256)}
    (h : ∀ group ∈ groups, ∃ member ∈ group.members, member.progMeta = group.progMeta) :
    ∀ group ∈ addToGroups prog groups,
      ∃ member ∈ group.members, member.progMeta = group.progMeta := by
  induction groups with
  | nil =>
    intro group hg
    rw [List.mem_singleton.mp hg]
    exact ⟨prog, List.mem_cons_self, rfl⟩
  | cons first groups ih =>
    have hfirst := h first List.mem_cons_self
    have hrest := fun group hg => h group (List.mem_cons_of_mem _ hg)
    rw [addToGroups]
    split
    · intro group hg
      rcases List.mem_cons.mp hg with rfl | hg
      · obtain ⟨member, hm, hmeta⟩ := hfirst
        exact ⟨member, List.mem_append_left _ hm, hmeta⟩
      · exact hrest group hg
    · intro group hg
      rcases List.mem_cons.mp hg with rfl | hg
      · exact hfirst
      · exact ih hrest group hg

/-- What is known about a lineage was learnt from one of its wrappers. -/
theorem groupWrappers_progMeta (progs : List (AttachedProg sha256)) :
    ∀ group ∈ (groupWrappers progs).1, ∃ prog ∈ group.members, prog.progMeta = group.progMeta := by
  have loop : ∀ (rest : List (AttachedProg sha256))
      (acc : List (WrapperGroup sha256) × List (AttachedProg sha256)),
      (∀ group ∈ acc.1, ∃ prog ∈ group.members, prog.progMeta = group.progMeta) →
      ∀ group ∈ (rest.foldl groupStep acc).1,
        ∃ prog ∈ group.members, prog.progMeta = group.progMeta := by
    intro rest
    induction rest with
    | nil => exact fun _ h => h
    | cons prog rest ih =>
      intro acc h
      refine ih _ ?_
      rw [groupStep]
      split
      · exact addToGroups_progMeta prog h
      · exact h
  exact loop progs ([], []) nofun

theorem Grouping.perm {progs : List (AttachedProg sha256)} {groups : List (WrapperGroup sha256)}
    {bares : List (AttachedProg sha256)} (h : Grouping progs groups bares) :
    (groups.flatMap WrapperGroup.members ++ bares).Perm progs := by
  rw [h.bares_eq]
  exact (h.members.append_right _).trans (List.filter_append_perm _ _)

end V2
end Sda
