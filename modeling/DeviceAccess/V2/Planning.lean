import DeviceAccess.V2.Grouping

/-!
# What a pass plans

Every plan is a list of blocks, one per lineage (`planPass_ok`), and the blocks account for the
classified programs: each program is in one block, its original is that of the block's lineage, and
what stands for the block in the end is the program the rules ask for (`Target`, `Accounts`).

* `grantBlock`, `BareBlocks`: a pass for non-empty rules.
* `restoreBlocks`: a pass for empty rules.
* `RebuildBlocks`: the lineages that are attached again.
-/

namespace Sda
namespace V2

open Asm Sda.Filter Handover

variable {sha256 : Bytes → Vector Byte 32}

/-- The program that stands for a lineage: its original for empty rules, the wrapper otherwise. -/
def Target (rules : List DeviceRule) (lineage : CachedLineage sha256) (raw : Bytes) : Prop :=
  if rules = [] then raw = lineage.original.raw
  else emitOwned sha256 rules lineage.nonce lineage.original.raw = .ok raw

/-- The block accounts for the programs. -/
structure Accounts (rules : List DeviceRule) (progs : List (AttachedProg sha256))
    (block : Block sha256) : Prop where
  members : block.part.members.Perm (progs.map AttachedProg.index)
  original : ∀ prog ∈ progs, prog.original.raw = block.lineage.original.raw
  keeper : ∀ k drops, block.part = .keep k drops →
    ∃ prog ∈ progs, prog.index = k ∧ Target rules block.lineage prog.raw
  new : ∀ load, block.part.new = some load → Target rules block.lineage load.1

/-! ## Granting -/

/-- The block of a lineage whose wrapper is to be `desired`. -/
def grantBlock (desired : Bytes) (group : WrapperGroup sha256) : Block sha256 where
  lineage := group.lineage
  part := match group.members.findIdx? (·.raw = desired) with
    | some k => .keep ((group.members.map AttachedProg.index).getD k 0)
      ((group.members.eraseIdx k).map AttachedProg.index)
    | none => .swap (group.members.head group.nonempty).index (desired, ownedProgramName)
      (group.members.tail.map AttachedProg.index)

theorem grantGroup_eq {rules : List DeviceRule} {group : WrapperGroup sha256} {desired : Bytes}
    (h : emitOwned sha256 rules group.nonce group.original.raw = .ok desired)
    (plan : PassPlan sha256) :
    grantGroup rules plan group = .ok (plan.add (grantBlock desired group)) := by
  simp only [grantGroup, h, Except.mapError, bind, Except.bind, grantBlock, PassPlan.add]
  cases group.members.findIdx? (·.raw = desired) with
  | some k => simp only [PassPlan.detachAll_eq]
  | none => simp only [PassPlan.detachAll_eq, List.eraseIdx_zero]

private theorem grantGroup_error {rules : List DeviceRule} {group : WrapperGroup sha256}
    {e : EmitError}
    (h : emitOwned sha256 rules group.nonce group.original.raw = .error e)
    (plan : PassPlan sha256) : grantGroup rules plan group = .error (.emit e) := by
  simp only [grantGroup, h, Except.mapError, bind, Except.bind]

/-- The blocks of the wrapper lineages. -/
def GrantBlocks (rules : List DeviceRule) :
    List (WrapperGroup sha256) → List (Block sha256) → Prop :=
  List.Forall₂ fun group block => ∃ desired,
    emitOwned sha256 rules group.nonce group.original.raw = .ok desired ∧
      block = grantBlock desired group

theorem foldlM_grantGroup {rules : List DeviceRule} {groups : List (WrapperGroup sha256)}
    {plan plan' : PassPlan sha256} :
    groups.foldlM (grantGroup rules) plan = .ok plan' ↔
      ∃ blocks, GrantBlocks rules groups blocks ∧ plan' = blocks.foldl PassPlan.add plan := by
  induction groups generalizing plan with
  | nil =>
    constructor
    · intro h; cases h; exact ⟨[], .nil, rfl⟩
    · rintro ⟨_, hb, rfl⟩; cases hb; rfl
  | cons group groups ih =>
    rw [List.foldlM_cons]
    constructor
    · intro h
      cases he : emitOwned sha256 rules group.nonce group.original.raw with
      | error e => rw [grantGroup_error he] at h; cases h
      | ok desired =>
        rw [grantGroup_eq he] at h
        obtain ⟨blocks, hb, rfl⟩ := ih.mp h
        exact ⟨_ :: blocks, .cons ⟨desired, he, rfl⟩ hb, rfl⟩
    · rintro ⟨_, hb, rfl⟩
      cases hb with
      | cons hfirst hb =>
        obtain ⟨desired, he, rfl⟩ := hfirst
        rw [grantGroup_eq he]
        exact ih.mpr ⟨_, hb, rfl⟩

/-- The blocks of the bare programs, with the nonces drawn from number `n` on. -/
inductive BareBlocks (source : Nat → Except NonceError (BitVec 64)) (rules : List DeviceRule) :
    Nat → List (AttachedProg sha256) → List (Block sha256) → Nat → Prop
  | nil (n : Nat) : BareBlocks source rules n [] [] n
  | cons {n n' : Nat} {bare : AttachedProg sha256} {bares : List (AttachedProg sha256)}
      {blocks : List (Block sha256)} {nonce : BitVec 64} {wrapped : Bytes} :
      gate bare.raw bare.progMeta = .ok () → source n = .ok nonce →
      emitOwned sha256 rules nonce bare.raw = .ok wrapped →
      BareBlocks source rules (n + 1) bares blocks n' →
      BareBlocks source rules n (bare :: bares)
        (⟨⟨nonce, bare.original, bare.progMeta⟩,
          .swap bare.index (wrapped, ownedProgramName) []⟩ :: blocks) n'

theorem mapError_ok_inv {α ε ε' : Type} {x : Except ε α} {f : ε → ε'} {a : α}
    (h : x.mapError f = .ok a) : x = .ok a := by
  cases x with
  | error e => cases h
  | ok b => cases h; rfl

theorem ofExcept_inv {σ ε α : Type} {x : Except ε α} {a : α} {s s' : σ}
    (h : Action.ofExcept x s = (.ok a, s')) : x = .ok a ∧ s' = s := by
  cases h; exact ⟨rfl, rfl⟩

theorem newNonce_inv {source : Nat → Except NonceError (BitVec 64)} {n n' : Nat} {nonce : BitVec 64}
    (h : newNonce source n = (.ok nonce, n')) : source n = .ok nonce ∧ n' = n + 1 := by
  obtain ⟨hn, rfl⟩ := Prod.mk.inj h
  exact ⟨mapError_ok_inv hn, rfl⟩

theorem grantBare_inv {source : Nat → Except NonceError (BitVec 64)} {rules : List DeviceRule}
    {plan plan' : PassPlan sha256} {bare : AttachedProg sha256} {n n' : Nat}
    (h : grantBare source rules plan bare n = (.ok plan', n')) :
    ∃ nonce wrapped, gate bare.raw bare.progMeta = .ok () ∧ source n = .ok nonce ∧
      emitOwned sha256 rules nonce bare.raw = .ok wrapped ∧ n' = n + 1 ∧
      plan' = plan.add ⟨⟨nonce, bare.original, bare.progMeta⟩,
        .swap bare.index (wrapped, ownedProgramName) []⟩ := by
  rw [grantBare] at h
  obtain ⟨u, n₁, h₁, h₂⟩ := Action.bind_ok_inv h
  obtain ⟨hg, rfl⟩ := ofExcept_inv h₁
  obtain ⟨nonce, n₂, h₃, h₄⟩ := Action.bind_ok_inv h₂
  obtain ⟨hn, rfl⟩ := newNonce_inv h₃
  obtain ⟨wrapped, n₃, h₅, h₆⟩ := Action.bind_ok_inv h₄
  obtain ⟨he, rfl⟩ := ofExcept_inv h₅
  cases h₆
  exact ⟨nonce, wrapped, hg, hn, mapError_ok_inv he, rfl, rfl⟩

theorem foldlM_grantBare {source : Nat → Except NonceError (BitVec 64)} {rules : List DeviceRule}
    {bares : List (AttachedProg sha256)} {plan plan' : PassPlan sha256} {n n' : Nat}
    (h : bares.foldlM (grantBare source rules) plan n = (.ok plan', n')) :
    ∃ blocks, BareBlocks source rules n bares blocks n' ∧
      plan' = blocks.foldl PassPlan.add plan := by
  induction bares generalizing plan n with
  | nil => cases h; exact ⟨[], .nil _, rfl⟩
  | cons bare bares ih =>
    rw [List.foldlM_cons] at h
    obtain ⟨plan₁, n₁, hone, hrest⟩ := Action.bind_ok_inv h
    obtain ⟨nonce, wrapped, hg, hn, he, rfl, rfl⟩ := grantBare_inv hone
    obtain ⟨blocks, hb, rfl⟩ := ih hrest
    exact ⟨_ :: blocks, .cons hg hn he hb, rfl⟩

/-! ## Restoring -/

/-- The blocks of a pass for empty rules; `available` are the bare programs that stand for no
lineage yet. -/
def restoreBlocks : List (WrapperGroup sha256) → List (AttachedProg sha256) → List (Block sha256)
  | [], available => available.map fun bare =>
    ⟨⟨0, bare.original, bare.progMeta⟩, .keep bare.index []⟩
  | group :: groups, available =>
    match available.find? (·.raw = group.original.raw) with
    | some bare =>
      ⟨group.lineage, .keep bare.index (group.members.map AttachedProg.index)⟩ ::
        restoreBlocks groups (available.eraseP (·.raw = group.original.raw))
    | none =>
      ⟨group.lineage, .swap (group.members.head group.nonempty).index (group.original.raw, "")
        (group.members.tail.map AttachedProg.index)⟩ :: restoreBlocks groups available

theorem restoreBlocks_eq (groups : List (WrapperGroup sha256))
    (available : List (AttachedProg sha256)) (plan : PassPlan sha256) :
    (groups.foldl restoreGroup (plan, available)).2.foldl
        (fun plan bare => plan.remember ⟨0, bare.original, bare.progMeta⟩)
        (groups.foldl restoreGroup (plan, available)).1 =
      (restoreBlocks groups available).foldl PassPlan.add plan := by
  induction groups generalizing available plan with
  | nil =>
    rw [restoreBlocks, List.foldl_map]
    rfl
  | cons group groups ih =>
    rw [List.foldl_cons, restoreBlocks, restoreGroup]
    cases hf : available.find? (·.raw = group.original.raw) with
    | some bare =>
      have hany : available.any (·.raw = group.original.raw) = true :=
        List.any_eq_true.mpr ⟨bare, List.mem_of_find?_eq_some hf, by simpa using List.find?_some hf⟩
      rw [if_pos hany, ih, List.foldl_cons]
      simp only [PassPlan.add, PassPlan.detachAll_eq]
    | none =>
      have hany : ¬ available.any (·.raw = group.original.raw) = true := by
        rw [List.any_eq_true]
        rintro ⟨bare, hm, hb⟩
        exact List.find?_eq_none.mp hf bare hm hb
      rw [if_neg hany, ih, List.foldl_cons]
      simp only [PassPlan.add, PassPlan.detachAll_eq]

theorem planRestore_eq (groups : List (WrapperGroup sha256)) (bares : List (AttachedProg sha256)) :
    planRestore groups bares = planOf (restoreBlocks groups bares) :=
  restoreBlocks_eq groups bares PassPlan.empty

/-! ## Rebuilding -/

/-- The nonce a lineage is wrapped under again. -/
def Draws (source : Nat → Except NonceError (BitVec 64)) (n : Nat) (lineage : CachedLineage sha256)
    (nonce : BitVec 64) (n' : Nat) : Prop :=
  if lineage.nonce = 0 then source n = .ok nonce ∧ n' = n + 1 else nonce = lineage.nonce ∧ n' = n

/-- The blocks of the lineages that are attached again. -/
inductive RebuildBlocks (source : Nat → Except NonceError (BitVec 64)) (rules : List DeviceRule) :
    Nat → List (CachedLineage sha256) → List (Block sha256) → Nat → Prop
  | nil (n : Nat) : RebuildBlocks source rules n [] [] n
  | bare {n n' : Nat} {lineage : CachedLineage sha256} {cached : List (CachedLineage sha256)}
      {blocks : List (Block sha256)} :
      rules = [] → gate lineage.original.raw lineage.progMeta = .ok () →
      RebuildBlocks source rules n cached blocks n' →
      RebuildBlocks source rules n (lineage :: cached)
        (⟨lineage, .attach (lineage.original.raw, "")⟩ :: blocks) n'
  | wrapped {n n₁ n' : Nat} {lineage : CachedLineage sha256} {cached : List (CachedLineage sha256)}
      {blocks : List (Block sha256)} {nonce : BitVec 64} {wrapped : Bytes} :
      rules ≠ [] → gate lineage.original.raw lineage.progMeta = .ok () →
      Draws source n lineage nonce n₁ →
      emitOwned sha256 rules nonce lineage.original.raw = .ok wrapped →
      RebuildBlocks source rules n₁ cached blocks n' →
      RebuildBlocks source rules n (lineage :: cached)
        (⟨{ lineage with nonce := nonce }, .attach (wrapped, ownedProgramName)⟩ :: blocks) n'

theorem foldlM_rebuildLineage {source : Nat → Except NonceError (BitVec 64)}
    {rules : List DeviceRule} {cached : List (CachedLineage sha256)} {plan plan' : PassPlan sha256}
    {n n' : Nat} (h : cached.foldlM (rebuildLineage source rules) plan n = (.ok plan', n')) :
    ∃ blocks, RebuildBlocks source rules n cached blocks n' ∧
      plan' = blocks.foldl PassPlan.add plan := by
  induction cached generalizing plan n with
  | nil => cases h; exact ⟨[], .nil _, rfl⟩
  | cons lineage cached ih =>
    rw [List.foldlM_cons] at h
    obtain ⟨plan₁, n₁, hone, hrest⟩ := Action.bind_ok_inv h
    rw [rebuildLineage] at hone
    obtain ⟨u, n₂, h₁, h₂⟩ := Action.bind_ok_inv hone
    obtain ⟨hg, rfl⟩ := ofExcept_inv h₁
    by_cases hr : rules = []
    · rw [if_pos hr] at h₂
      cases h₂
      obtain ⟨blocks, hb, rfl⟩ := ih hrest
      exact ⟨_ :: blocks, .bare hr hg hb, rfl⟩
    · rw [if_neg hr] at h₂
      obtain ⟨nonce, n₃, hn, h₃⟩ := Action.bind_ok_inv h₂
      obtain ⟨wrapped, n₄, h₄, h₅⟩ := Action.bind_ok_inv h₃
      obtain ⟨he, rfl⟩ := ofExcept_inv h₄
      cases h₅
      obtain ⟨blocks, hb, rfl⟩ := ih hrest
      have hdraw : Draws source n₂ lineage nonce n₁ := by
        unfold Draws
        unfold lineageNonce at hn
        split at hn
        · rename_i h0
          rw [if_pos h0]
          exact newNonce_inv hn
        · rename_i h0
          rw [if_neg h0]
          cases hn
          exact ⟨rfl, rfl⟩
      exact ⟨_ :: blocks, .wrapped hr hg hdraw (mapError_ok_inv he) hb, rfl⟩

/-! ## The blocks account for the programs -/

/-- Each of the programs is in one of the blocks. -/
def AccountsAll (rules : List DeviceRule) (progs : List (AttachedProg sha256))
    (blocks : List (Block sha256)) : Prop :=
  ∃ shares, List.Forall₂ (Accounts rules) shares blocks ∧ shares.flatten.Perm progs

section Accounts

variable {rules : List DeviceRule}

theorem AccountsAll.append {progs progs' : List (AttachedProg sha256)}
    {blocks blocks' : List (Block sha256)} (h : AccountsAll rules progs blocks)
    (h' : AccountsAll rules progs' blocks') :
    AccountsAll rules (progs ++ progs') (blocks ++ blocks') := by
  obtain ⟨shares, hs, hp⟩ := h
  obtain ⟨shares', hs', hp'⟩ := h'
  refine ⟨shares ++ shares', List.rel_append hs hs', ?_⟩
  rw [List.flatten_append]
  exact hp.append hp'

theorem AccountsAll.cons {progs progs' : List (AttachedProg sha256)} {block : Block sha256}
    {blocks : List (Block sha256)} (h : Accounts rules progs block)
    (h' : AccountsAll rules progs' blocks) :
    AccountsAll rules (progs ++ progs') (block :: blocks) :=
  AccountsAll.append ⟨[progs], .cons h .nil, by simp⟩ h'

theorem accountsAll_nil : AccountsAll rules ([] : List (AttachedProg sha256)) [] :=
  ⟨[], .nil, .nil⟩

theorem AccountsAll.perm {progs progs' : List (AttachedProg sha256)} {blocks : List (Block sha256)}
    (h : AccountsAll rules progs blocks) (hp : progs.Perm progs') :
    AccountsAll rules progs' blocks := by
  obtain ⟨shares, hs, hperm⟩ := h
  exact ⟨shares, hs, hperm.trans hp⟩

theorem accounts_grantBlock {group : WrapperGroup sha256} {desired : Bytes} (hr : rules ≠ [])
    (hk : ∀ prog ∈ group.members, prog.key = group.key)
    (h : emitOwned sha256 rules group.nonce group.original.raw = .ok desired) :
    Accounts rules group.members (grantBlock desired group) := by
  have htarget : Target rules group.lineage desired := by
    rw [Target, if_neg hr]; exact h
  have horiginal : ∀ prog ∈ group.members, prog.original.raw = group.original.raw := fun prog hp =>
    (Prod.mk.inj (hk prog hp)).2
  cases hf : group.members.findIdx? (·.raw = desired) with
  | some k =>
    have hpart : (grantBlock desired group).part =
        .keep ((group.members.map AttachedProg.index).getD k 0)
          ((group.members.eraseIdx k).map AttachedProg.index) := by
      simp only [grantBlock, hf]
    obtain ⟨hlt, hraw, -⟩ := List.findIdx?_eq_some_iff_getElem.mp hf
    have hget : (group.members.map AttachedProg.index).getD k 0 = group.members[k].index := by
      rw [List.getD_eq_getElem?_getD, List.getElem?_map, List.getElem?_eq_getElem hlt]
      rfl
    rw [hget] at hpart
    refine ⟨?_, horiginal, ?_, ?_⟩
    · rw [hpart, Part.members, ← List.map_cons]
      exact (List.getElem_cons_eraseIdx_perm hlt).map _
    · intro k' drops hkeep
      rw [hpart] at hkeep
      cases hkeep
      exact ⟨_, List.getElem_mem hlt, rfl, by rw [of_decide_eq_true hraw]; exact htarget⟩
    · intro load hnew
      rw [hpart] at hnew
      cases hnew
  | none =>
    have hpart : (grantBlock desired group).part =
        .swap (group.members.head group.nonempty).index (desired, ownedProgramName)
          (group.members.tail.map AttachedProg.index) := by
      simp only [grantBlock, hf]
    refine ⟨?_, horiginal, ?_, ?_⟩
    · rw [hpart, Part.members, ← List.map_cons, List.cons_head_tail]
    · intro k' drops hkeep
      rw [hpart] at hkeep
      cases hkeep
    · intro load hnew
      rw [hpart] at hnew
      cases hnew
      exact htarget

theorem accountsAll_grant {groups : List (WrapperGroup sha256)} {blocks : List (Block sha256)}
    (hr : rules ≠ []) (hk : ∀ group ∈ groups, ∀ prog ∈ group.members, prog.key = group.key)
    (h : GrantBlocks rules groups blocks) :
    AccountsAll rules (groups.flatMap WrapperGroup.members) blocks := by
  induction h with
  | nil => exact accountsAll_nil
  | cons hfirst _ ih =>
    obtain ⟨desired, he, rfl⟩ := hfirst
    rw [List.flatMap_cons]
    exact .cons (accounts_grantBlock hr (hk _ List.mem_cons_self) he)
      (ih fun group hg => hk group (List.mem_cons_of_mem _ hg))

theorem accountsAll_bares {source : Nat → Except NonceError (BitVec 64)} {n n' : Nat}
    {bares : List (AttachedProg sha256)} {blocks : List (Block sha256)} (hr : rules ≠ [])
    (hbare : ∀ bare ∈ bares, bare.owned = false) (h : BareBlocks source rules n bares blocks n') :
    AccountsAll rules bares blocks := by
  induction h with
  | nil => exact accountsAll_nil
  | @cons n n' bare bares blocks nonce wrapped hg hn he _ ih =>
    have hraw := bare.bare (hbare bare List.mem_cons_self)
    refine @AccountsAll.cons _ _ [bare] _ _ _ ⟨.refl _, ?_, nofun, ?_⟩
      (ih fun b hb => hbare b (List.mem_cons_of_mem _ hb))
    · intro prog hp
      rw [List.mem_singleton.mp hp]
    · intro load hload
      cases hload
      rw [Target, if_neg hr, hraw]
      exact he

theorem perm_eraseP {α : Type} {p : α → Bool} {l : List α} {a : α} (h : l.find? p = some a) :
    (a :: l.eraseP p).Perm l := by
  induction l with
  | nil => cases h
  | cons x l ih =>
    rw [List.find?_cons] at h
    rw [List.eraseP_cons]
    cases hx : p x with
    | true => rw [hx] at h; cases h; rw [cond_true]
    | false =>
      rw [hx] at h
      rw [cond_false]
      exact (List.Perm.swap x a _).trans ((ih h).cons x)

theorem accountsAll_restore {groups : List (WrapperGroup sha256)}
    {available : List (AttachedProg sha256)}
    (hk : ∀ group ∈ groups, ∀ prog ∈ group.members, prog.key = group.key)
    (hbare : ∀ bare ∈ available, bare.owned = false) :
    AccountsAll [] (groups.flatMap WrapperGroup.members ++ available)
      (restoreBlocks groups available) := by
  induction groups generalizing available with
  | nil =>
    rw [restoreBlocks, List.flatMap_nil, List.nil_append]
    induction available with
    | nil => exact accountsAll_nil
    | cons bare available ih =>
      have hraw := bare.bare (hbare bare List.mem_cons_self)
      rw [List.map_cons]
      refine @AccountsAll.cons _ _ [bare] _ _ _ ⟨.refl _, ?_, ?_, nofun⟩
        (ih fun b hb => hbare b (List.mem_cons_of_mem _ hb))
      · intro prog hp
        rw [List.mem_singleton.mp hp]
      · intro k drops hkeep
        cases hkeep
        exact ⟨bare, List.mem_cons_self, rfl, hraw.symm⟩
  | cons group groups ih =>
    have horiginal : ∀ prog ∈ group.members, prog.original.raw = group.original.raw :=
      fun prog hp =>
      (Prod.mk.inj (hk group List.mem_cons_self prog hp)).2
    have hk' := fun g hg => hk g (List.mem_cons_of_mem group hg)
    rw [restoreBlocks, List.flatMap_cons]
    cases hf : available.find? (·.raw = group.original.raw) with
    | some bare =>
      have hmem := List.mem_of_find?_eq_some hf
      have hraw : bare.raw = group.original.raw := by simpa using List.find?_some hf
      have hrest := @ih (available.eraseP (·.raw = group.original.raw)) hk' fun b hb =>
        hbare b (List.mem_of_mem_eraseP hb)
      refine (@AccountsAll.cons _ _ (bare :: group.members) _ _ _ ⟨.refl _, ?_, ?_, ?_⟩ hrest).perm
        ?_
      · intro prog hp
        rcases List.mem_cons.mp hp with rfl | hp
        · exact (prog.bare (hbare prog hmem)).trans hraw
        · exact horiginal prog hp
      · intro k drops hkeep
        cases hkeep
        exact ⟨bare, List.mem_cons_self, rfl, hraw⟩
      · intro load hload
        cases hload
      · simp only [List.cons_append, List.append_assoc]
        refine (@List.perm_middle _ bare group.members _).symm.trans (.append_left _ ?_)
        refine (@List.perm_middle _ bare (groups.flatMap WrapperGroup.members) _).symm.trans
          (.append_left _ (perm_eraseP hf))
    | none =>
      rw [List.append_assoc]
      refine AccountsAll.cons ⟨?_, horiginal, nofun, ?_⟩ (ih hk' hbare)
      · rw [Part.members, ← List.map_cons, List.cons_head_tail]
      · intro load hload
        cases hload
        rfl

theorem accountsAll_rebuild {source : Nat → Except NonceError (BitVec 64)} {n n' : Nat}
    {cached : List (CachedLineage sha256)} {blocks : List (Block sha256)}
    (h : RebuildBlocks source rules n cached blocks n') : AccountsAll rules [] blocks := by
  induction h with
  | nil => exact accountsAll_nil
  | bare hr _ _ ih =>
    refine @AccountsAll.cons _ _ [] _ _ _ ⟨.refl _, nofun, nofun, ?_⟩ ih
    intro load hload
    cases hload
    rw [Target, if_pos hr]
  | wrapped hr _ _ he _ ih =>
    refine @AccountsAll.cons _ _ [] _ _ _ ⟨.refl _, nofun, nofun, ?_⟩ ih
    intro load hload
    cases hload
    rw [Target, if_neg hr]
    exact he

end Accounts

/-! ## The plan of a pass -/

/-- The blocks a pass plans for the classified programs, drawing nonces from number `n` on. -/
structure PassBlocks (source : Nat → Except NonceError (BitVec 64)) (entry : CacheEntry sha256)
    (progs : List (AttachedProg sha256)) (rules : List DeviceRule) (n : Nat)
    (blocks : List (Block sha256)) (n' : Nat) : Prop where
  intro ::
  split : ∃ main extra m, blocks = main ++ extra ∧
    (rules = [] ∧ m = n ∧ main = restoreBlocks (groupWrappers progs).1 (groupWrappers progs).2 ∨
      rules ≠ [] ∧ ∃ grants bares, GrantBlocks rules (groupWrappers progs).1 grants ∧
        BareBlocks source rules n (groupWrappers progs).2 bares m ∧ main = grants ++ bares) ∧
    (entry.rebuilding = true ∧ RebuildBlocks source rules m (missingLineages entry.lineages
        (groupWrappers progs).1 (groupWrappers progs).2) extra n' ∨
      entry.rebuilding = false ∧ extra = [] ∧ n' = m)

theorem planOf_append (a b : List (Block sha256)) :
    b.foldl PassPlan.add (planOf a) = planOf (a ++ b) := by
  rw [planOf, planOf, List.foldl_append]

theorem planRules_ok {source : Nat → Except NonceError (BitVec 64)}
    {groups : List (WrapperGroup sha256)} {bares : List (AttachedProg sha256)}
    {rules : List DeviceRule} {n m : Nat} {plan : PassPlan sha256}
    (h : planRules source groups bares rules n = (.ok plan, m)) :
    ∃ main, plan = planOf main ∧ (rules = [] ∧ m = n ∧ main = restoreBlocks groups bares ∨
      rules ≠ [] ∧ ∃ gs bs, GrantBlocks rules groups gs ∧ BareBlocks source rules n bares bs m ∧
        main = gs ++ bs) := by
  rw [planRules] at h
  by_cases hr : rules = []
  · rw [if_pos hr, planRestore_eq] at h
    cases h
    exact ⟨_, rfl, .inl ⟨hr, rfl, rfl⟩⟩
  · rw [if_neg hr, planGrant] at h
    obtain ⟨plan₁, n₁, h₁, h₂⟩ := Action.bind_ok_inv h
    obtain ⟨hg, rfl⟩ := ofExcept_inv h₁
    obtain ⟨gs, hgs, rfl⟩ := foldlM_grantGroup.mp hg
    obtain ⟨bs, hbs, rfl⟩ := foldlM_grantBare h₂
    exact ⟨gs ++ bs, planOf_append gs bs, .inr ⟨hr, gs, bs, hgs, hbs, rfl⟩⟩

theorem planPass_ok {source : Nat → Except NonceError (BitVec 64)} {entry : CacheEntry sha256}
    {progs : List (AttachedProg sha256)} {rules : List DeviceRule} {n n' : Nat}
    {plan : PassPlan sha256} (h : planPass source entry progs rules n = (.ok plan, n')) :
    ∃ blocks, plan = planOf blocks ∧ PassBlocks source entry progs rules n blocks n' := by
  rw [planPass] at h
  obtain ⟨plan₁, m, h₁, h₂⟩ := Action.bind_ok_inv h
  obtain ⟨main, rfl, hmain⟩ := planRules_ok h₁
  cases he : entry.rebuilding with
  | true =>
    rw [he, if_pos rfl] at h₂
    obtain ⟨extra, hextra, rfl⟩ := foldlM_rebuildLineage h₂
    exact ⟨main ++ extra, planOf_append main extra, ⟨main, extra, m, rfl, hmain, .inl ⟨he, hextra⟩⟩⟩
  | false =>
    rw [he, if_neg Bool.false_ne_true] at h₂
    cases h₂
    exact ⟨main, rfl, ⟨main, [], _, (List.append_nil _).symm, hmain, .inr ⟨he, rfl, rfl⟩⟩⟩

/-- The blocks of a pass account for every classified program. -/
theorem PassBlocks.accounts {source : Nat → Except NonceError (BitVec 64)}
    {entry : CacheEntry sha256} {progs : List (AttachedProg sha256)} {rules : List DeviceRule}
    {n n' : Nat} {blocks : List (Block sha256)}
    (h : PassBlocks source entry progs rules n blocks n') : AccountsAll rules progs blocks := by
  obtain ⟨main, extra, m, rfl, hmain, hextra⟩ := h.split
  have hg := grouping_groupWrappers progs
  have hbare : ∀ bare ∈ (groupWrappers progs).2, bare.owned = false := by
    intro bare hb
    rw [hg.bares_eq] at hb
    simpa using (List.mem_filter.mp hb).2
  have haccounts : AccountsAll rules progs main := by
    rcases hmain with ⟨rfl, -, rfl⟩ | ⟨hr, gs, bs, hgs, hbs, rfl⟩
    · exact (accountsAll_restore hg.key_eq hbare).perm hg.perm
    · exact ((accountsAll_grant hr hg.key_eq hgs).append (accountsAll_bares hr hbare hbs)).perm
        hg.perm
  have hmore : AccountsAll rules ([] : List (AttachedProg sha256)) extra := by
    rcases hextra with ⟨-, hextra⟩ | ⟨-, rfl, -⟩
    · exact accountsAll_rebuild hextra
    · exact accountsAll_nil
  simpa using haccounts.append hmore

theorem Target.canonical {rules : List DeviceRule} {lineage : CachedLineage sha256} {raw : Bytes}
    (h : Target rules lineage raw) : CanonicalProgram raw := by
  unfold Target at h
  split at h
  · rw [h]; exact lineage.original.canonical
  · obtain ⟨ms, -, hw⟩ := wraps_of_emitOwned lineage.original.canonical h
    exact hw.canonical_raw

/-- What a block loads is to stand for its lineage. -/
theorem AccountsAll.target {rules : List DeviceRule} {progs : List (AttachedProg sha256)}
    {blocks : List (Block sha256)} (h : AccountsAll rules progs blocks) {block : Block sha256}
    (hb : block ∈ blocks) {load : Load} (hl : block.part.new = some load) :
    Target rules block.lineage load.1 := by
  obtain ⟨shares, hs, -⟩ := h
  induction hs with
  | nil => cases hb
  | cons hfirst _ ih =>
    rcases List.mem_cons.mp hb with rfl | hb
    · exact hfirst.new load hl
    · exact ih hb

/-- What accounts for the programs of a query is a plan for them. -/
theorem AccountsAll.sound {rules : List DeviceRule} {progs : List (AttachedProg sha256)}
    {blocks : List (Block sha256)} (h : AccountsAll rules progs blocks)
    (hi : progs.map AttachedProg.index = List.range progs.length) : Sound blocks progs.length := by
  constructor
  · obtain ⟨shares, hs, hp⟩ := h
    rw [← hi]
    refine List.Perm.trans ?_ (hp.map _)
    clear hp hi
    induction hs with
    | nil => exact .nil
    | cons hfirst _ ih =>
      rw [List.flatMap_cons, List.flatten_cons, List.map_append]
      exact hfirst.members.append ih
  · intro load hl
    obtain ⟨block, hb, hload⟩ := List.mem_flatMap.mp hl
    exact (h.target hb (Option.mem_toList.mp hload)).canonical

end V2
end Sda
