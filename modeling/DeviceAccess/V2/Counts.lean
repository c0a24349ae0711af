import DeviceAccess.V2.Recovery
import Mathlib.Combinatorics.Enumerative.DoubleCounting

/-!
# How often a runtime program is attached

A program is attached bare (`copies`) or by a lineage of wrappers (`lineagesAround`). Wherever a
pass stops, copies and lineages together are at least as many as there were of either before it
(`Planned.copies_le`, `Planned.lineages_le`). A pass that succeeds leaves only copies or only
lineages. One that fails between identical programs (`Divides`) leaves both, and the next restore
counts a copy and a lineage that stand for two programs as one.

`restored_count_kept` says that a run without such a pass gives back as many copies as there were,
and `copy_lost` is a run that does not.
-/

namespace Sda
namespace V2

open Asm Sda.Filter Handover

variable {sha256 : Bytes → Vector Byte 32}

/-- How many attached programs have the bytes. -/
def copies (content : Bytes) (attached : List Prog) : Nat :=
  (attached.map Prog.bytes).count (some content)

/-- How many wrapper lineages around the original are attached. -/
def lineagesAround (sha256 : Bytes → Vector Byte 32) (original : Bytes) (attached : List Prog) :
    Nat :=
  (attached.filterMap (Prog.lineageKey sha256)).dedup.countP (·.2 = original)

/-- The program is a canonical one and no wrapper. -/
def Prog.IsBare (sha256 : Bytes → Vector Byte 32) (prog : Prog) : Prop :=
  ∃ raw, prog.Shows raw ∧ parseOwned sha256 raw = .ok none

theorem Classified.lineageKey_bare {prog : Prog} {found : AttachedProg sha256}
    (h : Classified prog found) (ho : found.owned = false) : prog.lineageKey sha256 = none := by
  have hnone : parseOwnedInnermost sha256 found.raw = .ok none := by
    rw [parseOwnedInnermost, h.bare ho]
  rw [Prog.lineageKey, h.raw, Option.map_some, hnone]

/-! ## The members of a block -/

/-- What a block does with one of its members. -/
inductive Belongs (rules : List DeviceRule) (lone : List (Block sha256)) (block : Block sha256)
    (found : AttachedProg sha256) : Prop
  /-- A wrapper is in the block of its lineage. -/
  | wrapper (owned : found.owned = true) (key : found.key = block.lineage.key)
  /-- A restore keeps a bare program. -/
  | kept (owned : found.owned = false) (empty : rules = []) (drops : List Nat)
      (keep : block.part = .keep found.index drops)
  /-- A grant wraps a bare program in a block of its own. -/
  | alone (owned : found.owned = false) (some : rules ≠ [])
    (members : block.part.members = [found.index]) (lone : block ∈ lone)

theorem restoreBlocks_belongs {groups : List (WrapperGroup sha256)}
    {available : List (AttachedProg sha256)} {block : Block sha256}
    (hb : block ∈ restoreBlocks groups available) {i : Nat} (hi : i ∈ block.part.members) :
    (∃ group ∈ groups, block.lineage = group.lineage ∧ ∃ prog ∈ group.members, prog.index = i) ∨
      ∃ bare ∈ available, bare.index = i ∧ ∃ drops, block.part = .keep i drops := by
  induction groups generalizing available with
  | nil =>
    obtain ⟨bare, hm, rfl⟩ := List.mem_map.mp hb
    obtain rfl := List.mem_singleton.mp hi
    exact .inr ⟨bare, hm, rfl, [], rfl⟩
  | cons group groups ih =>
    have hrest : ∀ available', (∀ bare ∈ available', bare ∈ available) →
      block ∈ restoreBlocks groups available' →
        (∃ group' ∈ group :: groups, block.lineage = group'.lineage ∧
          ∃ prog ∈ group'.members, prog.index = i) ∨
          ∃ bare ∈ available, bare.index = i ∧ ∃ drops, block.part = .keep i drops := by
      intro available' hsub hm
      rcases ih hm with ⟨group', hg, hmember⟩ | ⟨bare, hbare, hkept⟩
      · exact .inl ⟨group', List.mem_cons_of_mem _ hg, hmember⟩
      · exact .inr ⟨bare, hsub bare hbare, hkept⟩
    rw [restoreBlocks] at hb
    split at hb
    next bare hfind =>
      rcases List.mem_cons.mp hb with rfl | hb
      · rcases List.mem_cons.mp hi with rfl | hi
        · exact .inr ⟨bare, List.mem_of_find?_eq_some hfind, rfl, _, rfl⟩
        · obtain ⟨prog, hp, rfl⟩ := List.mem_map.mp hi
          exact .inl ⟨group, List.mem_cons_self, rfl, prog, hp, rfl⟩
      · exact hrest _ (fun _ hm => List.mem_of_mem_eraseP hm) hb
    next =>
      rcases List.mem_cons.mp hb with rfl | hb
      · rw [Part.members, ← List.map_cons, List.cons_head_tail] at hi
        obtain ⟨prog, hp, rfl⟩ := List.mem_map.mp hi
        exact .inl ⟨group, List.mem_cons_self, rfl, prog, hp, rfl⟩
      · exact hrest _ (fun _ hm => hm) hb

theorem BareBlocks.mem {source : Nat → Except NonceError (BitVec 64)} {rules : List DeviceRule}
    {n n' : Nat} {bares : List (AttachedProg sha256)} {blocks : List (Block sha256)}
    (h : BareBlocks source rules n bares blocks n') {block : Block sha256} (hb : block ∈ blocks) :
    ∃ bare ∈ bares, block.part.members = [bare.index] := by
  induction h with
  | nil => cases hb
  | @cons _ _ bare _ _ _ _ _ _ _ _ ih =>
    rcases List.mem_cons.mp hb with rfl | hb
    · exact ⟨bare, List.mem_cons_self, rfl⟩
    · obtain ⟨bare', hm, hmembers⟩ := ih hb
      exact ⟨bare', List.mem_cons_of_mem _ hm, hmembers⟩

theorem RebuildBlocks.le {source : Nat → Except NonceError (BitVec 64)} {rules : List DeviceRule}
    {n n' : Nat} {cached : List (CachedLineage sha256)} {blocks : List (Block sha256)}
    (h : RebuildBlocks source rules n cached blocks n') : n ≤ n' := by
  induction h with
  | nil => exact Nat.le_refl _
  | bare _ _ _ ih => exact ih
  | wrapped _ _ hdraws _ _ ih =>
    unfold Draws at hdraws
    split at hdraws <;> omega

section Planned

variable {source : Nat → Except NonceError (BitVec 64)} {id : Identity} {rules : List DeviceRule}
  {w : World sha256} {progs : List (AttachedProg sha256)} {blocks : List (Block sha256)}
  {drawn : Nat} {content : Bytes} {now : List Prog}

/-- **What the blocks of a plan do with the programs.** -/
theorem Planned.belongs (h : Planned source id rules w progs blocks drawn) :
    ∃ lone, ((rules ≠ [] → FreshNonces source [] w.drawn drawn) →
      (lone.map fun block => block.lineage.key).Nodup) ∧
      ∀ block ∈ blocks, ∀ i ∈ block.part.members,
        ∃ found ∈ progs, found.index = i ∧ Belongs rules lone block found := by
  obtain ⟨main, extra, m, rfl, hmain, hextra⟩ := h.split
  have hg := grouping_groupWrappers progs
  -- What attaches a missing lineage has no member.
  have hadd : ∀ lone, (∀ block ∈ main, ∀ i ∈ block.part.members,
      ∃ found ∈ progs, found.index = i ∧ Belongs rules lone block found) →
      ∀ block ∈ main ++ extra, ∀ i ∈ block.part.members,
        ∃ found ∈ progs, found.index = i ∧ Belongs rules lone block found := by
    intro lone hall block hb i hi
    rcases List.mem_append.mp hb with hb | hb
    · exact hall block hb i hi
    · obtain ⟨lineage, -, -, load, hload⟩ := forall₂_exists_left hextra.attaches hb
      rw [hload] at hi
      cases hi
  have hmember : ∀ group ∈ (groupWrappers progs).1, ∀ prog ∈ group.members, prog ∈ progs ∧
      prog.owned = true :=
    fun group hm prog hp =>
      List.mem_filter.mp (hg.members.mem_iff.mp (List.mem_flatMap.mpr ⟨group, hm, hp⟩))
  have hbare : ∀ bare ∈ progs.filter (!·.owned), bare ∈ progs ∧ bare.owned = false :=
    fun bare hm => by simpa using List.mem_filter.mp hm
  rcases hmain with ⟨rfl, -, rfl⟩ | ⟨hr, grants, bares, hgrants, hbares, rfl⟩
  · refine ⟨[], fun _ => List.nodup_nil, hadd [] fun block hb i hi => ?_⟩
    rcases restoreBlocks_belongs hb hi with
      ⟨group, hm, hl, prog, hp, rfl⟩ | ⟨bare, hm, rfl, drops, hkeep⟩
    · obtain ⟨hin, ho⟩ := hmember group hm prog hp
      exact ⟨prog, hin, rfl, .wrapper ho (by rw [hl]; exact hg.key_eq group hm prog hp)⟩
    · obtain ⟨hin, ho⟩ := hbare bare hm
      exact ⟨bare, hin, rfl, .kept ho rfl drops hkeep⟩
  · refine ⟨bares, fun hf => ?_, hadd bares fun block hb i hi => ?_⟩
    · exact (hbares.distinct ((hf hr).mono (Nat.le_refl _) hextra.le)).2.1
    rcases List.mem_append.mp hb with hb | hb
    · obtain ⟨group, hm, desired, hemit, rfl⟩ := forall₂_exists_left hgrants hb
      have haccounts := accounts_grantBlock hr (hg.key_eq group hm) hemit
      obtain ⟨prog, hp, rfl⟩ := List.mem_map.mp (haccounts.members.mem_iff.mp hi)
      obtain ⟨hin, ho⟩ := hmember group hm prog hp
      exact ⟨prog, hin, rfl, .wrapper ho (hg.key_eq group hm prog hp)⟩
    · obtain ⟨bare, hm, hmembers⟩ := hbares.mem hb
      obtain ⟨hin, ho⟩ := hbare bare hm
      rw [hmembers] at hi
      obtain rfl := List.mem_singleton.mp hi
      exact ⟨bare, hin, rfl, .alone ho hr hmembers hb⟩

theorem Planned.part_block (h : Planned source id rules w progs blocks drawn)
    {part : Part Prog Prog} (hp : part ∈ partsIn w blocks) :
    ∃ block ∈ blocks, Stands rules block part ∧
      part.members = block.part.members.map (fetch w.kernel.attached) ∧
      ∀ i drops, block.part = .keep i drops → part.standin = fetch w.kernel.attached i := by
  have hrealized : ∀ n (bs : List (Block sha256)),
      List.Forall₂ (fun block part => ∃ id, part = realizePart w.kernel.attached id block.part) bs
        (realize w.kernel.attached n (bs.map Block.part)) := by
    intro n bs
    induction bs generalizing n with
    | nil => exact .nil
    | cons block bs ih => exact .cons ⟨n, rfl⟩ (ih _)
  obtain ⟨i, hi, rfl⟩ := List.mem_iff_getElem.mp hp
  have hall := List.forall₂_iff_get.mp h.stands
  have hi' : i < blocks.length := by rw [hall.1]; exact hi
  obtain ⟨id', heq⟩ := (List.forall₂_iff_get.mp (hrealized w.kernel.nextId blocks)).2 i hi' hi
  have heq : (partsIn w blocks)[i] = realizePart w.kernel.attached id' blocks[i].part := heq
  refine ⟨blocks[i], List.getElem_mem hi', hall.2 i hi' hi, ?_, fun k drops hkeep => ?_⟩
  · rw [heq]
    cases blocks[i].part <;> rfl
  · rw [heq, hkeep]
    rfl

/-- A member of a part and what the plan does with it. -/
theorem Planned.part_member (h : Planned source id rules w progs blocks drawn) :
    ∃ lone, ((rules ≠ [] → FreshNonces source [] w.drawn drawn) →
      (lone.map fun block => block.lineage.key).Nodup) ∧
      ∀ part ∈ partsIn w blocks, ∃ block ∈ blocks, Stands rules block part ∧
        part.members = block.part.members.map (fetch w.kernel.attached) ∧
        ∀ prog ∈ part.members, ∃ found, Classified prog found ∧
          prog = fetch w.kernel.attached found.index ∧ Belongs rules lone block found ∧
          (rules = [] → found.owned = false → part.standin = prog) := by
  obtain ⟨lone, hlone, hbelongs⟩ := h.belongs
  refine ⟨lone, hlone, fun part hp => ?_⟩
  obtain ⟨block, hb, hs, hmembers, hkeep⟩ := h.part_block hp
  refine ⟨block, hb, hs, hmembers, fun prog hm => ?_⟩
  rw [hmembers] at hm
  obtain ⟨i, hi, rfl⟩ := List.mem_map.mp hm
  obtain ⟨found, hf, rfl, hbelong⟩ := hbelongs block hb i hi
  refine ⟨found, (classifyAll_fetch h.classified hf).2, rfl, hbelong, fun hr ho => ?_⟩
  cases hbelong with
  | wrapper owned => rw [owned] at ho; cases ho
  | kept _ _ drops keep => exact hkeep _ drops keep
  | alone _ some => exact absurd hr some

/-! ## Copies and lineages while a plan is carried out -/

/-- The programs are no conflicts. -/
def Readable (sha256 : Bytes → Vector Byte 32) (attached : List Prog) : Prop :=
  ∀ prog ∈ attached, ∃ found : AttachedProg sha256, Classified prog found

/-- The attached programs with the content. -/
def bareSet (content : Bytes) (attached : List Prog) : Finset Prog :=
  (attached.filter fun prog => prog.bytes == some content).toFinset

/-- The wrapper lineages around the original. -/
def keySet (sha256 : Bytes → Vector Byte 32) (original : Bytes) (attached : List Prog) :
    Finset Key :=
  ((attached.filterMap (Prog.lineageKey sha256)).dedup.filter fun key => key.2 = original).toFinset

theorem mem_bareSet {attached : List Prog} {prog : Prog} :
    prog ∈ bareSet content attached ↔ prog ∈ attached ∧ prog.bytes = some content := by
  simp [bareSet]

theorem mem_keySet {attached : List Prog} {key : Key} :
    key ∈ keySet sha256 content attached ↔
      (∃ prog ∈ attached, prog.lineageKey sha256 = some key) ∧ key.2 = content := by
  simp [keySet]

theorem card_bareSet {attached : List Prog} (hn : attached.Nodup) :
    (bareSet content attached).card = copies content attached := by
  rw [bareSet, List.toFinset_card_of_nodup (hn.filter _), copies, List.count_eq_countP,
    List.countP_map, List.countP_eq_length_filter]
  rfl

theorem card_keySet {attached : List Prog} :
    (keySet sha256 content attached).card = lineagesAround sha256 content attached := by
  rw [keySet, List.toFinset_card_of_nodup ((List.nodup_dedup _).filter _), lineagesAround,
    List.countP_eq_length_filter]

theorem Stands.standin_bytes {block : Block sha256} {part : Part Prog Prog}
    (hs : Stands [] block part) :
    part.standin.bytes = some block.lineage.original.raw := by
  obtain ⟨raw, hshows, ht, -⟩ := hs.standin
  rw [Target, if_pos rfl] at ht
  exact ht ▸ hshows

theorem Stands.standin_key {block : Block sha256} {part : Part Prog Prog}
    (hs : Stands rules block part) (hr : rules ≠ []) {found : AttachedProg sha256}
    (hc : Classified part.standin found) :
    part.standin.lineageKey sha256 = some block.lineage.key := by
  obtain ⟨raw, hshows, ht, -⟩ := hs.standin
  have hraw := hc.raw.unique hshows
  have howned : found.owned = true := by
    by_contra hno
    exact (ht.wrapperOf hr).parseOwned_ne (hraw ▸ hc.bare (Bool.eq_false_iff.mpr hno))
  obtain ⟨-, _, hparse⟩ := hc.owned howned
  obtain ⟨outer, hparse, -⟩ := parseOwned_of_innermost_some hparse
  obtain ⟨rules', hparse⟩ := ht.parse hr ⟨_, hraw ▸ hparse⟩
  exact Prog.lineageKey_of_owned hshows hparse

/-- **Every lineage leaves a lineage or a copy**, wherever the plan stops. -/
theorem Planned.lineages_le (content : Bytes) (h : Planned source id rules w progs blocks drawn)
    (hnow : Reached w.kernel.attached (edits (partsIn w blocks)) now) (hn : now.Nodup)
    (hfound : rules ≠ [] → Readable sha256 now) :
    lineagesAround sha256 content w.kernel.attached ≤
      copies content now + lineagesAround sha256 content now := by
  obtain ⟨lone, -, hmember⟩ := h.part_member
  rw [← card_keySet, ← card_keySet, ← card_bareSet hn, ← Finset.card_disjSum]
  -- A copy is related to the lineage that it stands for.
  refine Finset.card_le_card_of_forall_subsingleton
    (fun key unit => unit.elim (fun prog => ∃ part ∈ partsIn w blocks, part.standin = prog ∧
      ∃ x ∈ part.members, x.lineageKey sha256 = some key) (· = key)) ?_ ?_
  · intro key hkey
    obtain ⟨⟨x, hx, hxkey⟩, horiginal⟩ := mem_keySet.mp hkey
    rcases hnow.cover h.sound.covers hx with hx' | ⟨part, hp, hm, hst⟩
    · exact ⟨.inr key, Finset.inr_mem_disjSum.mpr (mem_keySet.mpr ⟨⟨x, hx', hxkey⟩, horiginal⟩),
        rfl⟩
    obtain ⟨block, -, hs, -, hbelong⟩ := hmember part hp
    obtain ⟨found, hc, -, hbelong, -⟩ := hbelong x hm
    have hkey' : key = block.lineage.key := by
      cases hbelong with
      | wrapper owned hk =>
        exact (Option.some.inj (hxkey.symm.trans (hc.lineageKey owned))).trans hk
      | kept owned | alone owned => rw [hc.lineageKey_bare owned] at hxkey; cases hxkey
    by_cases hr : rules = []
    · subst hr
      refine ⟨.inl part.standin, Finset.inl_mem_disjSum.mpr (mem_bareSet.mpr ⟨hst, ?_⟩), part, hp,
        rfl, x, hm, hxkey⟩
      rw [hs.standin_bytes, ← horiginal, hkey']
      rfl
    · obtain ⟨found', hc'⟩ := hfound hr _ hst
      refine ⟨.inr key, Finset.inr_mem_disjSum.mpr (mem_keySet.mpr ⟨⟨_, hst, ?_⟩, horiginal⟩), rfl⟩
      rw [hs.standin_key hr hc', hkey']
  · rintro (prog | key) - key₁ ⟨-, h₁⟩ key₂ ⟨-, h₂⟩
    · obtain ⟨part, hp, rfl, x₁, hm₁, hk₁⟩ := h₁
      obtain ⟨part', hp', hst, x₂, hm₂, hk₂⟩ := h₂
      obtain rfl := List.inj_on_of_nodup_map h.sound.covers.standin_nodup hp' hp hst
      obtain ⟨block, -, -, -, hbelong⟩ := hmember part' hp
      have hsame : ∀ x ∈ part'.members, ∀ key, x.lineageKey sha256 = some key →
          key = block.lineage.key := by
        intro x hm key hk
        obtain ⟨found, hc, -, hb, -⟩ := hbelong x hm
        cases hb with
        | wrapper owned hkey =>
          exact (Option.some.inj (hk.symm.trans (hc.lineageKey owned))).trans hkey
        | kept owned | alone owned => rw [hc.lineageKey_bare owned] at hk; cases hk
      rw [hsame x₁ hm₁ key₁ hk₁, hsame x₂ hm₂ key₂ hk₂]
    · exact h₁.symm.trans h₂

/-- The unit is the copy, or the lineage of the block that was made for it. -/
def MadeFor (attached : List Prog) (lone : List (Block sha256)) (copy : Prog) (unit : Prog ⊕ Key) :
    Prop :=
  unit.elim (· = copy) fun key => ∃ block ∈ lone, block.lineage.key = key ∧
    block.part.members.map (fetch attached) = [copy]

theorem Planned.copy_leaves (h : Planned source id rules w progs blocks drawn)
    (hb : parseOwned sha256 content = .ok none)
    (hnow : Reached w.kernel.attached (edits (partsIn w blocks)) now)
    (hfound : rules ≠ [] → Readable sha256 now) :
    ∃ lone : List (Block sha256),
      ((rules ≠ [] → FreshNonces source [] w.drawn drawn) →
        (lone.map fun block => block.lineage.key).Nodup) ∧
      ∀ copy ∈ bareSet content w.kernel.attached,
        ∃ unit ∈ (bareSet content now).disjSum (keySet sha256 content now),
          MadeFor w.kernel.attached lone copy unit := by
  obtain ⟨lone, hlone, hmember⟩ := h.part_member
  refine ⟨lone, hlone, fun x hx => ?_⟩
  obtain ⟨hx, hbytes⟩ := mem_bareSet.mp hx
  have hstays : x ∈ now → ∃ unit ∈ (bareSet content now).disjSum (keySet sha256 content now),
      MadeFor w.kernel.attached lone x unit := fun hx' =>
    ⟨.inl x, Finset.inl_mem_disjSum.mpr (mem_bareSet.mpr ⟨hx', hbytes⟩), rfl⟩
  rcases hnow.cover h.sound.covers hx with hx' | ⟨part, hp, hm, hst⟩
  · exact hstays hx'
  obtain ⟨block, -, hs, hmembers, hbelong⟩ := hmember part hp
  obtain ⟨found, hc, hfetch, hbelong, hkept⟩ := hbelong x hm
  have hraw : found.raw = content := hc.raw.unique hbytes
  cases hbelong with
  | wrapper owned => rw [hc.owned_eq.mpr (hraw ▸ hb)] at owned; cases owned
  | kept owned hr => exact hstays (hkept hr owned ▸ hst)
  | alone owned hr hlist hin =>
    obtain ⟨found', hc'⟩ := hfound hr _ hst
    refine ⟨.inr block.lineage.key, Finset.inr_mem_disjSum.mpr (mem_keySet.mpr
      ⟨⟨_, hst, hs.standin_key hr hc'⟩, ?_⟩), block, hin, rfl, ?_⟩
    · exact (hs.members x hm).unique ⟨content, hbytes, .bare hb⟩
    · rw [hlist, List.map_singleton, ← hfetch]

/-- **Every copy leaves a copy or a lineage**, wherever the plan stops. -/
theorem Planned.copies_le (h : Planned source id rules w progs blocks drawn)
    (hb : parseOwned sha256 content = .ok none)
    (hf : rules ≠ [] → FreshNonces source [] w.drawn drawn)
    (hnow : Reached w.kernel.attached (edits (partsIn w blocks)) now) (hn : now.Nodup)
    (hfound : rules ≠ [] → Readable sha256 now) :
    copies content w.kernel.attached ≤ copies content now + lineagesAround sha256 content now := by
  obtain ⟨lone, hlone, hleaves⟩ := h.copy_leaves hb hnow hfound
  rw [← card_keySet, ← card_bareSet hn, ← card_bareSet w.kernel.distinct, ← Finset.card_disjSum]
  refine Finset.card_le_card_of_forall_subsingleton (MadeFor w.kernel.attached lone) hleaves ?_
  rintro (prog | key) - x₁ ⟨-, h₁⟩ x₂ ⟨-, h₂⟩
  · exact h₁.symm.trans h₂
  · obtain ⟨block, hin, rfl, hx₁⟩ := h₁
    obtain ⟨block', hin', hkey, hx₂⟩ := h₂
    obtain rfl := List.inj_on_of_nodup_map (hlone hf) hin' hin hkey
    exact List.head_eq_of_cons_eq (hx₁.symm.trans hx₂)

theorem Planned.copies_pos (h : Planned source id rules w progs blocks drawn)
    (hb : parseOwned sha256 content = .ok none)
    (hnow : Reached w.kernel.attached (edits (partsIn w blocks)) now) (hn : now.Nodup)
    (hfound : rules ≠ [] → Readable sha256 now) (hpos : 0 < copies content w.kernel.attached) :
    0 < copies content now + lineagesAround sha256 content now := by
  obtain ⟨lone, -, hleaves⟩ := h.copy_leaves hb hnow hfound
  rw [← card_bareSet w.kernel.distinct] at hpos
  obtain ⟨copy, hcopy⟩ := Finset.card_pos.mp hpos
  obtain ⟨unit, hunit, -⟩ := hleaves copy hcopy
  rw [← card_keySet, ← card_bareSet hn, ← Finset.card_disjSum]
  exact Finset.card_pos.mpr ⟨unit, hunit⟩

end Planned

/-! ## Passes -/

section Pass

variable {env : Env} {id : Identity} {rules : List DeviceRule} {w w' : World sha256}
  {content : Bytes}

/-- The copies of a program, or the wrapper lineages around it, are as many as `total`. -/
def Counted (sha256 : Bytes → Vector Byte 32) (content : Bytes) (total : Nat)
    (attached : List Prog) : Prop :=
  Readable sha256 attached →
    total ≤ max (copies content attached) (lineagesAround sha256 content attached)

/-- A pass has wrapped or unwrapped some of the identical programs and left others as they were. -/
structure Divides (sha256 : Bytes → Vector Byte 32) (content : Bytes) (before after : List Prog) :
    Prop where
  changed : copies content after ≠ copies content before ∨
    lineagesAround sha256 content after ≠ lineagesAround sha256 content before
  bare : 0 < copies content after
  wrapped : 0 < lineagesAround sha256 content after

theorem Planned.readable {progs : List (AttachedProg sha256)} {blocks : List (Block sha256)}
    {drawn : Nat} (h : Planned env.nonce id rules w progs blocks drawn) :
    Readable sha256 w.kernel.attached := by
  intro prog hp
  obtain ⟨found, -, hc, -⟩ := classifyAll_found h.classified hp
  exact ⟨found, hc⟩

/-- A restore that succeeds leaves no wrapper. -/
theorem Planned.lineages_restored (content : Bytes) {progs : List (AttachedProg sha256)}
    {blocks : List (Block sha256)} {drawn : Nat} (h : Planned env.nonce id [] w progs blocks drawn)
    (hafter : w'.kernel.attached.Perm ((partsIn w blocks).map Part.standin)) :
    lineagesAround sha256 content w'.kernel.attached = 0 := by
  refine card_keySet ▸ Finset.card_eq_zero.mpr (Finset.eq_empty_of_forall_notMem fun key hkey => ?_)
  obtain ⟨⟨prog, hm, hk⟩, -⟩ := mem_keySet.mp hkey
  obtain ⟨part, hp, rfl⟩ := List.mem_map.mp (hafter.mem_iff.mp hm)
  obtain ⟨block, -, hs⟩ := h.stands_part hp
  rw [Prog.lineageKey, hs.standin_bytes, Option.map_some, parseOwnedInnermost,
    block.lineage.original.bare] at hk
  cases hk

/-- A grant that succeeds leaves no bare program. -/
theorem Planned.copies_granted {progs : List (AttachedProg sha256)} {blocks : List (Block sha256)}
    {drawn : Nat} (h : Planned env.nonce id rules w progs blocks drawn) (hr : rules ≠ [])
    (hafter : w'.kernel.attached.Perm ((partsIn w blocks).map Part.standin))
    (hb : parseOwned sha256 content = .ok none) : copies content w'.kernel.attached = 0 := by
  refine List.count_eq_zero.mpr fun hm => ?_
  obtain ⟨prog, hm, hbytes⟩ := List.mem_map.mp hm
  obtain ⟨part, hp, rfl⟩ := List.mem_map.mp (hafter.mem_iff.mp hm)
  obtain ⟨block, -, hs⟩ := h.stands_part hp
  obtain ⟨raw, hshows, ht, -⟩ := hs.standin
  exact (ht.wrapperOf hr).parseOwned_ne (hshows.unique hbytes ▸ hb)

/-- What a pass of a run must not do when the program is attached more than once: to draw a nonce
twice, or to fail between identical programs. -/
structure Undivided (env : Env) (id : Identity) (content : Bytes) (rules : List DeviceRule)
    (world : World sha256) : Prop where
  nonces : FreshNonces env.nonce [] world.drawn (pass env id rules world).drawn
  whole : (setRules env id rules world).1.isOk = false →
    ¬Divides sha256 content world.kernel.attached (pass env id rules world).kernel.attached

/-- **A pass keeps the count.** -/
theorem pass_counted {total : Nat} (hc : env.CalmFrom w.calls)
    (hb : parseOwned sha256 content = .ok none)
    (hwhole : 2 ≤ total → Undivided env id content rules w)
    (hcount : Counted sha256 content total w.kernel.attached) :
    Counted sha256 content total (pass env id rules w).kernel.attached := by
  obtain ⟨r, w', h⟩ := (setRules env id rules).exists_run w
  have hpass : pass env id rules w = w'.note (.returned r.isOk) := by rw [pass, h]
  rw [hpass]
  change Counted sha256 content total w'.kernel.attached
  rcases setRules_inv hc h with hstop | ⟨⟨progs, blocks, drawn, hplan⟩, hpassed⟩
  · rw [hstop.looked.kernel]
    exact hcount
  have hpassed := hpassed progs blocks drawn hplan
  intro hreadable
  have htotal := hcount hplan.readable
  have hlineages := hplan.lineages_le content hpassed.now w'.kernel.distinct
    fun _ => hreadable
  by_cases htwo : 2 ≤ total
  swap
  · have hpos := hplan.copies_pos hb hpassed.now w'.kernel.distinct fun _ => hreadable
    omega
  obtain ⟨hnonces, hwhole⟩ := hwhole htwo
  rw [hpass] at hnonces hwhole
  rw [h] at hwhole
  have hcopies := hplan.copies_le hb (fun _ => hpassed.drawn ▸ hnonces) hpassed.now
    w'.kernel.distinct fun _ => hreadable
  -- Together there are enough; it remains that they are all of one kind, or as they were.
  by_cases hone : copies content w'.kernel.attached = 0 ∨
    lineagesAround sha256 content w'.kernel.attached = 0
  · omega
  have hfailed : r.isOk = false := by
    cases r with
    | error => rfl
    | ok =>
      have hafter := (hpassed.ok rfl).2
      refine absurd ?_ hone
      by_cases hr : rules = []
      · subst hr
        exact .inr (hplan.lineages_restored content hafter)
      · exact .inl (hplan.copies_granted hr hafter hb)
  have hsame : copies content w'.kernel.attached = copies content w.kernel.attached ∧
      lineagesAround sha256 content w'.kernel.attached = lineagesAround sha256 content
        w.kernel.attached := by
    by_contra hno
    exact hwhole hfailed ⟨not_and_or.mp hno, Nat.pos_of_ne_zero fun h => hone (.inl h),
      Nat.pos_of_ne_zero fun h => hone (.inr h)⟩
  rw [hsame.1, hsame.2]
  exact htotal

end Pass

/-! ## Runs -/

/-- A run of passes and nothing else. -/
def passes (env : Env) (id : Identity) (wanted : List (List DeviceRule)) (world : World sha256) :
    World sha256 :=
  run env id (wanted.map .pass) world

/-- Every pass of the run meets the condition. -/
def EachPass (env : Env) (id : Identity) (condition : List DeviceRule → World sha256 → Prop) :
    List (List DeviceRule) → World sha256 → Prop
  | [], _ => True
  | rules :: wanted, w => condition rules w ∧ EachPass env id condition wanted (pass env id rules w)

theorem passes_counted {env : Env} (hcalm : ∀ n, env.wiped n = false) {id : Identity}
    {content : Bytes} (hb : parseOwned sha256 content = .ok none) {total : Nat}
    (wanted : List (List DeviceRule)) {w : World sha256}
    (hwhole : 2 ≤ total → EachPass env id (Undivided env id content) wanted w)
    (hcount : Counted sha256 content total w.kernel.attached) :
    Counted sha256 content total (passes env id wanted w).kernel.attached := by
  induction wanted generalizing w with
  | nil => exact hcount
  | cons rules wanted ih =>
    exact ih (fun htwo => (hwhole htwo).2)
      (pass_counted (fun n _ => hcalm n) hb (fun htwo => (hwhole htwo).1) hcount)

/-- **A restore gives back every copy if no pass failed between identical programs.** From a cgroup
with bare programs only, after any passes with any failing calls, a pass for empty rules that ends
without an error leaves a program at least as often as it was attached at first. If that is more
than once, no pass of the run may draw a nonce twice, and none may fail after it wrapped or
unwrapped some of the copies and not others. -/
theorem restored_count_kept (env : Env) (hcalm : ∀ n, env.wiped n = false) (id : Identity)
    (w : World sha256) (hbare : ∀ prog ∈ w.kernel.attached, prog.IsBare sha256) (content : Bytes)
    (wanted : List (List DeviceRule))
    (hwhole : 2 ≤ copies content w.kernel.attached →
      EachPass env id (Undivided env id content) wanted w)
    (w' : World sha256) (hok : setRules env id [] (passes env id wanted w) = (.ok (), w')) :
    copies content w.kernel.attached ≤ copies content w'.kernel.attached := by
  by_cases hzero : copies content w.kernel.attached = 0
  · rw [hzero]
    exact Nat.zero_le _
  -- The content is that of a program the run started with, so it is no wrapper.
  obtain ⟨prog, hm, hbytes⟩ := List.mem_map.mp (List.count_pos_iff.mp (Nat.pos_of_ne_zero hzero))
  obtain ⟨raw, hraw, hnone⟩ := hbare prog hm
  obtain rfl : raw = content := Prog.Shows.unique hraw hbytes
  have hcounted := passes_counted hcalm hnone wanted hwhole fun _ => Nat.le_max_left _ _
  rcases setRules_inv (fun n _ => hcalm n) hok with hstop | ⟨⟨progs, blocks, drawn, hplan⟩, hpassed⟩
  · obtain ⟨e, he⟩ := hstop.error
    cases he
  have hpassed := hpassed progs blocks drawn hplan
  have hcopies := hplan.copies_le hnone (fun hne => absurd rfl hne) hpassed.now
    w'.kernel.distinct fun hne => absurd rfl hne
  have hlineages := hplan.lineages_le raw hpassed.now w'.kernel.distinct
    fun hne => absurd rfl hne
  have hnothing := hplan.lineages_restored raw (hpassed.ok rfl).2
  have htotal := hcounted hplan.readable
  omega

/-! ## Two identical filters -/

theorem twinWorld_bare : ∀ prog ∈ twinWorld.kernel.attached, prog.IsBare sampleSha256 := by
  intro prog hm
  have : ∃ n, prog = newProg n denyAll := by
    rcases List.mem_cons.mp hm with rfl | hm
    · exact ⟨0, rfl⟩
    · exact ⟨1, List.mem_singleton.mp hm⟩
  obtain ⟨n, rfl⟩ := this
  exact ⟨denyAll, newProg_shows denyAll_canonical n, denyAll_bare _⟩

private theorem quietEnv_fresh {first last : Nat} (h : last < 2 ^ 64) :
    FreshNonces quietEnv.nonce [] first last := by
  refine ⟨fun _ _ _ _ _ => List.not_mem_nil, fun j k nonce _ hlt hk hj hj' => ?_⟩
  have heq := congrArg BitVec.toNat (Except.ok.inj (hj.trans hj'.symm))
  rw [BitVec.toNat_ofNat, BitVec.toNat_ofNat] at heq
  omega

/-- The call that would swap in the first wrapper fails. -/
def stumbling : Env :=
  { quietEnv with fault := fun n => if n = 5 then some (.attach fAllowMulti Errno.perm) else none }

/-- A grant that fails at once, one that wraps both filters, and the restore. -/
theorem restored_count_kept_twins :
    (setRules stumbling sampleId [nullRule] twinWorld).1.isOk = false ∧
    ∃ w', setRules stumbling sampleId []
    (passes stumbling sampleId [[nullRule], [nullRule]] twinWorld) =
        (.ok (), w') ∧ 2 ≤ copies denyAll w'.kernel.attached := by
  have hfails : (setRules stumbling sampleId [nullRule] twinWorld).1.isOk = false := by
    decide +kernel
  have hok : (setRules stumbling sampleId []
      (passes stumbling sampleId [[nullRule], [nullRule]] twinWorld)).1.isOk =
        true := by decide +kernel
  obtain ⟨r, w', h⟩ := (setRules stumbling sampleId []).exists_run
    (passes stumbling sampleId [[nullRule], [nullRule]] twinWorld)
  rw [h] at hok
  cases r with
  | error e => cases hok
  | ok =>
    refine ⟨hfails, w', h, restored_count_kept stumbling (fun _ => rfl) sampleId twinWorld
      twinWorld_bare denyAll
      [[nullRule], [nullRule]]
        (fun _ => ⟨⟨quietEnv_fresh (by decide +kernel), fun _ hdivides => ?_⟩,
        ⟨quietEnv_fresh (by decide +kernel), fun hfailed => ?_⟩, trivial⟩) w' h⟩
    · exact absurd hdivides.wrapped (by decide +kernel)
    · exact absurd hfailed (by decide +kernel)

/-- The call that would swap in the second wrapper fails. -/
def halfway : Env :=
  { quietEnv with fault := fun n => if n = 6 then some (.attach fAllowMulti Errno.perm) else none }

/-- **A copy is lost.** A grant wraps the first of two identical filters and stops; the restore
takes the second one for the first one's original, detaches the wrapper, and ends without an error.
-/
theorem copy_lost :
    (∀ prog ∈ twinWorld.kernel.attached, gate denyAll prog.progMeta = .ok ()) ∧
    ∃ w',
      setRules halfway sampleId [] (passes halfway sampleId [[nullRule]] twinWorld) = (.ok (), w') ∧
      copies denyAll twinWorld.kernel.attached = 2 ∧ copies denyAll w'.kernel.attached = 1 := by
  have hruns : ∀ w₁ p, passes halfway sampleId [[nullRule]] twinWorld = w₁ →
      setRules halfway sampleId [] w₁ = p →
      p.1.isOk = true ∧ copies denyAll p.2.kernel.attached = 1 := by
    rintro w₁ p rfl rfl
    decide +kernel
  refine ⟨?_, ?_⟩
  · intro prog hm
    have hmeta : prog.progMeta = ⟨true, 0⟩ := by
      rcases List.mem_cons.mp hm with rfl | hm
      · rfl
      · rw [List.mem_singleton.mp hm]; rfl
    rw [hmeta]
    rfl
  · obtain ⟨r, w', h⟩ := (setRules halfway sampleId []).exists_run
      (passes halfway sampleId [[nullRule]] twinWorld)
    obtain ⟨hr, hone⟩ := hruns _ _ rfl h
    cases r with
    | error e => cases hr
    | ok => exact ⟨w', h, by decide +kernel, hone⟩

end V2
end Sda
