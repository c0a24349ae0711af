import DeviceAccess.V2.Result

/-!
# Recognising what a pass left

What a pass leaves attached is what the next pass finds. Wrappers are recognised again when their
rules have numbers below 2^31, and originals always are (`Planned.finds_wrappers`,
`Planned.finds_originals`). When no two lineages share their nonce and their original, each wrapper
is a lineage of its own.
-/

namespace Sda
namespace V2

open Asm Sda.Filter Handover

variable {sha256 : Bytes → Vector Byte 32}

/-! ## One program -/

/-- A wrapper the kernel took has a trailer index that fits the header. -/
theorem fits_of_insnCnt {ms : List RuleMatch} {nonce : BitVec 64} {original raw : Bytes}
    (h : Wraps sha256 ms nonce original raw) (hlen : insnCnt raw < u32Max) :
    trailerIndex ms ≤ u32Max := by
  have hlt := h.trailerIndex_lt
  unfold insnCnt at hlen
  rw [instructionSize] at hlt
  omega

/-- A wrapper that is no conflict is read as what it is. -/
theorem Target.parse {rules : List DeviceRule} {lineage : CachedLineage sha256} {raw : Bytes}
    (h : Target rules lineage raw) (hr : rules ≠ [])
    (hok : ∃ found, parseOwned sha256 raw = .ok found) :
    ∃ rules', parseOwnedInnermost sha256 raw =
      .ok (some ⟨lineage.nonce, rules', lineage.original.raw⟩) := by
  have hw := h.wrapperOf hr
  obtain ⟨found, hp⟩ := hok
  cases found with
  | none => exact absurd hp hw.parseOwned_ne
  | some owned =>
    obtain ⟨hn, ho, -⟩ := hw.unique (.of_parseOwned hp)
    refine ⟨owned.rules, ?_⟩
    rw [parseOwnedInnermost, hp]
    simp only [← ho, innermostFrom_none lineage.original.bare, bind, Except.bind, hn]

/-- A wrapper the kernel took is no conflict exactly when the rules it keeps have numbers below
2^31. -/
theorem Target.recognised_iff {rules : List DeviceRule} {lineage : CachedLineage sha256}
    {raw : Bytes} (h : Target rules lineage raw) (hr : rules ≠ []) (hlen : insnCnt raw < u32Max) :
    (∃ found, parseOwned sha256 raw = .ok found) ↔ ∀ rule ∈ keptRules rules, rule.SmallNumbers := by
  obtain ⟨ms, hc, hw⟩ := (h.wrapperOf hr).wraps
  have hfit := fits_of_insnCnt hw hlen
  have hkept : (∀ m ∈ ms, m.Small) ↔ ∀ rule ∈ keptRules rules, rule.SmallNumbers := by
    rw [compile_small_iff hc, keptRules_eq]
    simp only [List.mem_reverse]
  rw [← hkept]
  constructor
  · rintro ⟨found, hp⟩
    by_contra hs
    rw [parseOwned_large hw hfit hs] at hp
    cases hp
  · exact fun hs => ⟨_, parseOwned_small hw hfit hs⟩

theorem gate_loaded {original : Bytes} {progMeta : ProgMeta} (h : gate original progMeta = .ok ()) :
    gate original ⟨true, 0⟩ = .ok () := by
  unfold gate at h ⊢
  obtain ⟨is, hd, hw⟩ := except_bind_ok h
  obtain ⟨hne, -, hi⟩ := checkWrappable_ok (mapError_ok_inv hw)
  rw [hd]
  simp [bind, Except.bind, checkWrappable, hne, hi, Except.mapError]

section Classify

variable {prog : Prog} {raw : Bytes}

theorem Prog.Shows.dump (h : prog.Shows raw) :
    ∃ dump, prog.dump = .ok dump ∧ canonicalBytes dump.instructions = .ok raw ∧
      dump.progMeta = prog.progMeta := by
  unfold Prog.Shows Prog.bytes at h
  cases hd : prog.dump with
  | error e => rw [hd] at h; cases h
  | ok dump =>
    rw [hd] at h
    refine ⟨dump, rfl, ?_, dump_progMeta hd⟩
    cases hc : canonicalBytes dump.instructions with
    | error e => simp only [hc] at h; cases h
    | ok raw' => simp only [hc] at h; cases h; rfl

theorem classifyDump_exists {dump : Dump} (hraw : canonicalBytes dump.instructions = .ok raw)
    (h : parseOwnedInnermost sha256 raw = .ok none ∨
      ∃ owned, parseOwnedInnermost sha256 raw = .ok (some owned) ∧
        gate owned.original dump.progMeta = .ok ()) (index : Nat) :
    ∃ found : AttachedProg sha256, classifyDump index dump = .ok found := by
  unfold classifyDump
  split
  · rename_i e he; rw [hraw] at he; cases he
  · rename_i raw' hraw'
    cases hraw.symm.trans hraw'
    split
    · rename_i e he
      rcases h with h | ⟨owned, h, -⟩ <;> (rw [he] at h; cases h)
    · exact ⟨_, rfl⟩
    · rename_i owned ho
      rcases h with h | ⟨owned', h, hg⟩
      · rw [ho] at h; cases h
      · rw [ho] at h
        cases h
        rw [hg]
        exact ⟨_, rfl⟩

/-- A list of programs that can all be read and are no conflicts is classified. -/
theorem classifyAll_exists {attached : List Prog}
    (h : ∀ prog ∈ attached, ∃ raw, prog.Shows raw ∧ (parseOwnedInnermost sha256 raw = .ok none ∨
      ∃ owned, parseOwnedInnermost sha256 raw = .ok (some owned) ∧
        gate owned.original prog.progMeta = .ok ())) (index : Nat) :
    ∃ progs : List (AttachedProg sha256), classifyAll index attached = .ok progs := by
  induction attached generalizing index with
  | nil => exact ⟨[], rfl⟩
  | cons prog attached ih =>
    obtain ⟨raw, hs, hp⟩ := h prog List.mem_cons_self
    obtain ⟨dump, hd, hraw, hmeta⟩ := hs.dump
    rw [← hmeta] at hp
    obtain ⟨found, hf⟩ := classifyDump_exists hraw hp index
    obtain ⟨rest, hr⟩ := ih (fun p hm => h p (List.mem_cons_of_mem _ hm)) (index + 1)
    refine ⟨found :: rest, ?_⟩
    rw [classifyAll, hd]
    simp only [Except.mapError, bind, Except.bind, hf, hr]

end Classify

/-! ## What the next pass finds -/

/-- The lineage a program shows, when it is a wrapper. -/
def Prog.lineageKey (sha256 : Bytes → Vector Byte 32) (prog : Prog) : Option Key :=
  match prog.bytes.map (parseOwnedInnermost sha256) with
  | some (.ok (some owned)) => some (owned.nonce, owned.original)
  | _ => none

theorem Prog.lineageKey_of_owned {prog : Prog} {raw : Bytes} {owned : OwnedProgram}
    (hs : prog.Shows raw) (hp : parseOwnedInnermost sha256 raw = .ok (some owned)) :
    prog.lineageKey sha256 = some (owned.nonce, owned.original) := by
  rw [Prog.lineageKey, hs, Option.map_some, hp]

theorem Classified.lineageKey {prog : Prog} {found : AttachedProg sha256}
    (h : Classified prog found) (ho : found.owned = true) :
    prog.lineageKey sha256 = some found.key := by
  obtain ⟨-, rules, hp⟩ := h.owned ho
  exact Prog.lineageKey_of_owned h.raw hp

theorem Classified.of_parse {prog : Prog} {found : AttachedProg sha256} {raw : Bytes}
    {owned : OwnedProgram} (h : Classified prog found) (hs : prog.Shows raw)
    (hp : parseOwnedInnermost sha256 raw = .ok (some owned)) :
    found.owned = true ∧ found.raw = raw ∧ found.nonce = owned.nonce ∧
      found.original.raw = owned.original := by
  have hsame := h.raw.unique hs
  have ho : found.owned = true := by
    by_contra ho
    have := h.bare (Bool.eq_false_iff.mpr ho)
    obtain ⟨outer, hp', -⟩ := parseOwned_of_innermost_some hp
    rw [← hsame, this] at hp'
    cases hp'
  have hkey := (h.lineageKey ho).symm.trans (Prog.lineageKey_of_owned hs hp)
  obtain ⟨hn, horig⟩ := Prod.mk.inj (Option.some.inj hkey)
  exact ⟨ho, hsame, hn, horig⟩

section Planned

variable {source : Nat → Except NonceError (BitVec 64)} {id : Identity} {rules : List DeviceRule}
  {w : World sha256} {progs : List (AttachedProg sha256)} {blocks : List (Block sha256)}
  {drawn : Nat} {after : List Prog}

/-- What stands for a lineage was attached and classified before, or has been loaded. -/
theorem Planned.standin_known (h : Planned source id rules w progs blocks drawn)
    {block : Block sha256} {part : Part Prog Prog} (hp : part ∈ partsIn w blocks)
    (hs : Stands rules block part) :
    ∃ raw, part.standin.Shows raw ∧ Target rules block.lineage raw ∧
      part.standin.accessible = true ∧
      ((∃ found ∈ progs, Classified part.standin found) ∨
        ∃ id name, part.standin = newProg id raw ∧ block.part.new = some (raw, name)) := by
  obtain ⟨raw, hraw, ht, hmem | ⟨id', name, hnew, hload⟩⟩ := hs.standin
  · have hm : part.standin ∈ w.kernel.attached :=
      h.sound.covers.members.mem_iff.mp (List.mem_flatMap.mpr ⟨part, hp, hmem⟩)
    obtain ⟨found, hf, hc, -⟩ := classifyAll_found h.classified hm
    exact ⟨raw, hraw, ht, h.accessible _ hm, .inl ⟨found, hf, hc⟩⟩
  · exact ⟨raw, hraw, ht, by rw [hnew]; rfl, .inr ⟨id', name, hnew, hload⟩⟩

theorem Planned.accessible_after (h : Planned source id rules w progs blocks drawn)
    (ha : after.Perm ((partsIn w blocks).map Part.standin)) :
    ∀ prog ∈ after, prog.accessible = true := by
  intro prog hp
  obtain ⟨part, hpart, rfl⟩ := List.mem_map.mp (ha.mem_iff.mp hp)
  obtain ⟨block, -, hs⟩ := h.stands_part hpart
  obtain ⟨_, _, _, hacc, _⟩ := h.standin_known hpart hs
  exact hacc

/-- After a pass for empty rules, the next one finds originals only. -/
theorem Planned.finds_originals (h : Planned source id [] w progs blocks drawn)
    (ha : after.Perm ((partsIn w blocks).map Part.standin)) :
    ∃ found : List (AttachedProg sha256), classifyAll 0 after = .ok found ∧
      ∀ prog ∈ found, prog.owned = false := by
  have hshow : ∀ prog ∈ after, ∃ raw, prog.Shows raw ∧ parseOwned sha256 raw = .ok none := by
    intro prog hp
    obtain ⟨part, hpart, rfl⟩ := List.mem_map.mp (ha.mem_iff.mp hp)
    obtain ⟨block, -, hstands⟩ := h.stands_part hpart
    obtain ⟨raw, hs, ht, -⟩ := hstands.standin
    rw [Target, if_pos rfl] at ht
    exact ⟨raw, hs, ht ▸ block.lineage.original.bare⟩
  obtain ⟨found, hf⟩ := classifyAll_exists (fun prog hp => by
    obtain ⟨raw, hs, hb⟩ := hshow prog hp
    exact ⟨raw, hs, .inl (by rw [parseOwnedInnermost, hb])⟩) 0
  refine ⟨found, hf, fun prog hp => ?_⟩
  obtain ⟨hm, hc⟩ := classifyAll_fetch hf hp
  obtain ⟨raw, hs, hb⟩ := hshow _ hm
  exact hc.owned_eq.mpr (hc.raw.unique hs ▸ hb)

theorem GrantBlocks.gated {groups : List (WrapperGroup sha256)} {grants : List (Block sha256)}
    (h : GrantBlocks rules groups grants)
    (hg : ∀ group ∈ groups, ∃ progMeta, gate group.original.raw progMeta = .ok ()) :
    ∀ block ∈ grants, ∃ progMeta, gate block.lineage.original.raw progMeta = .ok () := by
  induction h with
  | nil => nofun
  | cons hfirst _ ih =>
    obtain ⟨desired, -, rfl⟩ := hfirst
    intro block hb
    rcases List.mem_cons.mp hb with rfl | hb
    · exact hg _ List.mem_cons_self
    · exact ih (fun group hm => hg group (List.mem_cons_of_mem _ hm)) block hb

theorem BareBlocks.gated {n n' : Nat} {bares : List (AttachedProg sha256)}
    (h : BareBlocks source rules n bares blocks n') (hb : ∀ bare ∈ bares, bare.owned = false) :
    ∀ block ∈ blocks, ∃ progMeta, gate block.lineage.original.raw progMeta = .ok () := by
  induction h with
  | nil => nofun
  | @cons _ _ bare _ _ _ _ hg _ _ _ ih =>
    intro block hm
    rcases List.mem_cons.mp hm with rfl | hm
    · exact ⟨_, (bare.bare (hb bare List.mem_cons_self)).symm ▸ hg⟩
    · exact ih (fun b hm => hb b (List.mem_cons_of_mem _ hm)) block hm

theorem RebuildBlocks.gated {n n' : Nat} {cached : List (CachedLineage sha256)}
    (h : RebuildBlocks source rules n cached blocks n') :
    ∀ block ∈ blocks, ∃ progMeta, gate block.lineage.original.raw progMeta = .ok () := by
  induction h with
  | nil => nofun
  | bare _ hg _ ih =>
    intro block hm
    rcases List.mem_cons.mp hm with rfl | hm
    · exact ⟨_, hg⟩
    · exact ih block hm
  | wrapped _ hg _ _ _ ih =>
    intro block hm
    rcases List.mem_cons.mp hm with rfl | hm
    · exact ⟨_, hg⟩
    · exact ih block hm

/-- Every lineage of a grant has an original that passed the gate. -/
theorem Planned.gated (h : Planned source id rules w progs blocks drawn) (hr : rules ≠ []) :
    ∀ block ∈ blocks, ∃ progMeta, gate block.lineage.original.raw progMeta = .ok () := by
  obtain ⟨grants, bares, extra, m, rfl, hgrants, hbares, hextra⟩ := h.split_grant hr
  have hg := grouping_groupWrappers progs
  have hgroups : ∀ group ∈ (groupWrappers progs).1,
      ∃ progMeta, gate group.original.raw progMeta = .ok () := by
    intro group hm
    obtain ⟨prog, hp⟩ := List.exists_mem_of_ne_nil _ group.nonempty
    obtain ⟨hin, ho⟩ := List.mem_filter.mp
      (hg.members.mem_iff.mp (List.mem_flatMap.mpr ⟨group, hm, hp⟩))
    obtain ⟨hgate, -⟩ := (classifyAll_fetch h.classified hin).2.owned ho
    rw [(Prod.mk.inj (hg.key_eq group hm prog hp)).2] at hgate
    exact ⟨_, hgate⟩
  intro block hb
  rcases List.mem_append.mp hb with hb | hb
  · rcases List.mem_append.mp hb with hb | hb
    · exact hgrants.gated hgroups block hb
    · exact hbares.gated (fun bare hm => by simpa using (List.mem_filter.mp hm).2) block hb
  · exact hextra.gated block hb

/-- What stands for a lineage after a grant is recognised as its wrapper. -/
theorem Planned.standin_wrapper (h : Planned source id rules w progs blocks drawn) (hr : rules ≠ [])
    (hload : ∀ block ∈ blocks, ∀ load, block.part.new = some load →
      ∃ found, parseOwned sha256 load.1 = .ok found)
    {block : Block sha256} (hb : block ∈ blocks) {part : Part Prog Prog}
    (hp : part ∈ partsIn w blocks) (hs : Stands rules block part) :
    ∃ raw rules', part.standin.Shows raw ∧ Target rules block.lineage raw ∧
      parseOwnedInnermost sha256 raw =
        .ok (some ⟨block.lineage.nonce, rules', block.lineage.original.raw⟩) ∧
      gate block.lineage.original.raw part.standin.progMeta = .ok () := by
  obtain ⟨raw, hraw, ht, -, ⟨found, hf, hc⟩ | ⟨id', name, hnew, hl⟩⟩ := h.standin_known hp hs
  · -- It was attached before, as a wrapper.
    have hsame := hc.raw.unique hraw
    have howned : found.owned = true := by
      by_contra ho
      exact (ht.wrapperOf hr).parseOwned_ne (hsame ▸ hc.bare (Bool.eq_false_iff.mpr ho))
    obtain ⟨hgate, frules, hparse⟩ := hc.owned howned
    obtain ⟨outer, hp', -⟩ := parseOwned_of_innermost_some hparse
    obtain ⟨rules', hparse'⟩ := ht.parse hr ⟨_, hsame ▸ hp'⟩
    refine ⟨raw, rules', hraw, ht, hparse', ?_⟩
    rw [hsame, hparse'] at hparse
    injection hparse with hparse
    injection hparse with hparse
    injection hparse with _ _ ho
    rw [ho, ← hc.progMeta]
    exact hgate
  · -- It was loaded.
    obtain ⟨rules', hparse⟩ := ht.parse hr (hload block hb _ hl)
    obtain ⟨progMeta, hg⟩ := h.gated hr block hb
    exact ⟨raw, rules', hraw, ht, hparse, by rw [hnew]; exact gate_loaded hg⟩

/-- After a pass for non-empty rules, the next one finds the wrappers of the lineages. -/
theorem Planned.finds_wrappers (h : Planned source id rules w progs blocks drawn) (hr : rules ≠ [])
    (ha : after.Perm ((partsIn w blocks).map Part.standin))
    (hload : ∀ block ∈ blocks, ∀ load, block.part.new = some load →
      ∃ found, parseOwned sha256 load.1 = .ok found) :
    ∃ found : List (AttachedProg sha256), classifyAll 0 after = .ok found ∧
      (∀ prog ∈ found, prog.owned = true ∧
        emitOwned sha256 rules prog.nonce prog.original.raw = .ok prog.raw) ∧
      (found.map AttachedProg.key).Perm (blocks.map (·.lineage.key)) := by
  have hwrapper : ∀ prog ∈ after, ∃ block ∈ blocks, ∃ raw rules', prog.Shows raw ∧
      Target rules block.lineage raw ∧ parseOwnedInnermost sha256 raw =
        .ok (some ⟨block.lineage.nonce, rules', block.lineage.original.raw⟩) ∧
      gate block.lineage.original.raw prog.progMeta = .ok () := by
    intro prog hp
    obtain ⟨part, hpart, rfl⟩ := List.mem_map.mp (ha.mem_iff.mp hp)
    obtain ⟨block, hb, hs⟩ := h.stands_part hpart
    exact ⟨block, hb, h.standin_wrapper hr hload hb hpart hs⟩
  obtain ⟨found, hf⟩ := classifyAll_exists (fun prog hp => by
    obtain ⟨block, -, raw, rules', hs, -, hparse, hgate⟩ := hwrapper prog hp
    exact ⟨raw, hs, .inr ⟨_, hparse, hgate⟩⟩) 0
  have hfound : ∀ prog ∈ found, prog.owned = true ∧
      emitOwned sha256 rules prog.nonce prog.original.raw = .ok prog.raw := by
    intro prog hp
    obtain ⟨hm, hc⟩ := classifyAll_fetch hf hp
    obtain ⟨block, -, raw, rules', hs, ht, hparse, -⟩ := hwrapper _ hm
    obtain ⟨ho, hraw, hn, horig⟩ := hc.of_parse hs hparse
    refine ⟨ho, ?_⟩
    rw [hraw, hn, horig]
    exact (ht.wrapperOf hr).2
  have hbefore : after.map (Prog.lineageKey sha256) = found.map (some ·.key) := by
    have hall := List.forall₂_iff_get.mp (classifyAll_ok hf)
    refine List.ext_getElem (by simpa using hall.1) fun i h₁ h₂ => ?_
    rw [List.length_map] at h₁ h₂
    rw [List.getElem_map, List.getElem_map]
    exact (hall.2 i h₁ h₂).lineageKey (hfound _ (List.getElem_mem h₂)).1
  have hstandins : ((partsIn w blocks).map Part.standin).map (Prog.lineageKey sha256) =
      blocks.map (some ·.lineage.key) := by
    have hall := List.forall₂_iff_get.mp h.stands
    refine List.ext_getElem (by simpa using hall.1.symm) fun i h₁ h₂ => ?_
    simp only [List.length_map] at h₁ h₂
    simp only [List.getElem_map]
    obtain ⟨raw, rules', hs, -, hparse, -⟩ := h.standin_wrapper hr hload (List.getElem_mem h₂)
      (List.getElem_mem h₁) (hall.2 i h₂ h₁)
    exact Prog.lineageKey_of_owned hs hparse
  refine ⟨found, hf, hfound, ?_⟩
  have hperm := (ha.map (Prog.lineageKey sha256)).filterMap fun key => key
  rw [hbefore, hstandins] at hperm
  simpa [List.filterMap_map, Function.comp_def] using hperm

end Planned

/-! ## Distinct lineages -/

/-- The nonces drawn from number `first` up to `last` are none of those in use, and distinct. -/
structure FreshNonces (source : Nat → Except NonceError (BitVec 64)) (used : List (BitVec 64))
    (first last : Nat) : Prop where
  unused : ∀ k nonce, first ≤ k → k < last → source k = .ok nonce → nonce ∉ used
  distinct : ∀ j k nonce, first ≤ j → j < k → k < last → source j = .ok nonce →
    source k ≠ .ok nonce

theorem FreshNonces.mono {source : Nat → Except NonceError (BitVec 64)} {used : List (BitVec 64)}
    {first first' last last' : Nat} (h : FreshNonces source used first last) (hf : first ≤ first')
    (hl : last' ≤ last) : FreshNonces source used first' last' :=
  ⟨fun k nonce h₁ h₂ => h.unused k nonce (by omega) (by omega),
    fun j k nonce h₁ h₂ h₃ => h.distinct j k nonce (by omega) h₂ (by omega)⟩

/-- The nonces of the wrappers that are attached and of the lineages in the cache. -/
def noncesInUse (attached : List Prog) (entry : CacheEntry sha256) : List (BitVec 64) :=
  attached.filterMap (fun prog => (prog.lineageKey sha256).map Prod.fst) ++
    (entry.lineages.map CachedLineage.nonce).filter (· ≠ 0)

/-- No two lineages that were wrapped share their nonce and their original. -/
def CacheEntry.Distinct (entry : CacheEntry sha256) : Prop :=
  ((entry.lineages.filter (·.nonce ≠ 0)).map CachedLineage.key).Nodup

section Distinct

variable {source : Nat → Except NonceError (BitVec 64)} {used : List (BitVec 64)}
  {rules : List DeviceRule} {n n' : Nat} {blocks : List (Block sha256)}

/-- The lineage was given a nonce drawn from number `n` up to `n'`. -/
def DrawnKey (source : Nat → Except NonceError (BitVec 64)) (n n' : Nat) (key : Key) : Prop :=
  ∃ k, n ≤ k ∧ k < n' ∧ source k = .ok key.1

theorem DrawnKey.mono {m m' : Nat} {key : Key} (h : DrawnKey source n n' key) (hn : m ≤ n)
    (hn' : n' ≤ m') : DrawnKey source m m' key := by
  obtain ⟨k, h₁, h₂, hs⟩ := h
  exact ⟨k, by omega, by omega, hs⟩

/-- Keys drawn one after the other differ. -/
theorem DrawnKey.ne {m : Nat} {key key' : Key} (hf : FreshNonces source used n n')
    (hk : source n = .ok key.1) (h : DrawnKey source m n' key') (hm : n < m) : key ≠ key' := by
  rintro rfl
  obtain ⟨k, h₁, h₂, hs⟩ := h
  exact hf.distinct n k key.1 (Nat.le_refl _) (by omega) h₂ hk hs

/-- A key that was drawn is not in use. -/
theorem DrawnKey.unused {key key' : Key} (hf : FreshNonces source used n n')
    (h : DrawnKey source n n' key) (hu : key'.1 ∈ used) : key ≠ key' := by
  rintro rfl
  obtain ⟨k, h₁, h₂, hs⟩ := h
  exact hf.unused k key.1 h₁ h₂ hs hu

theorem BareBlocks.distinct {bares : List (AttachedProg sha256)}
    (h : BareBlocks source rules n bares blocks n') (hf : FreshNonces source used n n') :
    n ≤ n' ∧ (blocks.map (·.lineage.key)).Nodup ∧
      ∀ key ∈ blocks.map (·.lineage.key), DrawnKey source n n' key := by
  induction h with
  | nil => exact ⟨Nat.le_refl _, List.nodup_nil, nofun⟩
  | @cons n n' bare bares blocks nonce wrapped _ hn _ _ ih =>
    have hle : n + 1 ≤ n' := (ih (hf.mono (by omega) (Nat.le_refl _))).1
    obtain ⟨-, hnodup, hdrawn⟩ := ih (hf.mono (by omega) (Nat.le_refl _))
    refine ⟨by omega, List.nodup_cons.mpr ⟨fun hm => ?_, hnodup⟩, fun key hm => ?_⟩
    · exact DrawnKey.ne hf hn (hdrawn _ hm) (by omega) rfl
    · rcases List.mem_cons.mp hm with rfl | hm
      · exact ⟨n, Nat.le_refl _, by omega, hn⟩
      · exact (hdrawn key hm).mono (by omega) (Nat.le_refl _)

theorem RebuildBlocks.distinct {cached : List (CachedLineage sha256)}
    (h : RebuildBlocks source rules n cached blocks n') (hr : rules ≠ [])
    (hf : FreshNonces source used n n')
    (hc : ((cached.filter (·.nonce ≠ 0)).map CachedLineage.key).Nodup)
    (hu : ∀ lineage ∈ cached, lineage.nonce ≠ 0 → lineage.nonce ∈ used) :
    n ≤ n' ∧ (blocks.map (·.lineage.key)).Nodup ∧
      ∀ key ∈ blocks.map (·.lineage.key),
        key ∈ (cached.filter (·.nonce ≠ 0)).map CachedLineage.key ∨ DrawnKey source n n' key := by
  induction h with
  | nil => exact ⟨Nat.le_refl _, List.nodup_nil, nofun⟩
  | bare hno => exact absurd hno hr
  | @wrapped n n₁ n' lineage cached blocks nonce wrapped _ _ hd _ _ ih =>
    have hused : ∀ key ∈ (cached.filter (·.nonce ≠ 0)).map CachedLineage.key, key.1 ∈ used := by
      intro key hk
      obtain ⟨old, hm, rfl⟩ := List.mem_map.mp hk
      obtain ⟨hm, h0⟩ := List.mem_filter.mp hm
      exact hu old (List.mem_cons_of_mem _ hm) (by simpa using h0)
    have hu' : ∀ lineage ∈ cached, lineage.nonce ≠ 0 → lineage.nonce ∈ used := fun l hm =>
      hu l (List.mem_cons_of_mem _ hm)
    unfold Draws at hd
    by_cases h0 : lineage.nonce = 0
    · -- A new nonce.
      rw [if_pos h0] at hd
      obtain ⟨hn, rfl⟩ := hd
      rw [List.filter_cons_of_neg (by simpa using h0)] at hc ⊢
      obtain ⟨hle, hnodup, hkeys⟩ := ih (hf.mono (by omega) (Nat.le_refl _)) hc hu'
      have hdrawn : DrawnKey source n n' (nonce, lineage.original.raw) :=
        ⟨n, Nat.le_refl _, by omega, hn⟩
      refine ⟨by omega, List.nodup_cons.mpr ⟨fun hm => ?_, hnodup⟩, fun key hm => ?_⟩
      · rcases hkeys _ hm with hold | hnew
        · exact hdrawn.unused hf (hused _ hold) rfl
        · have hn' : source n = .ok (Prod.fst (nonce, lineage.original.raw)) := hn
          exact DrawnKey.ne hf hn' hnew (by omega) rfl
      · rcases List.mem_cons.mp hm with rfl | hm
        · exact .inr hdrawn
        · exact (hkeys key hm).imp_right fun hk => hk.mono (by omega) (Nat.le_refl _)
    · -- The nonce of the lineage.
      rw [if_neg h0] at hd
      obtain ⟨rfl, rfl⟩ := hd
      rw [List.filter_cons_of_pos (by simpa using h0), List.map_cons] at hc ⊢
      obtain ⟨hnew, hc'⟩ := List.nodup_cons.mp hc
      obtain ⟨hle, hnodup, hkeys⟩ := ih hf hc' hu'
      refine ⟨hle, List.nodup_cons.mpr ⟨fun hm => ?_, hnodup⟩, fun key hm => ?_⟩
      · rcases hkeys _ hm with hold | hdrawn
        · exact hnew hold
        · exact hdrawn.unused hf (hu lineage List.mem_cons_self h0) rfl
      · rcases List.mem_cons.mp hm with rfl | hm
        · exact .inl List.mem_cons_self
        · exact (hkeys key hm).imp_left (List.mem_cons_of_mem _)

theorem missingLineages_sublist (cached : List (CachedLineage sha256))
    (groups : List (WrapperGroup sha256)) (bares : List (AttachedProg sha256)) :
    (missingLineages cached groups bares).Sublist cached := by
  induction cached generalizing groups bares with
  | nil => exact .slnil
  | cons lineage cached ih =>
    rw [missingLineages]
    split
    · exact (ih _ _).cons _
    · split
      · exact (ih _ _).cons _
      · exact (ih _ _).cons_cons _

theorem mem_eraseP_key {groups : List (WrapperGroup sha256)} {key : Key}
    {lineage : CachedLineage sha256} (hm : key ∈ groups.map WrapperGroup.key)
    (hne : key ≠ lineage.key) :
    key ∈ (groups.eraseP fun group =>
      group.nonce = lineage.nonce && group.original.raw = lineage.original.raw).map
        WrapperGroup.key := by
  obtain ⟨group, hg, rfl⟩ := List.mem_map.mp hm
  refine List.mem_map_of_mem ((List.mem_eraseP_of_neg ?_).mpr hg)
  intro h
  obtain ⟨hn, ho⟩ := Bool.and_eq_true_iff.mp h
  exact hne (Prod.ext (of_decide_eq_true hn) (of_decide_eq_true ho))

/-- A wrapped lineage that is missing has no wrapper attached. -/
theorem missing_notMem {cached : List (CachedLineage sha256)} {groups : List (WrapperGroup sha256)}
    {bares : List (AttachedProg sha256)}
    (hc : ((cached.filter (·.nonce ≠ 0)).map CachedLineage.key).Nodup) :
    ∀ lineage ∈ missingLineages cached groups bares, lineage.nonce ≠ 0 →
      lineage.key ∉ groups.map WrapperGroup.key := by
  induction cached generalizing groups bares with
  | nil => nofun
  | cons first cached ih =>
    have hc' : ((cached.filter (·.nonce ≠ 0)).map CachedLineage.key).Nodup := by
      by_cases h0 : first.nonce = 0
      · rwa [List.filter_cons_of_neg (by simpa using h0)] at hc
      · rw [List.filter_cons_of_pos (by simpa using h0), List.map_cons] at hc
        exact (List.nodup_cons.mp hc).2
    -- A later lineage is not the first one again.
    have hne : ∀ lineage ∈ cached, lineage.nonce ≠ 0 → lineage.key ≠ first.key := by
      intro lineage hm hl heq
      have h0 : first.nonce ≠ 0 := (Prod.mk.inj heq).1 ▸ hl
      rw [List.filter_cons_of_pos (by simpa using h0), List.map_cons] at hc
      refine (List.nodup_cons.mp hc).1 (heq ▸ List.mem_map_of_mem (List.mem_filter.mpr ⟨hm, ?_⟩))
      simpa using hl
    intro lineage hm hl hin
    rw [missingLineages] at hm
    split at hm
    · have hlater := (missingLineages_sublist _ _ _).subset hm
      exact ih hc' lineage hm hl (mem_eraseP_key hin (hne lineage hlater hl))
    · rename_i hany
      split at hm
      · exact ih hc' lineage hm hl hin
      · rcases List.mem_cons.mp hm with rfl | hm
        · obtain ⟨group, hg, hkey⟩ := List.mem_map.mp hin
          refine hany (List.any_eq_true.mpr ⟨group, hg, ?_⟩)
          obtain ⟨hn, ho⟩ := Prod.mk.inj hkey
          simp only [hn, ho, decide_true, Bool.and_self]
        · exact ih hc' lineage hm hl hin

theorem planEntry_lineages (w : World sha256) (id : Identity) :
    (planEntry w id).lineages = (w.cache.get id).lineages := by
  unfold planEntry
  split <;> rfl

/-- What a pass attaches again is in the cache. -/
theorem missingOf_sublist (w : World sha256) (id : Identity) (progs : List (AttachedProg sha256)) :
    (missingOf (planEntry w id) progs).Sublist (w.cache.get id).lineages := by
  rw [← planEntry_lineages w id]
  unfold missingOf
  split
  · exact missingLineages_sublist _ _ _
  · exact List.nil_sublist _

/-- It has no wrapper attached. -/
theorem missingOf_key {id : Identity} {w : World sha256} {progs : List (AttachedProg sha256)}
    (hd : (w.cache.get id).Distinct) {lineage : CachedLineage sha256}
    (hl : lineage ∈ missingOf (planEntry w id) progs) (h0 : lineage.nonce ≠ 0) :
    lineage.key ∉ (groupWrappers progs).1.map WrapperGroup.key := by
  unfold missingOf at hl
  split at hl
  · rw [planEntry_lineages] at hl
    exact missing_notMem hd lineage hl h0
  · cases hl

/-- The lineages of a grant have distinct keys. -/
theorem Planned.keys_nodup {id : Identity} {w : World sha256} {progs : List (AttachedProg sha256)}
    {drawn : Nat} (h : Planned source id rules w progs blocks drawn) (hr : rules ≠ [])
    (hf : FreshNonces source (noncesInUse w.kernel.attached (w.cache.get id)) w.drawn drawn)
    (hd : (w.cache.get id).Distinct) : (blocks.map (·.lineage.key)).Nodup := by
  obtain ⟨grants, bares, extra, m, rfl, hgrants, hbares, hextra⟩ := h.split_grant hr
  have hg := grouping_groupWrappers progs
  have hm : w.drawn ≤ m := by
    have := (hbares.keys fun bare hb => by simpa using (List.mem_filter.mp hb).2).2.2
    omega
  have hm' : m ≤ drawn := (hextra.keys hr).1
  have hsub := missingOf_sublist w id progs
  have hcached : (((missingOf (planEntry w id) progs).filter (·.nonce ≠ 0)).map
      CachedLineage.key).Nodup := hd.sublist ((hsub.filter _).map _)
  have hused : ∀ lineage ∈ missingOf (planEntry w id) progs, lineage.nonce ≠ 0 →
      lineage.nonce ∈ noncesInUse w.kernel.attached (w.cache.get id) := by
    intro lineage hl h0
    refine List.mem_append_right _ (List.mem_filter.mpr ⟨List.mem_map_of_mem (hsub.subset hl), ?_⟩)
    simpa using h0
  have hgroups : ∀ key ∈ (groupWrappers progs).1.map WrapperGroup.key,
      key.1 ∈ noncesInUse w.kernel.attached (w.cache.get id) := by
    intro key hk
    obtain ⟨prog, hp, rfl⟩ :=
      List.mem_map.mp (List.mem_dedup.mp ((groups_keys progs).mem_iff.mp hk))
    obtain ⟨hp, ho⟩ := List.mem_filter.mp hp
    obtain ⟨hin, hc⟩ := classifyAll_fetch h.classified hp
    refine List.mem_append_left _ (List.mem_filterMap.mpr ⟨_, hin, ?_⟩)
    rw [hc.lineageKey ho]
    rfl
  obtain ⟨-, hbnodup, hbdrawn⟩ := hbares.distinct (hf.mono (Nat.le_refl _) hm')
  obtain ⟨-, henodup, hekeys⟩ := hextra.distinct hr (hf.mono hm (Nat.le_refl _)) hcached hused
  rw [List.map_append, List.map_append, hgrants.keys]
  refine List.nodup_append'.mpr ⟨List.nodup_append'.mpr ⟨hg.distinct, hbnodup, ?_⟩, henodup, ?_⟩
  · intro key hk hk'
    exact ((hbdrawn key hk').mono (Nat.le_refl _) hm').unused hf (hgroups key hk) rfl
  · intro key hk hk'
    rcases List.mem_append.mp hk with hk | hk
    · rcases hekeys key hk' with hold | hdrawn
      · obtain ⟨lineage, hl, rfl⟩ := List.mem_map.mp hold
        obtain ⟨hl, h0⟩ := List.mem_filter.mp hl
        exact missingOf_key hd hl (by simpa using h0) hk
      · exact (hdrawn.mono hm (Nat.le_refl _)).unused hf (hgroups key hk) rfl
    · obtain ⟨k, h₁, h₂, hs⟩ := hbdrawn key hk
      rcases hekeys key hk' with hold | ⟨k', h₁', h₂', hs'⟩
      · obtain ⟨lineage, hl, rfl⟩ := List.mem_map.mp hold
        obtain ⟨hl, h0⟩ := List.mem_filter.mp hl
        exact hf.unused k _ h₁ (by omega) hs (hused lineage hl (by simpa using h0))
      · exact hf.distinct k k' _ h₁ (by omega) h₂' hs hs'

end Distinct

end V2
end Sda
