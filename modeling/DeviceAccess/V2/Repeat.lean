import DeviceAccess.V2.Again
import DeviceAccess.V2.Runs

/-!
# Repeating a pass

A pass that finds what it is asked for changes nothing. After a successful pass the next one for the
same rules finds originals only (empty rules), or one wrapper for each lineage that is already the
wanted one (`Planned.finds_wrappers`, `Planned.keys_nodup`), so that every block of its plan keeps
its only member and the plan is `Idle`.

That the lineages of an entry are distinct is kept by every pass (`setRules_distinct`). An entry
that has a lineage twice is rebuilt into two equal wrappers, of which the next pass drops one.
-/

namespace Sda
namespace V2

open Asm Sda.Filter Handover

variable {sha256 : Bytes → Vector Byte 32}

/-! ## Plans that keep everything -/

/-- The block keeps its only member. -/
def Block.Keeps (block : Block sha256) : Prop := ∃ index, block.part = .keep index []

theorem idle_of_keeps {blocks : List (Block sha256)} (h : ∀ block ∈ blocks, block.Keeps) :
    Idle blocks := by
  have hkeep : ∀ n, (blocks.flatMap (loadsOf ·.part)).map Prod.fst = [] ∧
      stepsFrom n (blocks.map Block.part) = [] := by
    induction blocks with
    | nil => exact fun n => ⟨rfl, rfl⟩
    | cons block blocks ih =>
      obtain ⟨index, hpart⟩ := h block List.mem_cons_self
      have ih := ih fun b hb => h b (List.mem_cons_of_mem _ hb)
      refine fun n => ⟨?_, ?_⟩
      · rw [List.flatMap_cons, hpart]
        exact (ih n).1
      · rw [List.map_cons, stepsFrom, hpart]
        exact (ih n).2
  exact ⟨(planOf_loads blocks).trans (hkeep 0).1, (planOf_steps blocks).trans (hkeep 0).2⟩

/-- Without a wrapper there is no lineage of wrappers. -/
theorem groups_nil {progs : List (AttachedProg sha256)} (h : ∀ prog ∈ progs, prog.owned = false) :
    (groupWrappers progs).1 = [] := by
  have hg := grouping_groupWrappers progs
  have hnone : progs.filter (·.owned) = [] := List.filter_eq_nil_iff.mpr fun prog hp => by
    rw [h prog hp]
    exact Bool.false_ne_true
  have hmembers := hg.members
  rw [hnone, List.perm_nil, List.flatMap_eq_nil_iff] at hmembers
  exact List.eq_nil_iff_forall_not_mem.mpr fun group hm => group.nonempty (hmembers group hm)

/-- Wrappers of distinct lineages are alone in their groups. -/
theorem groups_single {progs : List (AttachedProg sha256)} (ho : ∀ prog ∈ progs, prog.owned = true)
    (hn : (progs.map AttachedProg.key).Nodup) :
    ∀ group ∈ (groupWrappers progs).1, ∃ prog ∈ progs, group.members = [prog] := by
  have hg := grouping_groupWrappers progs
  have hmembers := hg.members
  rw [List.filter_eq_self.mpr ho] at hmembers
  have hkeys : ((groupWrappers progs).1.flatMap fun group =>
      group.members.map AttachedProg.key).Nodup := by
    rw [← List.map_flatMap]
    exact (hmembers.map _).nodup_iff.mpr hn
  intro group hm
  have hone := (List.nodup_flatMap.mp hkeys).1 group hm
  cases hlist : group.members with
  | nil => exact absurd hlist group.nonempty
  | cons prog rest =>
    have hin : prog ∈ progs := hmembers.mem_iff.mp
      (List.mem_flatMap.mpr ⟨group, hm, by rw [hlist]; exact List.mem_cons_self⟩)
    refine ⟨prog, hin, ?_⟩
    cases rest with
    | nil => rfl
    | cons second rest =>
      have hk := hg.key_eq group hm
      rw [hlist] at hk hone
      have hsame : prog.key = second.key :=
        (hk prog (by simp)).trans (hk second (by simp)).symm
      exact absurd (by simp [hsame]) (List.nodup_cons.mp hone).1

/-- A lineage whose only wrapper is the wanted one is kept. -/
theorem grantBlock_keeps {group : WrapperGroup sha256} {prog : AttachedProg sha256}
    (h : group.members = [prog]) : (grantBlock prog.raw group).Keeps := by
  refine ⟨prog.index, ?_⟩
  simp [grantBlock, h]

theorem grantBlocks_exist {rules : List DeviceRule} {groups : List (WrapperGroup sha256)}
    (h : ∀ group ∈ groups, ∃ prog, group.members = [prog] ∧
      emitOwned sha256 rules group.nonce group.original.raw = .ok prog.raw) :
    ∃ blocks, GrantBlocks rules groups blocks ∧ ∀ block ∈ blocks, block.Keeps := by
  induction groups with
  | nil => exact ⟨[], .nil, nofun⟩
  | cons group groups ih =>
    obtain ⟨prog, hm, he⟩ := h group List.mem_cons_self
    obtain ⟨blocks, hb, hk⟩ := ih fun g hg => h g (List.mem_cons_of_mem _ hg)
    refine ⟨_, .cons ⟨prog.raw, he, rfl⟩ hb, fun block hm' => ?_⟩
    rcases List.mem_cons.mp hm' with rfl | hm'
    · exact grantBlock_keeps hm
    · exact hk block hm'

section Plan

variable {source : Nat → Except NonceError (BitVec 64)} {rules : List DeviceRule}
  {entry : CacheEntry sha256} {progs : List (AttachedProg sha256)}

/-- The plan of a pass that has no rebuild to finish. -/
theorem planPass_of_rules (he : entry.rebuilding = false) {plan : PassPlan sha256} {n n' : Nat}
    (h : planRules source (groupWrappers progs).1 (groupWrappers progs).2 rules
      n = (.ok plan, n')) :
    planPass source entry progs rules n = (.ok plan, n') := by
  unfold planPass
  refine (Action.bind_of_ok h).trans ?_
  rw [he]
  rfl

/-- The plan for wrappers that are all wanted as they are. -/
theorem planPass_wrappers (hr : rules ≠ []) (he : entry.rebuilding = false)
    (hp : ∀ prog ∈ progs, prog.owned = true ∧
      emitOwned sha256 rules prog.nonce prog.original.raw = .ok prog.raw)
    (hn : (progs.map AttachedProg.key).Nodup) (n : Nat) :
    ∃ blocks, planPass source entry progs rules n = (.ok (planOf blocks), n) ∧
      PassBlocks source entry progs rules n blocks n ∧ Idle blocks := by
  have hg := grouping_groupWrappers progs
  obtain ⟨blocks, hblocks, hkeeps⟩ := @grantBlocks_exist _ rules (groupWrappers progs).1 (by
    intro group hm
    obtain ⟨prog, hin, hlist⟩ := groups_single (fun p h => (hp p h).1) hn group hm
    obtain ⟨hnonce, horig⟩ := Prod.mk.inj (hg.key_eq group hm prog (by rw [hlist]; simp))
    exact ⟨prog, hlist, by rw [← hnonce, ← horig]; exact (hp prog hin).2⟩)
  have hbares : (groupWrappers progs).2 = [] := by
    rw [hg.bares_eq]
    exact List.filter_eq_nil_iff.mpr fun prog h => by simp [(hp prog h).1]
  refine ⟨blocks, ?_, ⟨blocks, [], n, (List.append_nil _).symm,
    .inr ⟨hr, blocks, [], hblocks, by rw [hbares]; exact .nil _, (List.append_nil _).symm⟩,
    .inr ⟨he, rfl, rfl⟩⟩, idle_of_keeps hkeeps⟩
  have hfold : (groupWrappers progs).1.foldlM (grantGroup rules) PassPlan.empty =
      .ok (planOf blocks) := foldlM_grantGroup.mpr ⟨blocks, hblocks, rfl⟩
  refine planPass_of_rules he ?_
  rw [planRules, if_neg hr, planGrant, hbares, hfold]
  rfl

/-- The plan for originals that are all wanted as they are. -/
theorem planPass_originals (he : entry.rebuilding = false)
    (hp : ∀ prog ∈ progs, prog.owned = false) (n : Nat) :
    ∃ blocks, planPass source entry progs [] n = (.ok (planOf blocks), n) ∧
      PassBlocks source entry progs [] n blocks n ∧ Idle blocks := by
  refine ⟨restoreBlocks (groupWrappers progs).1 (groupWrappers progs).2, ?_,
    ⟨_, [], n, (List.append_nil _).symm, .inl ⟨rfl, rfl, rfl⟩, .inr ⟨he, rfl, rfl⟩⟩,
    idle_of_keeps fun block hb => ?_⟩
  · refine planPass_of_rules he ?_
    rw [planRules, if_pos rfl, planRestore_eq]
    rfl
  · rw [groups_nil hp, restoreBlocks] at hb
    obtain ⟨bare, -, rfl⟩ := List.mem_map.mp hb
    exact ⟨bare.index, rfl⟩

end Plan

/-! ## The next pass -/

section Next

variable {env : Env} {id : Identity} {rules : List DeviceRule} {w w₁ : World sha256}
  {progs : List (AttachedProg sha256)} {blocks : List (Block sha256)} {drawn : Nat}

/-- A plan has something to stand for. -/
theorem Planned.blocks_ne_nil {source : Nat → Except NonceError (BitVec 64)}
    (h : Planned source id rules w progs blocks drawn) : blocks ≠ [] := by
  have hexists : ∃ original, ∃ block ∈ blocks, block.lineage.original.raw = original := by
    cases hnow : w.kernel.attached with
    | nil =>
      obtain ⟨lineage, hl⟩ := List.exists_mem_of_ne_nil _ (h.cached hnow)
      exact ⟨_, h.exists_block (.inr (planEntry_has.mpr ⟨⟨lineage, hl, rfl⟩, .inl hnow⟩))⟩
    | cons prog rest =>
      have hm : prog ∈ w.kernel.attached := by rw [hnow]; exact List.mem_cons_self
      obtain ⟨found, -, hc, -⟩ := classifyAll_found h.classified hm
      exact ⟨_, h.exists_block (.inl ⟨prog, hm, hc.carries⟩)⟩
  obtain ⟨-, block, hb, -⟩ := hexists
  exact List.ne_nil_of_mem hb

/-- A pass leaves something attached. -/
theorem Planned.attached_ne_nil {source : Nat → Except NonceError (BitVec 64)}
    (h : Planned source id rules w progs blocks drawn) {after : List Prog}
    (ha : after.Perm ((partsIn w blocks).map Part.standin)) : after ≠ [] := by
  obtain ⟨block, hb⟩ := List.exists_mem_of_ne_nil _ h.blocks_ne_nil
  obtain ⟨part, hpart, -⟩ := h.stands_block hb
  exact List.ne_nil_of_mem (ha.mem_iff.mpr (List.mem_map_of_mem hpart))

/-- The programs a pass loaded with small numbers are no conflicts. -/
theorem Planned.loads_recognised {source : Nat → Except NonceError (BitVec 64)}
    (h : Planned source id rules w progs blocks drawn) (hr : rules ≠ [])
    (hs : ∀ rule ∈ keptRules rules, rule.SmallNumbers) (hfit : LoadsFit env blocks) :
    ∀ block ∈ blocks, ∀ load, block.part.new = some load →
      ∃ found, parseOwned sha256 load.1 = .ok found := by
  intro block hb load hl
  have hlen := hfit load (List.mem_flatMap.mpr ⟨block, hb, by simp [loadsOf, hl]⟩)
  have hlt := Nat.lt_of_le_of_lt hlen env.insnLimit_lt
  exact ((h.blocks.accounts.target hb hl).recognised_iff hr hlt).mpr hs

/-- **After a successful pass, the plan for the same rules changes nothing.** -/
theorem Planned.again (h : Planned env.nonce id rules w progs blocks drawn) {rebuilding : Bool}
    (hpassed : Passed env id blocks rebuilding drawn (.ok ()) w w₁)
    (hsmall : ∀ rule ∈ rules, rule.SmallNumbers)
    (hfresh : FreshNonces env.nonce (noncesInUse w.kernel.attached (w.cache.get id)) w.drawn drawn)
    (hentry : (w.cache.get id).Distinct) :
    ∃ progs' blocks', Planned env.nonce id rules w₁ progs' blocks' w₁.drawn ∧ Idle blocks' := by
  obtain ⟨hfit, hafter⟩ := hpassed.ok rfl
  have hne := h.attached_ne_nil hafter
  have hquiet : (planEntry w₁ id).rebuilding = false := by
    rw [planEntry, if_neg hne, hpassed.cache, FilterCache.get_set]
    exact Bool.and_false _
  by_cases hr : rules = []
  · subst hr
    obtain ⟨found, hf, hbare⟩ := h.finds_originals hafter
    obtain ⟨blocks', hp, hb, hidle⟩ := planPass_originals hquiet hbare w₁.drawn
    exact ⟨found, blocks',
      ⟨h.accessible_after hafter, hpassed.multi, fun he => absurd he hne, hf, hp,
      hb⟩, hidle⟩
  · obtain ⟨found, hf, hwrapper, hkeys⟩ :=
      h.finds_wrappers hr hafter
        (h.loads_recognised hr (fun rule hk => hsmall rule (mem_of_keptRules hk)) hfit)
    obtain ⟨blocks', hp, hb, hidle⟩ := planPass_wrappers hr hquiet hwrapper
      (hkeys.nodup_iff.mpr (h.keys_nodup hr hfresh hentry)) w₁.drawn
    exact ⟨found, blocks',
      ⟨h.accessible_after hafter, hpassed.multi, fun he => absurd he hne, hf, hp,
      hb⟩, hidle⟩

end Next

/-! ## The entries a daemon records -/

theorem restoreBlocks_lineages (groups : List (WrapperGroup sha256))
    (available : List (AttachedProg sha256)) :
    ∃ rest, (restoreBlocks groups available).map Block.lineage =
        groups.map WrapperGroup.lineage ++ rest ∧ ∀ lineage ∈ rest, lineage.nonce = 0 := by
  induction groups generalizing available with
  | nil =>
    refine ⟨available.map fun bare => ⟨0, bare.original, bare.progMeta⟩, ?_, fun lineage hl => ?_⟩
    · rw [restoreBlocks, List.map_map]
      rfl
    · obtain ⟨bare, -, rfl⟩ := List.mem_map.mp hl
      rfl
  | cons group groups ih =>
    rw [restoreBlocks]
    split
    · obtain ⟨rest, heq, h0⟩ := ih (available.eraseP (·.raw = group.original.raw))
      exact ⟨rest, congrArg (group.lineage :: ·) heq, h0⟩
    · obtain ⟨rest, heq, h0⟩ := ih available
      exact ⟨rest, congrArg (group.lineage :: ·) heq, h0⟩

theorem RebuildBlocks.lineages {source : Nat → Except NonceError (BitVec 64)} {n n' : Nat}
    {cached : List (CachedLineage sha256)} {blocks : List (Block sha256)}
    (h : RebuildBlocks source [] n cached blocks n') : blocks.map Block.lineage = cached := by
  induction h with
  | nil => rfl
  | bare _ _ _ ih => rw [List.map_cons, ih]
  | wrapped hr => exact absurd rfl hr

/-- A pass records distinct lineages when the entry before has distinct ones. -/
theorem Planned.distinct {source : Nat → Except NonceError (BitVec 64)} {id : Identity}
    {rules : List DeviceRule} {w : World sha256} {progs : List (AttachedProg sha256)}
    {blocks : List (Block sha256)} {drawn : Nat} (h : Planned source id rules w progs blocks drawn)
    (hf : FreshNonces source (noncesInUse w.kernel.attached (w.cache.get id)) w.drawn drawn)
    (hd : (w.cache.get id).Distinct) (rebuilding : Bool) :
    CacheEntry.Distinct ⟨blocks.map Block.lineage, rebuilding⟩ := by
  by_cases hr : rules = []
  swap
  · have hkeys := h.keys_nodup hr hf hd
    refine hkeys.sublist ?_
    rw [show blocks.map (·.lineage.key) = (blocks.map Block.lineage).map CachedLineage.key by
      rw [List.map_map]; rfl]
    exact List.filter_sublist.map _
  subst hr
  obtain ⟨extra, m, rfl, hextra⟩ := h.split_restore
  obtain ⟨rest, hmain, hzero⟩ := restoreBlocks_lineages (groupWrappers progs).1
    (progs.filter (!·.owned))
  have hnone : rest.filter (·.nonce ≠ 0) = [] :=
    List.filter_eq_nil_iff.mpr fun lineage hl => by simp [hzero lineage hl]
  unfold CacheEntry.Distinct
  rw [List.map_append, hmain, hextra.lineages, List.filter_append, List.filter_append, hnone,
    List.append_nil, List.map_append]
  refine List.nodup_append'.mpr ⟨?_, ?_, ?_⟩
  · have hkeys := (grouping_groupWrappers progs).distinct
    refine hkeys.sublist ?_
    rw [show (groupWrappers progs).1.map WrapperGroup.key =
      ((groupWrappers progs).1.map WrapperGroup.lineage).map CachedLineage.key by
        rw [List.map_map]; rfl]
    exact List.filter_sublist.map _
  · exact hd.sublist (((missingOf_sublist w id progs).filter _).map _)
  · intro key hk hk'
    obtain ⟨lineage, hl, rfl⟩ := List.mem_map.mp hk'
    obtain ⟨hl, h0⟩ := List.mem_filter.mp hl
    refine missingOf_key hd hl (by simpa using h0) ?_
    obtain ⟨shown, hs, heq⟩ := List.mem_map.mp hk
    obtain ⟨group, hg, rfl⟩ := List.mem_map.mp (List.mem_filter.mp hs).1
    exact heq ▸ List.mem_map_of_mem hg

/-- **Every pass leaves an entry of distinct lineages**, with fresh nonces and from such an entry.
-/
theorem setRules_distinct {env : Env} {id : Identity} {rules : List DeviceRule}
    {w w' : World sha256} {r : Except Error Unit} (hcalm : env.CalmFrom w.calls)
    (h : setRules env id rules w = (r, w'))
    (hfresh : FreshNonces env.nonce (noncesInUse w.kernel.attached (w.cache.get id))
      w.drawn w'.drawn)
    (hentry : (w.cache.get id).Distinct) : (w'.cache.get id).Distinct := by
  rcases setRules_inv hcalm h with hstop | ⟨⟨progs, blocks, drawn, hplan⟩, hpassed⟩
  · rw [hstop.looked.cache]
    exact hentry
  · have hpassed := hpassed progs blocks drawn hplan
    rw [hpassed.drawn] at hfresh
    rw [hpassed.cache, FilterCache.get_set]
    exact hplan.distinct hfresh hentry _

/-! ## Repeating a pass -/

/-- **Repeating a successful pass touches nothing.** -/
theorem setRules_repeat (env : Env) (id : Identity) (rules : List DeviceRule) (w w₁ : World sha256)
    (hcalm : env.CalmFrom w.calls) (hsmall : ∀ rule ∈ rules, rule.SmallNumbers)
    (hfresh : FreshNonces env.nonce (noncesInUse w.kernel.attached (w.cache.get id))
      w.drawn w₁.drawn)
    (hentry : (w.cache.get id).Distinct) (hok : setRules env id rules w = (.ok (), w₁))
    (hfaultless : env.FaultlessFrom w₁.calls) :
    ∃ w₂, setRules env id rules w₁ = (.ok (), w₂) ∧
      Logged (fun point => point.event.changes = false) w₁ w₂ ∧
      w₂.kernel.attached = w₁.kernel.attached ∧ (w₂.cache.get id).rebuilding = false := by
  rcases setRules_inv hcalm hok with hstop | ⟨⟨progs, blocks, drawn, hplan⟩, hpassed⟩
  · obtain ⟨e, he⟩ := hstop.error
    cases he
  have hpassed := hpassed progs blocks drawn hplan
  rw [hpassed.drawn] at hfresh
  obtain ⟨progs', blocks', hplan', hidle⟩ := hplan.again hpassed hsmall hfresh hentry
  obtain ⟨r, w₂, h₂⟩ := (setRules env id rules).exists_run w₁
  rcases setRules_inv (hcalm.mono hpassed.calls) h₂ with hstop | ⟨-, hpassed'⟩
  · exact absurd hplan' (hstop.reason hfaultless progs' blocks' _)
  have hpassed' := hpassed' progs' blocks' _ hplan'
  obtain ⟨rfl, hkernel⟩ := hpassed'.idle hidle
  refine ⟨w₂, h₂, hpassed'.log.mono fun point hp => ?_, by rw [hkernel], ?_⟩
  · cases hp with
    | read he _ _ => cases hevent : point.event <;> rw [hevent] at he <;> first | rfl | cases he
    | commit he _ _ => rw [he]; rfl
    | change _ _ _ _ hbusy => exact absurd hidle hbusy
    | rebuilt he _ _ _ => rw [he]; rfl
  · rw [hpassed'.cache, FilterCache.get_set]
    exact Bool.and_false _

theorem tunRule_small : tunRule.SmallNumbers :=
  ⟨fun _ h => by cases h; decide, fun _ h => by cases h; decide⟩

theorem setRules_repeat_denyWorld :
    ∃ w₁ w₂, setRules quietEnv sampleId [tunRule] denyWorld = (.ok (), w₁) ∧
      setRules quietEnv sampleId [tunRule] w₁ = (.ok (), w₂) ∧
      Logged (fun point => point.event.changes = false) w₁ w₂ ∧
      w₂.kernel.attached = w₁.kernel.attached ∧ (w₂.cache.get sampleId).rebuilding = false := by
  obtain ⟨r, w₁, h⟩ := (setRules quietEnv sampleId [tunRule]).exists_run denyWorld
  have hr : (setRules quietEnv sampleId [tunRule] denyWorld).1.isOk = true := by decide +kernel
  have hdrawn : (setRules quietEnv sampleId [tunRule] denyWorld).2.drawn = 1 := by decide +kernel
  have hused : noncesInUse denyWorld.kernel.attached (denyWorld.cache.get sampleId) = [] := by
    decide +kernel
  rw [h] at hr hdrawn
  cases r with
  | error e => cases hr
  | ok =>
    obtain ⟨w₂, h₂⟩ := setRules_repeat quietEnv sampleId [tunRule] denyWorld w₁ (fun _ _ => rfl)
      (fun rule hm => by rw [List.mem_singleton.mp hm]; exact tunRule_small) (by
        rw [hused, show w₁.drawn = 1 from hdrawn]
        exact ⟨fun _ _ _ _ _ => List.not_mem_nil, fun j k _ _ _ _ => by omega⟩)
      List.nodup_nil h (fun _ _ => rfl)
    exact ⟨w₁, w₂, h, h₂⟩

/-- A wiped cgroup whose entry has the same lineage twice. -/
def dupWorld : World sampleSha256 where
  kernel := ⟨[], 0, 0, List.nodup_nil, Kernel.known_nil⟩
  replace := .unknown
  cache := fun _ => some ⟨List.replicate 2
    ⟨5, ⟨denyAll, denyAll_canonical, denyAll_bare _⟩, ⟨true, 0⟩⟩, true⟩
  calls := 0
  drawn := 0
  log := []

/-- The first pass attaches the same wrapper twice, and the second one detaches one of them. -/
theorem setRules_repeat_dupWorld :
    ∃ w₁ w₂, setRules quietEnv sampleId [tunRule] dupWorld = (.ok (), w₁) ∧
      FreshNonces quietEnv.nonce
      (noncesInUse dupWorld.kernel.attached (dupWorld.cache.get sampleId))
        dupWorld.drawn w₁.drawn ∧
      setRules quietEnv sampleId [tunRule] w₁ = (.ok (), w₂) ∧
      ¬ Logged (fun point => point.event.changes = false) w₁ w₂ ∧
      w₂.kernel.attached ≠ w₁.kernel.attached := by
  obtain ⟨r, w₁, h⟩ := (setRules quietEnv sampleId [tunRule]).exists_run dupWorld
  obtain ⟨r', w₂, h'⟩ := (setRules quietEnv sampleId [tunRule]).exists_run w₁
  have hruns : ∀ p q, setRules quietEnv sampleId [tunRule] dupWorld = p →
      setRules quietEnv sampleId [tunRule] p.2 = q →
      (p.1.isOk = true ∧ p.2.drawn = 0 ∧ p.2.kernel.attached.length = 2) ∧ q.1.isOk = true ∧
        q.2.kernel.attached.length = 1 ∧
        (q.2.log.drop p.2.log.length).any (·.event.changes) = true := by
    rintro p q rfl rfl
    decide +kernel
  obtain ⟨⟨hok, hdrawn, htwo⟩, hok', hone, hany⟩ := hruns _ _ h h'
  cases r with
  | error e => cases hok
  | ok =>
    cases r' with
    | error e => cases hok'
    | ok =>
      refine ⟨w₁, w₂, h, ?_, h', ?_, fun heq => ?_⟩
      · have hnone : w₁.drawn = 0 := hdrawn
        rw [hnone]
        exact ⟨fun _ _ _ _ => by omega, fun _ _ _ _ _ _ => by omega⟩
      · rintro ⟨points, hlog, hquiet⟩
        simp only [hlog, List.drop_left] at hany
        obtain ⟨point, hp, hchanges⟩ := List.any_eq_true.mp hany
        rw [hquiet point hp] at hchanges
        cases hchanges
      · rw [heq] at hone
        exact absurd (hone.symm.trans htwo) (by decide)

end V2
end Sda
