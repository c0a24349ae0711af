import DeviceAccess.V2.Wiped

/-!
# What is left of a rebuild that a wipe came into

A rebuild records that it has completed after its last step, whatever has happened to the programs
it attached. When the wipe comes between two attaches, the cgroup is neither empty nor being rebuilt
afterwards, and the next pass takes the programs it finds for all there are: what was attached
before the wipe is gone for good (`Passes.present`). When nothing is attached after the wipe, the
next pass rebuilds what was recorded, if the gate lets it.
-/

namespace Sda
namespace V2

open Asm Sda.Filter Handover

variable {sha256 : Bytes → Vector Byte 32}

/-- Passes that end without an error, one after the other, whatever rules they are for. -/
inductive Passes (env : Env) (id : Identity) : World sha256 → World sha256 → Prop
  | refl (w : World sha256) : Passes env id w w
  | step {w w₁ w' : World sha256} (rules : List DeviceRule) :
      setRules env id rules w = (.ok (), w₁) → Passes env id w₁ w' → Passes env id w w'

/-! ## Passes that have nothing to rebuild -/

theorem realize_members_ne {attached : List Prog} {id : Nat} {parts : List (Part Nat Load)}
    (h : ∀ part ∈ parts, part.members ≠ []) :
    ∀ part ∈ realize attached id parts, part.members ≠ [] := by
  induction parts generalizing id with
  | nil => nofun
  | cons first parts ih =>
    intro part hp
    rcases List.mem_cons.mp hp with rfl | hp
    · cases first with
      | keep keeper drops => exact List.cons_ne_nil _ _
      | swap old load drops => exact List.cons_ne_nil _ _
      | attach load => exact absurd rfl (h _ List.mem_cons_self)
    · exact ih (fun part hm => h part (List.mem_cons_of_mem _ hm)) part hp

section Pass

variable {env : Env} {id : Identity} {rules : List DeviceRule} {w w' : World sha256}
  {progs : List (AttachedProg sha256)} {blocks : List (Block sha256)} {drawn : Nat}
  {original : Bytes}

/-- Without a rebuild, what stands in the end has a program it stands for. -/
theorem Planned.present_before (h : Planned env.nonce id rules w progs blocks drawn)
    (hr : (planEntry w id).rebuilding = false) {after : List Prog}
    (ha : after.Perm ((partsIn w blocks).map Part.standin)) (hp : Present sha256 original after) :
    Present sha256 original w.kernel.attached := by
  obtain ⟨prog, hm, hc⟩ := hp
  obtain ⟨part, hpart, rfl⟩ := List.mem_map.mp (ha.mem_iff.mp hm)
  obtain ⟨block, hb, hs⟩ := h.stands_part hpart
  have hmembers : ∀ part ∈ blocks.map Block.part, part.members ≠ [] := by
    intro part hp
    obtain ⟨block, hb, rfl⟩ := List.mem_map.mp hp
    obtain ⟨main, extra, m, rfl, hmain, hextra⟩ := h.split
    rw [missingOf, hr, if_neg Bool.false_ne_true] at hextra
    cases hextra
    rw [List.append_nil] at hb
    rcases hmain with ⟨-, -, rfl⟩ | ⟨-, gs, bs, hgs, hbs, rfl⟩
    · exact restoreBlocks_members_ne _ _ block hb
    · exact (List.mem_append.mp hb).elim (hgs.members_ne block) (hbs.members_ne block)
  obtain ⟨member, hmem⟩ := List.exists_mem_of_ne_nil _ (realize_members_ne hmembers part hpart)
  refine ⟨member, h.sound.covers.members.mem_iff.mp (List.mem_flatMap.mpr ⟨part, hpart, hmem⟩), ?_⟩
  rw [hc.unique hs.carries]
  exact hs.members member hmem

/-- A cgroup with programs that no rebuild is under way for. -/
structure Settled (id : Identity) (w : World sha256) : Prop where
  attached : w.kernel.attached ≠ []
  quiet : (w.cache.get id).rebuilding = false

theorem Settled.planEntry (h : Settled id w) : (planEntry w id).rebuilding = false := by
  rw [V2.planEntry, if_neg h.attached]
  exact h.quiet

/-- A pass leaves it so, also one that fails. -/
theorem Settled.after {r : Except Error Unit} (hs : Settled id w) (hc : env.CalmFrom w.calls)
    (h : setRules env id rules w = (r, w')) : Settled id w' := by
  rcases setRules_inv hc h with hstop | ⟨⟨progs, blocks, drawn, hplan⟩, hpassed⟩
  · exact ⟨by rw [hstop.looked.kernel]; exact hs.attached,
      by rw [hstop.looked.cache]; exact hs.quiet⟩
  have hpassed := hpassed progs blocks drawn hplan
  refine ⟨?_, ?_⟩
  · obtain ⟨prog, hm⟩ := List.exists_mem_of_ne_nil _ hs.attached
    rcases hpassed.now.cover hplan.sound.covers hm with hm' | ⟨part, -, -, hst⟩
    · exact List.ne_nil_of_mem hm'
    · exact List.ne_nil_of_mem hst
  · rw [hpassed.cache, FilterCache.get_set, hs.planEntry]
    rfl

/-- **A pass brings nothing back** into a cgroup that is settled. -/
theorem Settled.pass (hs : Settled id w) (hc : env.CalmFrom w.calls)
    (h : setRules env id rules w = (.ok (), w')) :
    Settled id w' ∧ w.calls ≤ w'.calls ∧
      ∀ original, Present sha256 original w'.kernel.attached →
        Present sha256 original w.kernel.attached := by
  refine ⟨hs.after hc h, ?_⟩
  rcases setRules_inv hc h with hstop | ⟨⟨progs, blocks, drawn, hplan⟩, hpassed⟩
  · obtain ⟨e, he⟩ := hstop.error
    cases he
  have hpassed := hpassed progs blocks drawn hplan
  exact ⟨hpassed.calls, fun original hp => hplan.present_before hs.planEntry (hpassed.ok rfl).2 hp⟩

theorem Passes.present (h : Passes env id w w') (hs : Settled id w) (hc : env.CalmFrom w.calls)
    (hp : Present sha256 original w'.kernel.attached) :
    Present sha256 original w.kernel.attached := by
  induction h with
  | refl => exact hp
  | step rules hpass _ ih =>
    obtain ⟨hs', hcalls, hback⟩ := hs.pass hc hpass
    exact hback original (ih hs' (hc.mono hcalls) hp)

/-! ## The rebuild of an empty cgroup -/

theorem Target.insnCnt_le {lineage : CachedLineage sha256} {raw : Bytes}
    (h : Target rules lineage raw) : insnCnt lineage.original.raw ≤ insnCnt raw := by
  by_cases hr : rules = []
  · rw [Target, if_pos hr] at h
    exact Nat.le_of_eq (by rw [h])
  · obtain ⟨ms, -, hw⟩ := (h.wrapperOf hr).wraps
    have hlt := hw.length_lt
    unfold insnCnt
    omega

theorem RebuildBlocks.gate_ok {source : Nat → Except NonceError (BitVec 64)} {n n' : Nat}
    {cached : List (CachedLineage sha256)} (h : RebuildBlocks source rules n cached blocks n') :
    ∀ lineage ∈ cached, gate lineage.original.raw lineage.progMeta = .ok () := by
  induction h with
  | nil => nofun
  | bare _ hg _ ih =>
    intro lineage hm
    rcases List.mem_cons.mp hm with rfl | hm
    · exact hg
    · exact ih lineage hm
  | wrapped _ hg _ _ _ ih =>
    intro lineage hm
    rcases List.mem_cons.mp hm with rfl | hm
    · exact hg
    · exact ih lineage hm

/-- The lineage can be attached again. -/
structure CachedLineage.Loadable (env : Env) (lineage : CachedLineage sha256) : Prop where
  gate : gate lineage.original.raw lineage.progMeta = .ok ()
  fits : insnCnt lineage.original.raw ≤ env.insnLimit

/-- An empty cgroup is rebuilt only when every lineage can be attached again. -/
theorem rebuild_needs (hc : env.CalmFrom w.calls) (hempty : w.kernel.attached = [])
    (h : setRules env id rules w = (.ok (), w')) :
    ∀ lineage ∈ (w.cache.get id).lineages, lineage.Loadable env := by
  rcases setRules_inv hc h with hstop | ⟨⟨progs, blocks, drawn, hplan⟩, hpassed⟩
  · obtain ⟨e, he⟩ := hstop.error
    cases he
  have hfit := ((hpassed progs blocks drawn hplan).ok rfl).1
  have hnone : progs = [] := by
    have hclassified := hplan.classified
    rw [hempty] at hclassified
    exact (Except.ok.inj hclassified).symm
  subst hnone
  have htarget : ∀ {block : Block sha256} {load : Load}, block ∈ blocks →
      block.part.new = some load → Target rules block.lineage load.1 := fun hb hl =>
    hplan.blocks.accounts.target hb hl
  obtain ⟨main, extra, m, rfl, -, hextra⟩ := hplan.split
  have hmissing : missingOf (planEntry w id) [] = (w.cache.get id).lineages := by
    rw [missingOf, planEntry, if_pos hempty, if_pos rfl]
    exact missingLineages_nil _
  rw [hmissing] at hextra
  intro lineage hl
  obtain ⟨i, hi, rfl⟩ := List.mem_iff_getElem.mp hl
  have hall := List.forall₂_iff_get.mp hextra.attaches
  have hi' : i < extra.length := by rw [← hall.1]; exact hi
  obtain ⟨horiginal, load, hload⟩ := hall.2 i hi hi'
  have hb : extra[i] ∈ main ++ extra := List.mem_append_right _ (List.getElem_mem hi')
  have hnew : extra[i].part.new = some load := by
    have : extra[i].part = .attach load := hload
    rw [this]
    rfl
  refine ⟨hextra.gate_ok _ hl, ?_⟩
  have hle := (htarget hb hnew).insnCnt_le
  have hlim := hfit load (List.mem_flatMap.mpr ⟨_, hb, by simp [loadsOf, hnew]⟩)
  have horiginal : extra[i].lineage.original = (w.cache.get id).lineages[i].original := horiginal
  rw [horiginal] at hle
  omega

/-- The blocks of a rebuild for empty rules. -/
def bareRebuild (lineages : List (CachedLineage sha256)) : List (Block sha256) :=
  lineages.map fun lineage => ⟨lineage, .attach (lineage.original.raw, "")⟩

theorem addRebuild_bare (source : Nat → Except NonceError (BitVec 64)) (n : Nat)
    {lineages : List (CachedLineage sha256)}
    (h : ∀ lineage ∈ lineages, gate lineage.original.raw lineage.progMeta = .ok ()) :
    (∀ plan, addRebuild source plan lineages [] n =
        (.ok ((bareRebuild lineages).foldl PassPlan.add plan), n)) ∧
      RebuildBlocks source [] n lineages (bareRebuild lineages) n := by
  induction lineages with
  | nil => exact ⟨fun _ => rfl, .nil n⟩
  | cons lineage lineages ih =>
    have hg := h lineage List.mem_cons_self
    obtain ⟨hplan, hblocks⟩ := ih fun l hl => h l (List.mem_cons_of_mem _ hl)
    refine ⟨fun plan => ?_, .bare rfl hg hblocks⟩
    have hone : rebuildLineage source [] plan lineage n =
        (.ok ((plan.attach lineage.original.raw "").remember lineage), n) := by
      rw [rebuildLineage, hg]
      rfl
    rw [addRebuild, List.foldlM_cons, Action.bind_of_ok hone]
    exact hplan _

/-- An empty cgroup is rebuilt when every lineage can be attached again. -/
theorem rebuild_succeeds (hc : env.CalmFrom w.calls) (hf : env.FaultlessFrom w.calls)
    (hempty : w.kernel.attached = []) (hcached : (w.cache.get id).lineages ≠ [])
    (h : ∀ lineage ∈ (w.cache.get id).lineages, lineage.Loadable env) :
    ∃ w', setRules env id [] w = (.ok (), w') ∧
      ∀ lineage ∈ (w.cache.get id).lineages,
        Present sha256 lineage.original.raw w'.kernel.attached := by
  obtain ⟨hplan, hblocks⟩ := addRebuild_bare env.nonce w.drawn fun lineage hl => (h lineage hl).gate
  have hentry : planEntry w id = ⟨(w.cache.get id).lineages, true⟩ := by
    rw [planEntry, if_pos hempty]
  have hplanned : Planned env.nonce id [] w [] (bareRebuild (w.cache.get id).lineages) w.drawn := by
    refine ⟨by simp [hempty], fun hne => absurd hempty hne, fun _ => hcached,
      by rw [hempty]; rfl,
        ?_, ⟨[], _, w.drawn, rfl, .inl ⟨rfl, rfl, rfl⟩, .inl ⟨by rw [hentry], ?_⟩⟩⟩
    · rw [hentry, planPass_nil]
      exact hplan _
    · rw [hentry]
      show RebuildBlocks _ _ _ (missingLineages _ [] []) _ _
      rw [missingLineages_nil]
      exact hblocks
  have hfit : LoadsFit env (bareRebuild (w.cache.get id).lineages) := by
    intro load hl
    obtain ⟨block, hb, hload⟩ := List.mem_flatMap.mp hl
    obtain ⟨lineage, hlineage, rfl⟩ := List.mem_map.mp hb
    cases List.mem_singleton.mp hload
    exact (h lineage hlineage).fits
  obtain ⟨r, w', hrun⟩ := (setRules env id []).exists_run w
  rcases setRules_inv hc hrun with hstop | ⟨-, hpassed⟩
  · exact absurd hplanned (hstop.reason hf _ _ _)
  have hpassed := hpassed _ _ _ hplanned
  have hok := hpassed.complete hf hfit
  subst hok
  refine ⟨w', hrun, fun lineage hl => ?_⟩
  have hb : (⟨lineage, .attach (lineage.original.raw, "")⟩ : Block sha256) ∈
      bareRebuild (w.cache.get id).lineages := List.mem_map_of_mem hl
  exact hplanned.present_standins hb (hpassed.ok rfl).2

/-! ## Plans without a step -/

theorem keep_of_edits_nil {attached : List Prog} {id : Nat} {parts : List (Part Nat Load)}
    (h : edits (realize attached id parts) = []) :
    ∀ part ∈ parts, ∃ index, part = .keep index [] := by
  induction parts generalizing id with
  | nil => nofun
  | cons first parts ih =>
    rw [realize, edits_cons, List.append_eq_nil_iff] at h
    intro part hp
    rcases List.mem_cons.mp hp with rfl | hp
    · cases part with
      | keep index drops =>
        have hnone : (drops.map (fetch attached)).map Edit.detach = [] := h.1
        rw [List.map_eq_nil_iff, List.map_eq_nil_iff] at hnone
        exact ⟨index, by rw [hnone]⟩
      | swap old load drops => cases h.1
      | attach load => cases h.1
    · exact ih h.2 part hp

/-- A restore without a step has found originals only. -/
theorem restoreBlocks_keeps {groups : List (WrapperGroup sha256)}
    {available : List (AttachedProg sha256)}
    (h : ∀ block ∈ restoreBlocks groups available, block.Keeps) : groups = [] := by
  cases groups with
  | nil => rfl
  | cons group groups =>
    exfalso
    rw [restoreBlocks] at h
    split at h
    · obtain ⟨index, hpart⟩ := h _ List.mem_cons_self
      injection hpart with _ hdrops
      exact group.nonempty (List.map_eq_nil_iff.mp hdrops)
    · obtain ⟨index, hpart⟩ := h _ List.mem_cons_self
      cases hpart

theorem GrantBlocks.exists_group {groups : List (WrapperGroup sha256)}
    (h : GrantBlocks rules groups blocks) {block : Block sha256} (hb : block ∈ blocks) :
    ∃ group ∈ groups, block.lineage = group.lineage := by
  induction h with
  | nil => cases hb
  | cons hfirst _ ih =>
    obtain ⟨desired, -, rfl⟩ := hfirst
    rcases List.mem_cons.mp hb with rfl | hb
    · exact ⟨_, List.mem_cons_self, rfl⟩
    · obtain ⟨group, hg, heq⟩ := ih hb
      exact ⟨group, List.mem_cons_of_mem _ hg, heq⟩

/-- A plan without a step records the programs as they are. -/
theorem Planned.records (h : Planned env.nonce id rules w progs blocks drawn)
    (hmissing : missingOf (planEntry w id) progs = []) (hidle : edits (partsIn w blocks) = []) :
    (∀ lineage ∈ blocks.map Block.lineage, lineage.Loadable env) ↔
      ∀ prog ∈ progs, gate prog.original.raw prog.progMeta = .ok () ∧
        insnCnt prog.original.raw ≤ env.insnLimit := by
  have hkeeps : ∀ block ∈ blocks, block.Keeps := fun block hb =>
    keep_of_edits_nil hidle block.part (List.mem_map_of_mem hb)
  have howned : ∀ prog ∈ progs, prog.owned = true → gate prog.original.raw prog.progMeta = .ok () :=
    fun prog hp ho => ((classifyAll_fetch h.classified hp).2.owned ho).1
  have hshown : ∀ prog ∈ progs, ∃ block ∈ blocks, block.lineage.original.raw =
      prog.original.raw := by
    intro prog hp
    obtain ⟨hm, hc⟩ := classifyAll_fetch h.classified hp
    exact h.block_of_present ⟨_, hm, hc.carries⟩
  obtain ⟨main, extra, m, rfl, hmain, hextra⟩ := h.split
  rw [hmissing] at hextra
  cases hextra
  rw [List.append_nil] at hkeeps hshown ⊢
  have hg := grouping_groupWrappers progs
  rcases hmain with ⟨-, -, rfl⟩ | ⟨hr, gs, bs, hgs, hbs, rfl⟩
  · -- Originals only.
    have hnone := restoreBlocks_keeps hkeeps
    have hbare : progs.filter (!·.owned) = progs := by
      refine List.filter_eq_self.mpr fun prog hp => ?_
      cases ho : prog.owned with
      | false => rfl
      | true =>
        have := hg.members.mem_iff.mpr (List.mem_filter.mpr ⟨hp, ho⟩)
        rw [hnone] at this
        cases this
    rw [hnone, restoreBlocks, hbare, List.map_map]
    constructor
    · intro hload prog hp
      have := hload _ (List.mem_map_of_mem hp)
      exact ⟨this.gate, this.fits⟩
    · intro hload lineage hl
      obtain ⟨prog, hp, rfl⟩ := List.mem_map.mp hl
      exact ⟨(hload prog hp).1, (hload prog hp).2⟩
  · -- Wrappers only.
    have hnone : progs.filter (!·.owned) = [] ∧ bs = [] := by
      generalize progs.filter (!·.owned) = bares at hbs
      cases hbs with
      | nil => exact ⟨rfl, rfl⟩
      | cons _ _ _ _ =>
        obtain ⟨index, hpart⟩ := hkeeps _ (List.mem_append_right _ List.mem_cons_self)
        cases hpart
    obtain ⟨hfilter, rfl⟩ := hnone
    rw [List.append_nil] at hshown ⊢
    have hbare : ∀ prog ∈ progs, prog.owned = true := fun prog hp => by
      simpa using List.filter_eq_nil_iff.mp hfilter prog hp
    constructor
    · intro hload prog hp
      obtain ⟨block, hb, heq⟩ := hshown prog hp
      exact ⟨howned prog hp (hbare prog hp), heq ▸ (hload _ (List.mem_map_of_mem hb)).fits⟩
    · intro hload lineage hl
      have hgroup : ∃ group ∈ (groupWrappers progs).1, lineage = group.lineage := by
        obtain ⟨block, hb, rfl⟩ := List.mem_map.mp hl
        exact hgs.exists_group hb
      obtain ⟨group, hgr, rfl⟩ := hgroup
      obtain ⟨prog, hp, hmeta⟩ := groupWrappers_progMeta progs group hgr
      have hin := (List.mem_filter.mp (hg.members.mem_iff.mp
        (List.mem_flatMap.mpr ⟨group, hgr, hp⟩))).1
      obtain ⟨-, horiginal⟩ := Prod.mk.inj (hg.key_eq group hgr prog hp)
      have hp' := hload prog hin
      rw [horiginal, hmeta] at hp'
      exact ⟨hp'.1, hp'.2⟩

end Pass

/-! ## Recovering -/

section Recover

variable {env : Env} {id : Identity} {rules : List DeviceRule} {w w' : World sha256} {later : Nat}
  {progs : List (AttachedProg sha256)} {blocks : List (Block sha256)}

theorem Interrupted.present_iff (h : Interrupted env id rules later w w' progs blocks)
    (original : Bytes) : Present sha256 original w'.kernel.attached ↔
      ∃ survivor ∈ survivors (missingOf (planEntry w id) progs) later,
        survivor.original.raw = original := by
  have hall := List.forall₂_iff_get.mp h.attached
  constructor
  · rintro ⟨prog, hm, hc⟩
    obtain ⟨i, hi, rfl⟩ := List.mem_iff_getElem.mp hm
    have hi' : i < (survivors (missingOf (planEntry w id) progs) later).length := by
      rw [hall.1]; exact hi
    exact ⟨_, List.getElem_mem hi', (hall.2 i hi' hi).unique hc⟩
  · rintro ⟨survivor, hm, rfl⟩
    obtain ⟨i, hi, rfl⟩ := List.mem_iff_getElem.mp hm
    have hi' : i < w'.kernel.attached.length := by rw [← hall.1]; exact hi
    exact ⟨_, List.getElem_mem hi', hall.2 i hi hi'⟩

theorem Interrupted.attached_nil_iff (h : Interrupted env id rules later w w' progs blocks)
    (hduring : 0 < later) :
    w'.kernel.attached = [] ↔ missingOf (planEntry w id) progs = [] := by
  have hlen := h.attached.length_eq
  unfold survivors at hlen
  rw [List.length_drop] at hlen
  rw [← List.length_eq_zero_iff, ← List.length_eq_zero_iff, ← hlen]
  omega

end Recover

/-- **When a rebuild survives a wipe.** `later` kernel calls of the pass follow the wipe. What was
in the cache is attached again after some later passes exactly when the lineages attached after the
wipe have all its originals, or when nothing was missing and every program found can be attached
again. -/
theorem setRules_wiped_recovers (env : Env) (id : Identity) (rules : List DeviceRule)
    (w w' : World sha256) (moment later : Nat) (progs : List (AttachedProg sha256))
    (hwiped : env.WipedAt w.calls moment) (hfaultless : env.FaultlessFrom w.calls)
    (hrebuild : w.kernel.attached = [] ∨ (w.cache.get id).rebuilding = true)
    (hclassified : classifyAll 0 w.kernel.attached = .ok progs)
    (hok : setRules env id rules w = (.ok (), w')) (hfirst : w.calls < moment)
    (hlater : moment + later = w'.calls) (hduring : 0 < later) :
    (∃ w'', Passes env id w' w'' ∧ ∀ lineage ∈ (w.cache.get id).lineages,
        ∃ prog ∈ w''.kernel.attached, prog.Carries sha256 lineage.original.raw) ↔
      (∀ lineage ∈ (w.cache.get id).lineages,
        ∃ survivor ∈ survivors (missingOf (planEntry w id) progs) later,
          survivor.original.raw = lineage.original.raw) ∨
      missingOf (planEntry w id) progs = [] ∧ ∀ prog ∈ progs,
        gate prog.original.raw prog.progMeta = .ok () ∧
          insnCnt prog.original.raw ≤ env.insnLimit := by
  obtain ⟨progs', blocks, drawn, hplan, hinterrupted⟩ :=
    setRules_wiped hwiped hfirst hok hlater hduring
  obtain rfl : progs = progs' := Except.ok.inj (hclassified.symm.trans hplan.classified)
  have hcalm : env.CalmFrom w'.calls := (hwiped.mono (by omega)).calm (by omega)
  have hentry : w'.cache.get id = ⟨blocks.map Block.lineage, false⟩ := by
    rw [hinterrupted.cache, FilterCache.get_set]
  have hnil := hinterrupted.attached_nil_iff hduring
  constructor
  · rintro ⟨w'', hpasses, hall⟩
    by_cases hmissing : missingOf (planEntry w id) progs = []
    · have hempty := hnil.mpr hmissing
      cases hpasses with
      | refl =>
        refine .inl fun lineage hl => ?_
        obtain ⟨prog, hp, -⟩ := hall lineage hl
        rw [hempty] at hp
        cases hp
      | step rules' hpass _ =>
        have hneeds := rebuild_needs hcalm hempty hpass
        rw [hentry] at hneeds
        exact .inr ⟨hmissing, (hplan.records hmissing (hinterrupted.idle hmissing)).mp hneeds⟩
    · have hsettled : Settled id w' := ⟨fun h => hmissing (hnil.mp h), by rw [hentry]⟩
      exact .inl fun lineage hl => (hinterrupted.present_iff _).mp
        (hpasses.present hsettled hcalm (hall lineage hl))
  · rintro (hall | ⟨hmissing, hload⟩)
    · exact ⟨w', .refl _, fun lineage hl => (hinterrupted.present_iff _).mpr (hall lineage hl)⟩
    · have hneeds := (hplan.records hmissing (hinterrupted.idle hmissing)).mpr hload
      obtain ⟨w'', hpass, hall⟩ := @rebuild_succeeds _ env id w' hcalm (hfaultless.mono (by omega))
        (hnil.mpr hmissing) (by rw [hentry]; simpa using hplan.blocks_ne_nil)
        (by rw [hentry]; exact hneeds)
      refine ⟨w'', .step [] hpass (.refl _), fun lineage hl => ?_⟩
      have hhas : (planEntry w id).Has lineage.original.raw ∧ (planEntry w id).rebuilding = true :=
        planEntry_has.mpr ⟨⟨lineage, hl, rfl⟩, hrebuild⟩
      obtain ⟨block, hb, heq⟩ := hplan.exists_block (.inr hhas)
      rw [← heq]
      exact hall _ (by rw [hentry]; exact List.mem_map_of_mem hb)

/-- The program `mov32 r0, 1; exit`: everything is allowed. -/
def allowAll : Bytes :=
  [0xb4, 0, 0, 0, 1, 0, 0, 0, 0x95, 0, 0, 0, 0, 0, 0, 0]

theorem allowAll_canonical : CanonicalProgram allowAll :=
  ⟨[.alu32Imm Alu.mov r0 1, .exit], by decide, by decide, by decide⟩

theorem allowAll_bare (sha256 : Bytes → Vector Byte 32) : parseOwned sha256 allowAll = .ok none :=
  rfl

/-- A wiped cgroup that had two filters. -/
def twoWorld : World sampleSha256 where
  kernel := ⟨[], 0, 0, List.nodup_nil, Kernel.known_nil⟩
  replace := .unknown
  cache := fun _ => some ⟨[⟨0, ⟨denyAll, denyAll_canonical, denyAll_bare _⟩, ⟨true, 0⟩⟩,
    ⟨0, ⟨allowAll, allowAll_canonical, allowAll_bare _⟩, ⟨true, 0⟩⟩], false⟩
  calls := 0
  drawn := 0
  log := []

/-- Call 0 of a rebuild of two lineages is the query, 1 and 2 are loads, 3 and 4 attach. -/
def wipedEnv (moment : Nat) : Env := { quietEnv with wiped := fun n => n = moment }

theorem wipedEnv_wipedAt (first moment : Nat) : (wipedEnv moment).WipedAt first moment := fun _ _ =>
  decide_eq_true_iff

/-- A wipe right before the first attach does no harm. -/
theorem setRules_wiped_recovers_early :
    ∃ w', setRules (wipedEnv 3) sampleId [] twoWorld = (.ok (), w') ∧
      ∃ w'', Passes (wipedEnv 3) sampleId w' w'' ∧
        ∀ lineage ∈ (twoWorld.cache.get sampleId).lineages,
          ∃ prog ∈ w''.kernel.attached, prog.Carries sampleSha256 lineage.original.raw := by
  obtain ⟨r, w', h⟩ := (setRules (wipedEnv 3) sampleId []).exists_run twoWorld
  have hruns : ∀ p, setRules (wipedEnv 3) sampleId [] twoWorld = p →
      p.1.isOk = true ∧ p.2.calls = 5 := by
    rintro p rfl
    decide +kernel
  obtain ⟨hok, hcalls⟩ := hruns _ h
  cases r with
  | error e => cases hok
  | ok =>
    refine ⟨w', h, (setRules_wiped_recovers (wipedEnv 3) sampleId [] twoWorld w' 3 2 []
      (wipedEnv_wipedAt _ _) (fun _ _ => rfl) (.inl rfl) rfl h (by decide) hcalls.symm
      (by decide)).mpr (.inl fun lineage hl => ⟨lineage, hl, rfl⟩)⟩

/-- **A wipe between the two attaches loses the first filter for good**, although every call
succeeds. -/
theorem setRules_wiped_loses :
    ∃ w', setRules (wipedEnv 4) sampleId [] twoWorld = (.ok (), w') ∧ 4 < w'.calls ∧
      (∃ lineage ∈ (twoWorld.cache.get sampleId).lineages, lineage.original.raw = denyAll) ∧
      ∀ w'', Passes (wipedEnv 4) sampleId w' w'' →
        ¬ ∃ prog ∈ w''.kernel.attached, prog.Carries sampleSha256 denyAll := by
  obtain ⟨r, w', h⟩ := (setRules (wipedEnv 4) sampleId []).exists_run twoWorld
  have hruns : ∀ p, setRules (wipedEnv 4) sampleId [] twoWorld = p →
      p.1.isOk = true ∧ p.2.calls = 5 ∧ p.2.kernel.attached = [newProg 1 allowAll] ∧
        (p.2.cache.get sampleId).rebuilding = false := by
    rintro p rfl
    decide +kernel
  obtain ⟨hok, hcalls, hnow, hquiet⟩ := hruns _ h
  have hnow : w'.kernel.attached = [newProg 1 allowAll] := hnow
  have hcalls : w'.calls = 5 := hcalls
  cases r with
  | error e => cases hok
  | ok =>
    refine ⟨w', h, by omega, ⟨_, List.mem_cons_self, rfl⟩, fun w'' hpasses hpresent => ?_⟩
    have hsettled : Settled sampleId w' := ⟨by rw [hnow]; exact List.cons_ne_nil _ _, hquiet⟩
    have hcalm : (wipedEnv 4).CalmFrom w'.calls :=
      (wipedEnv_wipedAt _ _).calm (by omega)
    obtain ⟨prog, hm, hc⟩ := hpasses.present hsettled hcalm hpresent
    rw [hnow] at hm
    rw [List.mem_singleton.mp hm] at hc
    have hallow : (newProg 1 allowAll).Carries sampleSha256 allowAll :=
      ⟨allowAll, newProg_shows allowAll_canonical 1, .bare (allowAll_bare _)⟩
    exact absurd (hc.unique hallow) (by decide)

end V2
end Sda
