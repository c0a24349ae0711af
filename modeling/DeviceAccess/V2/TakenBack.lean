import DeviceAccess.V2.Recovery

/-!
# Taking a grant back

A grant in a cgroup with originals only wraps each of them under a nonce of its own. A pass for
empty rules finds these wrappers again and leaves their originals, one for each lineage
(`Planned.restore_after`), provided it recognises them. It does exactly when the rules the wrappers
keep have numbers below 2^31: the builder takes numbers up to 2^32 - 1, but a number is
sign-extended when it is read back, and the wrapper of a larger one is taken for a conflict.
-/

namespace Sda
namespace V2

open Asm Sda.Filter Handover

variable {sha256 : Bytes → Vector Byte 32}

section TakenBack

variable {env : Env} {id : Identity} {rules : List DeviceRule} {w w₁ : World sha256}
  {progs : List (AttachedProg sha256)} {blocks : List (Block sha256)} {drawn : Nat}

/-! ## A grant for originals -/

theorem BareBlocks.loads {source : Nat → Except NonceError (BitVec 64)} {n n' : Nat}
    {bares : List (AttachedProg sha256)} (h : BareBlocks source rules n bares blocks n') :
    ∀ block ∈ blocks, ∃ load, block.part.new = some load := by
  induction h with
  | nil => nofun
  | cons _ _ _ _ ih =>
    intro block hb
    rcases List.mem_cons.mp hb with rfl | hb
    · exact ⟨_, rfl⟩
    · exact ih block hb

/-- Every block of a grant for originals loads a wrapper. -/
theorem Planned.bare_loads (h : Planned env.nonce id rules w progs blocks drawn) (hr : rules ≠ [])
    (hbare : ∀ prog ∈ progs, prog.owned = false) :
    ∀ block ∈ blocks, ∃ load, block.part.new = some load := by
  obtain ⟨grants, bares, extra, m, rfl, hgrants, hbares, hextra⟩ := h.split_grant hr
  rw [groups_nil hbare] at hgrants
  cases hgrants
  intro block hb
  rw [List.nil_append] at hb
  rcases List.mem_append.mp hb with hb | hb
  · exact hbares.loads block hb
  · obtain ⟨lineage, -, -, load, hload⟩ := forall₂_exists_left hextra.attaches hb
    exact ⟨load, by rw [hload]; rfl⟩

/-- The keys of a grant for originals: a new one for each of them, and those of the missing
lineages. -/
theorem Planned.bare_keys (h : Planned env.nonce id rules w progs blocks drawn) (hr : rules ≠ [])
    (hbare : ∀ prog ∈ progs, prog.owned = false)
    (hf : FreshNonces env.nonce (noncesInUse w.kernel.attached (w.cache.get id)) w.drawn drawn) :
    ∃ fresh again : List Key, blocks.map (·.lineage.key) = fresh ++ again ∧
      List.Forall₂ (fun bare key => key.2 = AttachedProg.raw bare) progs fresh ∧ fresh.Nodup ∧
      (∀ key ∈ again, key ∉ fresh) ∧
      again.length = (missingOf (planEntry w id) progs).length := by
  obtain ⟨grants, bares, extra, m, rfl, hgrants, hbares, hextra⟩ := h.split_grant hr
  rw [groups_nil hbare] at hgrants
  cases hgrants
  have hfilter : progs.filter (!·.owned) = progs :=
    List.filter_eq_self.mpr fun prog hp => by rw [hbare prog hp]; rfl
  rw [hfilter] at hbares
  obtain ⟨hle, hagain⟩ := hextra.keys hr
  obtain ⟨hkeys, -⟩ := hbares.keys hbare
  obtain ⟨hle', hnodup, hdrawn⟩ := hbares.distinct (hf.mono (Nat.le_refl _) hle)
  refine ⟨_, _, by rw [List.nil_append, List.map_append], hkeys, hnodup, fun key hk hin => ?_,
    hagain.length_eq.symm⟩
  -- The nonce of a missing lineage is in use, or it is drawn later.
  obtain ⟨j, hj, hsource, hd⟩ : ∃ j, w.drawn ≤ j ∧ env.nonce j = .ok key.1 ∧ j < m := by
    obtain ⟨j, h₁, h₂, hs⟩ := hdrawn key hin
    exact ⟨j, h₁, hs, h₂⟩
  obtain ⟨lineage, hl, -, hnonce⟩ := forall₂_exists_left hagain hk
  unfold AgainNonce at hnonce
  split at hnonce
  · obtain ⟨k, h₁, h₂, hs⟩ := hnonce
    exact hf.distinct j k _ hj (by omega) h₂ hsource hs
  · rename_i h0
    have hmem := (missingOf_sublist w id progs).subset hl
    refine hf.unused j _ hj (by omega) hsource
      (List.mem_append_right _ (List.mem_filter.mpr ⟨?_, ?_⟩))
    · rw [hnonce]
      exact List.mem_map_of_mem hmem
    · rw [hnonce]
      simpa using h0

/-! ## The pass for empty rules -/

theorem restoreBlocks_nil_keys (groups : List (WrapperGroup sha256)) :
    (restoreBlocks groups []).map (·.lineage.key) = groups.map WrapperGroup.key := by
  induction groups with
  | nil => rfl
  | cons group groups ih =>
    rw [restoreBlocks, List.find?_nil, List.map_cons, List.map_cons, ih]
    rfl

/-- The plan for empty rules, when the wrappers of a grant are recognised. -/
theorem Planned.restore_after (h : Planned env.nonce id rules w progs blocks drawn)
    (hr : rules ≠ []) (hbare : ∀ prog ∈ progs, prog.owned = false) {rebuilding : Bool}
    (hpassed : Passed env id blocks rebuilding drawn (.ok ()) w w₁)
    (hsmall : ∀ rule ∈ keptRules rules, rule.SmallNumbers) :
    ∃ found blocks', Planned env.nonce id [] w₁ found blocks' w₁.drawn ∧ LoadsFit env blocks' ∧
      (blocks'.map (·.lineage.key)).Perm (blocks.map (·.lineage.key)).dedup := by
  obtain ⟨hfit, hafter⟩ := hpassed.ok rfl
  have hne := h.attached_ne_nil hafter
  have hquiet : (planEntry w₁ id).rebuilding = false := by
    rw [planEntry, if_neg hne, hpassed.cache, FilterCache.get_set]
    exact Bool.and_false _
  obtain ⟨found, hf, hwrapper, hkeys⟩ :=
    h.finds_wrappers hr hafter (h.loads_recognised hr hsmall hfit)
  have hg := grouping_groupWrappers found
  have hnone : (groupWrappers found).2 = [] := by
    rw [hg.bares_eq]
    exact List.filter_eq_nil_iff.mpr fun prog hp => by simp [(hwrapper prog hp).1]
  have hplan : planPass env.nonce (planEntry w₁ id) found [] w₁.drawn =
      (.ok (planOf (restoreBlocks (groupWrappers found).1 (groupWrappers found).2)), w₁.drawn) := by
    refine planPass_of_rules hquiet ?_
    rw [planRules, if_pos rfl, planRestore_eq]
    rfl
  have hplanned : Planned env.nonce id [] w₁ found
      (restoreBlocks (groupWrappers found).1 (groupWrappers found).2) w₁.drawn :=
    ⟨h.accessible_after hafter, hpassed.multi, fun he => absurd he hne, hf, hplan,
      ⟨_, [], _, (List.append_nil _).symm, .inl ⟨rfl, rfl, rfl⟩, .inr ⟨hquiet, rfl, rfl⟩⟩⟩
  have hperm : ((restoreBlocks (groupWrappers found).1 (groupWrappers found).2).map
      (·.lineage.key)).Perm (blocks.map (·.lineage.key)).dedup := by
    rw [hnone, restoreBlocks_nil_keys]
    refine (groups_keys found).trans ?_
    rw [List.filter_eq_self.mpr fun prog hp => (hwrapper prog hp).1]
    exact (List.perm_ext_iff_of_nodup (List.nodup_dedup _) (List.nodup_dedup _)).mpr fun key => by
      rw [List.mem_dedup, List.mem_dedup]; exact hkeys.mem_iff
  refine ⟨found, _, hplanned, ?_, hperm⟩
  intro load hl
  obtain ⟨block, hb, hload⟩ := List.mem_flatMap.mp hl
  have htarget := hplanned.blocks.accounts.target hb (Option.mem_toList.mp hload)
  rw [Target, if_pos rfl] at htarget
  -- The wrapper of the original was loaded before.
  obtain ⟨block', hb', hkey⟩ := List.mem_map.mp
    (List.mem_dedup.mp (hperm.mem_iff.mp (List.mem_map_of_mem hb)))
  obtain ⟨load', hl'⟩ := h.bare_loads hr hbare block' hb'
  have hle := (h.blocks.accounts.target hb' hl').insnCnt_le
  have hlim := hfit load' (List.mem_flatMap.mpr ⟨block', hb', by simp [loadsOf, hl']⟩)
  have horiginal : block'.lineage.original.raw = block.lineage.original.raw := (Prod.mk.inj hkey).2
  rw [htarget, ← horiginal]
  omega

/-- What the two passes leave, when the wrappers are recognised. -/
theorem Planned.taken_back (h : Planned env.nonce id rules w progs blocks drawn) (hr : rules ≠ [])
    (hbare : ∀ prog ∈ progs, prog.owned = false) {rebuilding : Bool}
    (hpassed : Passed env id blocks rebuilding drawn (.ok ()) w w₁) (hcalm : env.CalmFrom w₁.calls)
    (hfaultless : env.FaultlessFrom w₁.calls)
    (hsmall : ∀ rule ∈ keptRules rules, rule.SmallNumbers) :
    ∃ w₂, setRules env id [] w₁ = (.ok (), w₂) ∧ (w₂.kernel.attached.map Prog.bytes).Perm
      ((blocks.map (·.lineage.key)).dedup.map (some ·.2)) := by
  obtain ⟨found, blocks', hplan, hfit, hkeys⟩ := h.restore_after hr hbare hpassed hsmall
  obtain ⟨r, w₂, hrun⟩ := (setRules env id []).exists_run w₁
  rcases setRules_inv hcalm hrun with hstop | ⟨-, hpassed'⟩
  · exact absurd hplan (hstop.reason hfaultless _ _ _)
  have hpassed' := hpassed' _ _ _ hplan
  have hok := hpassed'.complete hfaultless hfit
  subst hok
  refine ⟨w₂, hrun, ?_⟩
  have hbytes := (hpassed'.ok rfl).2.map Prog.bytes
  rw [hplan.standin_bytes] at hbytes
  refine hbytes.trans (List.Perm.trans (.of_eq ?_) (hkeys.map (some ·.2)))
  rw [List.map_map]
  exact List.map_congr_left fun block _ => rfl

end TakenBack

/-- **When a grant can be taken back.** The cgroup has originals only and the nonces drawn are new.
The pass for empty rules leaves what was there before exactly when the rules that are kept have
numbers below 2^31 and the grant had no lineage to attach again. -/
theorem setRules_taken_back (env : Env) (id : Identity) (rules : List DeviceRule)
    (w w₁ : World sha256) (progs : List (AttachedProg sha256)) (hcalm : env.CalmFrom w.calls)
    (hne : w.kernel.attached ≠ []) (hclassified : classifyAll 0 w.kernel.attached = .ok progs)
    (hbare : ∀ prog ∈ progs, prog.owned = false ∧ gate prog.raw prog.progMeta = .ok ())
    (hrules : rules ≠ [])
    (hfresh : FreshNonces env.nonce (noncesInUse w.kernel.attached (w.cache.get id))
      w.drawn w₁.drawn)
    (hok : setRules env id rules w = (.ok (), w₁)) (hfaultless : env.FaultlessFrom w₁.calls) :
    ((∃ w₂, setRules env id [] w₁ = (.ok (), w₂) ∧
        (w₂.kernel.attached.map Prog.bytes).Perm (w.kernel.attached.map Prog.bytes)) ∧
      ∀ prog ∈ w₁.kernel.attached, ∀ raw, prog.bytes = some raw →
        ∃ found, parseOwned sha256 raw = .ok found) ↔
    (∀ rule ∈ keptRules rules, rule.SmallNumbers) ∧ missingOf (w.cache.get id) progs = [] := by
  rcases setRules_inv hcalm hok with hstop | ⟨⟨progs', blocks, drawn, hplan⟩, hpassed⟩
  · obtain ⟨e, he⟩ := hstop.error
    cases he
  obtain rfl : progs = progs' := Except.ok.inj (hclassified.symm.trans hplan.classified)
  have hpassed := hpassed progs blocks drawn hplan
  have hentry : planEntry w id = w.cache.get id := by rw [planEntry, if_neg hne]
  rw [hpassed.drawn] at hfresh
  have hbare := fun prog hp => (hbare prog hp).1
  obtain ⟨hfit, hafter⟩ := hpassed.ok rfl
  obtain ⟨fresh, again, hkeys, hraws, hnodup, hnew, hlen⟩ := hplan.bare_keys hrules hbare hfresh
  rw [hentry] at hlen
  have hbefore : w.kernel.attached.map Prog.bytes = fresh.map (some ·.2) := by
    have hshown : w.kernel.attached.map Prog.bytes = progs.map (some ·.raw) :=
      forall₂_map_eq ((classifyAll_ok hclassified).imp fun _ _ hc => hc.raw)
    rw [hshown]
    exact forall₂_map_eq (hraws.imp fun _ _ hraw => congrArg some hraw.symm)
  have hback := fun hsmall => hplan.taken_back hrules hbare hpassed (hcalm.mono hpassed.calls)
    hfaultless hsmall
  rw [hkeys] at hback
  constructor
  · rintro ⟨⟨w₂, hrun, hperm⟩, hclear⟩
    have hsmall : ∀ rule ∈ keptRules rules, rule.SmallNumbers := by
      -- The wrapper of any of the originals is recognised.
      obtain ⟨block, hb⟩ := List.exists_mem_of_ne_nil _ hplan.blocks_ne_nil
      obtain ⟨load, hl⟩ := hplan.bare_loads hrules hbare block hb
      obtain ⟨part, hpart, hs⟩ := hplan.stands_block hb
      obtain ⟨raw, hraw, ht, -⟩ := hs.standin
      have hclear := hclear part.standin (hafter.mem_iff.mpr (List.mem_map_of_mem hpart)) raw hraw
      have hlim := hfit load (List.mem_flatMap.mpr ⟨block, hb, by simp [loadsOf, hl]⟩)
      have hsame : raw = load.1 := by
        have := ht.bytes.symm.trans (hplan.blocks.accounts.target hb hl).bytes
        exact Option.some.inj this
      rw [hsame] at hclear
      exact ((hplan.blocks.accounts.target hb hl).recognised_iff hrules
        (Nat.lt_of_le_of_lt hlim env.insnLimit_lt)).mp hclear
    refine ⟨hsmall, ?_⟩
    obtain ⟨w₂', hrun', hperm'⟩ := hback hsmall
    rw [hrun] at hrun'
    cases hrun'
    cases hlist : again with
    | nil =>
      rw [hlist] at hlen
      exact List.length_eq_zero_iff.mp hlen.symm
    | cons key rest =>
      exfalso
      rw [hbefore] at hperm
      have hcount := (hperm'.symm.trans hperm).length_eq
      rw [List.length_map, List.length_map] at hcount
      have hmore : (fresh ++ [key]).Nodup := List.nodup_append'.mpr
        ⟨hnodup, List.nodup_singleton key, List.disjoint_singleton.mpr
          (hnew key (by rw [hlist]; exact List.mem_cons_self))⟩
      have hsub : (fresh ++ [key]) ⊆ (fresh ++ again).dedup := by
        intro k hk
        rw [List.mem_dedup, hlist]
        rcases List.mem_append.mp hk with hk | hk
        · exact List.mem_append_left _ hk
        · rw [List.mem_singleton.mp hk]
          exact List.mem_append_right _ List.mem_cons_self
      have hle := (List.subperm_of_subset hmore hsub).length_le
      rw [List.length_append, List.length_singleton] at hle
      omega
  · rintro ⟨hsmall, hmissing⟩
    rw [hmissing, List.length_nil] at hlen
    obtain ⟨w₂, hrun, hperm⟩ := hback hsmall
    rw [List.length_eq_zero_iff.mp hlen, List.append_nil, hnodup.dedup] at hperm
    refine ⟨⟨w₂, hrun, by rw [hbefore]; exact hperm⟩, fun prog hp raw hraw => ?_⟩
    obtain ⟨part, hpart, rfl⟩ := List.mem_map.mp (hafter.mem_iff.mp hp)
    obtain ⟨block, hb, hs⟩ := hplan.stands_part hpart
    obtain ⟨raw', rules', hraw', -, hparse, -⟩ := hplan.standin_wrapper hrules
      (hplan.loads_recognised hrules hsmall hfit) hb hpart hs
    obtain ⟨owned, howned, -⟩ := parseOwned_of_innermost_some hparse
    have hsame : raw' = raw := Option.some.inj (hraw'.symm.trans hraw)
    exact ⟨_, hsame ▸ howned⟩

private theorem denyAll_gate : gate denyAll ⟨true, 0⟩ = .ok () := by
  have hok : (gate denyAll ⟨true, 0⟩).isOk = true := by decide +kernel
  cases h : gate denyAll ⟨true, 0⟩ with
  | ok => rfl
  | error e => rw [h] at hok; cases hok

/-- The grant of one device is taken back. -/
theorem setRules_taken_back_denyWorld :
    ∃ w₁ w₂, setRules quietEnv sampleId [tunRule] denyWorld = (.ok (), w₁) ∧
      setRules quietEnv sampleId [] w₁ = (.ok (), w₂) ∧
      (w₂.kernel.attached.map Prog.bytes).Perm (denyWorld.kernel.attached.map Prog.bytes) := by
  obtain ⟨r, w₁, h⟩ := (setRules quietEnv sampleId [tunRule]).exists_run denyWorld
  have hruns : ∀ p, setRules quietEnv sampleId [tunRule] denyWorld = p →
      p.1.isOk = true ∧ p.2.drawn = 1 := by
    rintro p rfl
    decide +kernel
  obtain ⟨hok, hdrawn⟩ := hruns _ h
  have hused : noncesInUse denyWorld.kernel.attached (denyWorld.cache.get sampleId) = [] := by
    decide +kernel
  cases r with
  | error e => cases hok
  | ok =>
    obtain ⟨⟨w₂, hrun, hperm⟩, -⟩ := (setRules_taken_back quietEnv sampleId [tunRule] denyWorld w₁
      [⟨0, denyAll, ⟨true, 0⟩, false, 0, ⟨denyAll, denyAll_canonical, denyAll_bare _⟩,
        fun _ => rfl⟩]
      (fun _ _ => rfl) (List.cons_ne_nil _ _) rfl
      (fun prog hp => by rw [List.mem_singleton.mp hp]; exact ⟨rfl, denyAll_gate⟩)
      (List.cons_ne_nil _ _) (by
        rw [hused, show w₁.drawn = 1 from hdrawn]
        exact ⟨fun _ _ _ _ _ => List.not_mem_nil, fun j k _ _ _ _ => by omega⟩)
      h (fun _ _ => rfl)).mpr ⟨fun rule hr => by
        rw [List.mem_singleton.mp (mem_of_keptRules hr)]; exact tunRule_small, rfl⟩
    exact ⟨w₁, w₂, h, hrun, hperm⟩

/-- A rule for a major number that needs the 32nd bit. -/
def bigRule : DeviceRule := ⟨true, "c", some 2147483648, some 0, "rwm"⟩

/-- **A grant that cannot be taken back**: the builder takes the rule, and the wrapper is a
conflict. -/
theorem setRules_bigRule_stuck :
    ∃ w₁ w₂ e, setRules quietEnv sampleId [bigRule] denyWorld = (.ok (), w₁) ∧
      setRules quietEnv sampleId [] w₁ = (.error e, w₂) ∧
      ∃ prog ∈ w₁.kernel.attached, ∃ raw, prog.bytes = some raw ∧
        ∀ found, parseOwned sampleSha256 raw ≠ .ok found := by
  obtain ⟨r, w₁, h⟩ := (setRules quietEnv sampleId [bigRule]).exists_run denyWorld
  obtain ⟨r', w₂, h'⟩ := (setRules quietEnv sampleId []).exists_run w₁
  have hruns : ∀ p q, setRules quietEnv sampleId [bigRule] denyWorld = p →
      setRules quietEnv sampleId [] p.2 = q →
      p.1.isOk = true ∧ q.1.isOk = false ∧ (p.2.kernel.attached.any fun prog =>
        prog.bytes.any fun raw => !(parseOwned sampleSha256 raw).isOk) = true := by
    rintro p q rfl rfl
    decide +kernel
  obtain ⟨hok, hok', hconflict⟩ := hruns _ _ h h'
  cases r with
  | error e => cases hok
  | ok =>
    cases r' with
    | ok => cases hok'
    | error e =>
      obtain ⟨prog, hp, hprog⟩ := List.any_eq_true.mp hconflict
      refine ⟨w₁, w₂, e, h, h', prog, hp, ?_⟩
      cases hraw : prog.bytes with
      | none =>
        rw [hraw] at hprog
        cases hprog
      | some raw =>
        refine ⟨raw, rfl, fun found hf => ?_⟩
        rw [hraw, Option.any_some, hf] at hprog
        cases hprog

end V2
end Sda
