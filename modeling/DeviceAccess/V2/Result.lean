import DeviceAccess.V2.Programs
import Mathlib.Data.List.Dedup

/-!
# What a successful pass leaves attached

When a pass for non-empty rules ends without an error, the attached programs are the wrappers
`emitOwned rules n o`, one for each lineage that was attached, for each bare program and for each
lineage a rebuild missed. When the rules are empty, they are the originals themselves: what was bare
stays, and a wrapper lineage gives back its original unless a bare copy of it is there already.
-/

namespace Sda
namespace V2

open Asm Sda.Filter Handover

variable {sha256 : Bytes → Vector Byte 32}

/-- The wrapper of a lineage. -/
def wrapperBytes (sha256 : Bytes → Vector Byte 32) (rules : List DeviceRule) (key : Key) :
    Option Bytes :=
  (emitOwned sha256 rules key.1 key.2).toOption

/-- The program that stands for a lineage. -/
def targetBytes (rules : List DeviceRule) (lineage : CachedLineage sha256) : Option Bytes :=
  if rules = [] then some lineage.original.raw else wrapperBytes sha256 rules lineage.key

theorem Target.bytes {rules : List DeviceRule} {lineage : CachedLineage sha256} {raw : Bytes}
    (h : Target rules lineage raw) : targetBytes rules lineage = some raw := by
  unfold Target at h
  unfold targetBytes
  split at h
  · rename_i hr; rw [if_pos hr, h]
  · rename_i hr
    rw [if_neg hr, wrapperBytes, CachedLineage.key, h]
    rfl

section Planned

variable {source : Nat → Except NonceError (BitVec 64)} {id : Identity} {rules : List DeviceRule}
  {w : World sha256} {progs : List (AttachedProg sha256)} {blocks : List (Block sha256)}
  {drawn : Nat}

/-- The stand-ins of a plan are the programs its lineages ask for. -/
theorem Planned.standin_bytes (h : Planned source id rules w progs blocks drawn) :
    ((partsIn w blocks).map Part.standin).map Prog.bytes =
      blocks.map fun block => targetBytes rules block.lineage := by
  have hstands := h.stands
  generalize partsIn w blocks = parts at hstands
  clear h
  induction hstands with
  | nil => rfl
  | cons hfirst _ ih =>
    obtain ⟨raw, hs, ht, -⟩ := hfirst.standin
    rw [List.map_cons, List.map_cons, List.map_cons, ih, ht.bytes]
    exact congrArg (· :: _) hs

theorem Planned.bytes_ne_none (h : Planned source id rules w progs blocks drawn)
    {block : Block sha256} (hb : block ∈ blocks) : targetBytes rules block.lineage ≠ none := by
  obtain ⟨part, -, hs⟩ := h.stands_block hb
  obtain ⟨raw, -, ht, -⟩ := hs.standin
  rw [ht.bytes]
  nofun

end Planned

/-! ## Granting -/

/-- One group for each distinct key among the wrappers. -/
theorem groups_keys (progs : List (AttachedProg sha256)) :
    ((groupWrappers progs).1.map WrapperGroup.key).Perm
      ((progs.filter (·.owned)).map AttachedProg.key).dedup := by
  have hg := grouping_groupWrappers progs
  refine (List.perm_ext_iff_of_nodup hg.distinct (List.nodup_dedup _)).mpr fun key => ?_
  rw [List.mem_dedup]
  constructor
  · intro h
    obtain ⟨group, hm, rfl⟩ := List.mem_map.mp h
    obtain ⟨prog, hp⟩ := List.exists_mem_of_ne_nil _ group.nonempty
    rw [← hg.key_eq group hm prog hp]
    exact List.mem_map_of_mem (hg.members.mem_iff.mp (List.mem_flatMap.mpr ⟨group, hm, hp⟩))
  · intro h
    obtain ⟨prog, hp, rfl⟩ := List.mem_map.mp h
    obtain ⟨group, hm, hmem⟩ := List.mem_flatMap.mp (hg.members.mem_iff.mpr hp)
    rw [hg.key_eq group hm prog hmem]
    exact List.mem_map_of_mem hm

theorem GrantBlocks.keys {rules : List DeviceRule} {groups : List (WrapperGroup sha256)}
    {blocks : List (Block sha256)} (h : GrantBlocks rules groups blocks) :
    blocks.map (·.lineage.key) = groups.map WrapperGroup.key := by
  induction h with
  | nil => rfl
  | cons hfirst _ ih =>
    obtain ⟨desired, -, rfl⟩ := hfirst
    rw [List.map_cons, List.map_cons, ih]
    rfl

/-- Each bare program got the next nonce. -/
theorem BareBlocks.keys {source : Nat → Except NonceError (BitVec 64)} {rules : List DeviceRule}
    {n n' : Nat} {bares : List (AttachedProg sha256)} {blocks : List (Block sha256)}
    (h : BareBlocks source rules n bares blocks n') (hb : ∀ bare ∈ bares, bare.owned = false) :
    List.Forall₂ (fun bare key => key.2 = bare.raw) bares (blocks.map (·.lineage.key)) ∧
      (∀ i key, (blocks.map (·.lineage.key))[i]? = some key → source (n + i) = .ok key.1) ∧
      n' = n + bares.length := by
  induction h with
  | nil => exact ⟨.nil, nofun, rfl⟩
  | @cons n n' bare bares blocks nonce wrapped hg hn he _ ih =>
    obtain ⟨hkeys, hnonces, hn'⟩ := ih fun b hm => hb b (List.mem_cons_of_mem _ hm)
    refine ⟨.cons (bare.bare (hb bare List.mem_cons_self)) hkeys, ?_, ?_⟩
    · intro i key hi
      cases i with
      | zero => cases hi; exact hn
      | succ i =>
        rw [← Nat.add_assoc, Nat.add_right_comm]
        exact hnonces i key hi
    · rw [hn', List.length_cons]
      omega

/-- The nonce a missing lineage is wrapped under: its own, or a new one if it has none. -/
def AgainNonce (source : Nat → Except NonceError (BitVec 64)) (n n' : Nat)
    (lineage : CachedLineage sha256) (nonce : BitVec 64) : Prop :=
  if lineage.nonce = 0 then ∃ k, n ≤ k ∧ k < n' ∧ source k = .ok nonce else nonce = lineage.nonce

theorem RebuildBlocks.keys {source : Nat → Except NonceError (BitVec 64)} {rules : List DeviceRule}
    {n n' : Nat} {cached : List (CachedLineage sha256)} {blocks : List (Block sha256)}
    (h : RebuildBlocks source rules n cached blocks n') (hr : rules ≠ []) :
    n ≤ n' ∧ List.Forall₂ (fun lineage key => key.2 = lineage.original.raw ∧
      AgainNonce source n n' lineage key.1) cached (blocks.map (·.lineage.key)) := by
  induction h with
  | nil => exact ⟨Nat.le_refl _, .nil⟩
  | bare hno => exact absurd hno hr
  | @wrapped n n₁ n' lineage cached blocks nonce wrapped _ _ hd _ _ ih =>
    obtain ⟨hle, hkeys⟩ := ih
    have hmore : n ≤ n₁ := by
      unfold Draws at hd
      split at hd <;> omega
    refine ⟨Nat.le_trans hmore hle, .cons ⟨rfl, ?_⟩ (hkeys.imp fun lineage key hk => ⟨hk.1, ?_⟩)⟩
    · unfold Draws at hd
      unfold AgainNonce
      split at hd
      · rename_i h0
        rw [if_pos h0]
        exact ⟨n, Nat.le_refl _, by omega, hd.1⟩
      · rename_i h0
        rw [if_neg h0]
        exact hd.1
    · have h2 := hk.2
      unfold AgainNonce at h2 ⊢
      split at h2
      · rename_i h0
        obtain ⟨k, hk₁, hk₂, hs⟩ := h2
        rw [if_pos h0]
        exact ⟨k, by omega, hk₂, hs⟩
      · rename_i h0
        rw [if_neg h0]
        exact h2

/-! ## Restoring -/

private theorem countP_eraseP {α : Type} {p q : α → Bool} {l : List α} {a : α}
    (h : l.find? q = some a) :
    l.countP p = (l.eraseP q).countP p + if p a then 1 else 0 := by
  rw [← (perm_eraseP h).countP_eq, List.countP_cons]

/-- An original is left as often as it has wrapper lineages or bare copies, whichever is more. -/
theorem restoreBlocks_count (original : Bytes) (groups : List (WrapperGroup sha256))
    {available : List (AttachedProg sha256)} (hb : ∀ bare ∈ available, bare.owned = false) :
    (restoreBlocks groups available).countP (·.lineage.original.raw = original) =
      max (groups.countP (·.original.raw = original)) (available.countP (·.raw = original)) := by
  induction groups generalizing available with
  | nil =>
    rw [restoreBlocks, List.countP_map, List.countP_nil, Nat.zero_max]
    refine List.countP_congr fun bare hm => ?_
    simp [bare.bare (hb bare hm)]
  | cons group groups ih =>
    rw [restoreBlocks]
    cases hf : available.find? (·.raw = group.original.raw) with
    | some bare =>
      have hraw : bare.raw = group.original.raw := by simpa using List.find?_some hf
      have hcount := @countP_eraseP _ (·.raw = original) _ _ _ hf
      have hrest := @ih (available.eraseP (·.raw = group.original.raw)) fun b hm =>
        hb b (List.mem_of_mem_eraseP hm)
      rw [List.countP_cons, List.countP_cons, hrest, hcount, hraw]
      exact (Nat.add_max_add_right _ _ _).symm
    | none =>
      have hnone : group.original.raw = original → available.countP (·.raw = original) = 0 := by
        rintro rfl
        exact List.countP_eq_zero.mpr (List.find?_eq_none.mp hf)
      rw [List.countP_cons, List.countP_cons, ih hb]
      simp only [WrapperGroup.lineage]
      by_cases ho : group.original.raw = original
      · rw [hnone ho]
        simp [ho]
      · simp [ho]

/-- What is bare is kept. -/
theorem restoreBlocks_keep (groups : List (WrapperGroup sha256))
    {available : List (AttachedProg sha256)} {bare : AttachedProg sha256} (hm : bare ∈ available) :
    ∃ block ∈ restoreBlocks groups available, ∃ drops, block.part = .keep bare.index drops := by
  induction groups generalizing available with
  | nil => exact ⟨_, List.mem_map_of_mem hm, [], rfl⟩
  | cons group groups ih =>
    rw [restoreBlocks]
    cases hf : available.find? (·.raw = group.original.raw) with
    | some first =>
      rcases List.mem_cons.mp ((perm_eraseP hf).mem_iff.mpr hm) with rfl | hm
      · exact ⟨_, List.mem_cons_self, _, rfl⟩
      · obtain ⟨block, hb, hk⟩ := ih hm
        exact ⟨block, List.mem_cons_of_mem _ hb, hk⟩
    | none =>
      obtain ⟨block, hb, hk⟩ := ih hm
      exact ⟨block, List.mem_cons_of_mem _ hb, hk⟩

private theorem groups_countP (progs : List (AttachedProg sha256)) (original : Bytes) :
    (groupWrappers progs).1.countP (·.original.raw = original) =
      ((progs.filter (·.owned)).map AttachedProg.key).dedup.countP (·.2 = original) := by
  rw [← (groups_keys progs).countP_eq, List.countP_map]
  rfl

/-- The wrapper lineages of an original are told apart by their nonces. -/
theorem groups_count (progs : List (AttachedProg sha256)) (original : Bytes) :
    (groupWrappers progs).1.countP (·.original.raw = original) =
      ((progs.filter fun prog => prog.owned && prog.original.raw = original).map
        AttachedProg.nonce).dedup.length := by
  rw [groups_countP, List.countP_eq_length_filter, ← List.length_map Prod.fst]
  refine List.Perm.length_eq
    ((List.perm_ext_iff_of_nodup ?_ (List.nodup_dedup _)).mpr fun nonce => ?_)
  · refine List.Nodup.map_on ?_ ((List.nodup_dedup _).filter _)
    intro a ha b hb hab
    have ha := of_decide_eq_true (List.mem_filter.mp ha).2
    have hb := of_decide_eq_true (List.mem_filter.mp hb).2
    exact Prod.ext hab (ha.trans hb.symm)
  · simp only [List.mem_map, List.mem_filter, List.mem_dedup, decide_eq_true_eq, Bool.and_eq_true]
    constructor
    · rintro ⟨key, ⟨⟨prog, ⟨hm, ho⟩, rfl⟩, hraw⟩, rfl⟩
      exact ⟨prog, ⟨hm, ho, hraw⟩, rfl⟩
    · rintro ⟨prog, ⟨hm, ho, hraw⟩, rfl⟩
      exact ⟨prog.key, ⟨⟨prog, ⟨hm, ho⟩, rfl⟩, hraw⟩, rfl⟩

theorem RebuildBlocks.count {source : Nat → Except NonceError (BitVec 64)} {rules : List DeviceRule}
    {n n' : Nat} {cached : List (CachedLineage sha256)} {blocks : List (Block sha256)}
    (h : RebuildBlocks source rules n cached blocks n') (original : Bytes) :
    blocks.countP (·.lineage.original.raw = original) =
      cached.countP (·.original.raw = original) := by
  induction h with
  | nil => rfl
  | bare _ _ _ ih => rw [List.countP_cons, List.countP_cons, ih]
  | wrapped _ _ _ _ _ ih => rw [List.countP_cons, List.countP_cons, ih]

/-! ## The result of a pass -/

/-- The lineages of the entry that a pass has to attach again. -/
def missingOf (entry : CacheEntry sha256) (progs : List (AttachedProg sha256)) :
    List (CachedLineage sha256) :=
  if entry.rebuilding then
    missingLineages entry.lineages (groupWrappers progs).1 (groupWrappers progs).2
  else []

section Pass

variable {source : Nat → Except NonceError (BitVec 64)} {id : Identity} {rules : List DeviceRule}
  {w : World sha256} {progs : List (AttachedProg sha256)} {blocks : List (Block sha256)}
  {drawn : Nat}

/-- The two parts of a plan: for what is attached, and for what is missing. -/
theorem Planned.split (h : Planned source id rules w progs blocks drawn) :
    ∃ main extra m, blocks = main ++ extra ∧
      (rules = [] ∧ m = w.drawn ∧
          main = restoreBlocks (groupWrappers progs).1 (progs.filter (!·.owned)) ∨
        rules ≠ [] ∧ ∃ grants bares, GrantBlocks rules (groupWrappers progs).1 grants ∧
          BareBlocks source rules w.drawn (progs.filter (!·.owned)) bares m ∧
          main = grants ++ bares) ∧
      RebuildBlocks source rules m (missingOf (planEntry w id) progs) extra drawn := by
  obtain ⟨main, extra, m, hblocks, hmain, hextra⟩ := h.blocks.split
  rw [← (grouping_groupWrappers progs).bares_eq]
  refine ⟨main, extra, m, hblocks, hmain, ?_⟩
  unfold missingOf
  rcases hextra with ⟨hr, hextra⟩ | ⟨hr, rfl, rfl⟩
  · rw [if_pos hr]; exact hextra
  · rw [hr, if_neg Bool.false_ne_true]; exact .nil _

theorem Planned.split_grant (h : Planned source id rules w progs blocks drawn) (hr : rules ≠ []) :
    ∃ grants bares extra m, blocks = grants ++ bares ++ extra ∧
      GrantBlocks rules (groupWrappers progs).1 grants ∧
      BareBlocks source rules w.drawn (progs.filter (!·.owned)) bares m ∧
      RebuildBlocks source rules m (missingOf (planEntry w id) progs) extra drawn := by
  obtain ⟨main, extra, m, rfl, hmain, hextra⟩ := h.split
  rcases hmain with ⟨hno, -⟩ | ⟨-, grants, bares, hgrants, hbares, rfl⟩
  · exact absurd hno hr
  · exact ⟨grants, bares, extra, m, rfl, hgrants, hbares, hextra⟩

theorem Planned.split_restore (h : Planned source id [] w progs blocks drawn) :
    ∃ extra m, blocks =
        restoreBlocks (groupWrappers progs).1 (progs.filter (!·.owned)) ++ extra ∧
      RebuildBlocks source [] m (missingOf (planEntry w id) progs) extra drawn := by
  obtain ⟨main, extra, m, rfl, hmain, hextra⟩ := h.split
  rcases hmain with ⟨-, -, rfl⟩ | ⟨hno, -⟩
  · exact ⟨extra, m, rfl, hextra⟩
  · exact absurd rfl hno

/-- What a pass for non-empty rules leaves. -/
theorem Planned.granted (h : Planned source id rules w progs blocks drawn) (hr : rules ≠ []) :
    ∃ fresh again : List Key,
      List.Forall₂ (fun bare key => key.2 = bare.raw) (progs.filter (!·.owned)) fresh ∧
      (∀ i key, fresh[i]? = some key → source (w.drawn + i) = .ok key.1) ∧
      List.Forall₂ (fun lineage key => key.2 = lineage.original.raw ∧
        AgainNonce source (w.drawn + fresh.length) drawn lineage key.1)
        (missingOf (planEntry w id) progs) again ∧
      (blocks.map (·.lineage.key)).Perm
        (((progs.filter (·.owned)).map AttachedProg.key).dedup ++ fresh ++ again) := by
  obtain ⟨grants, bares, extra, m, rfl, hg, hb, hextra⟩ := h.split_grant hr
  obtain ⟨hfresh, hnonce, hm⟩ := hb.keys fun bare hm => by simpa using (List.mem_filter.mp hm).2
  obtain ⟨-, hagain⟩ := hextra.keys hr
  refine ⟨_, _, hfresh, hnonce, by rw [← hfresh.length_eq, ← hm]; exact hagain, ?_⟩
  rw [List.map_append, List.map_append, hg.keys]
  exact ((groups_keys progs).append_right _).append_right _

/-- What a pass for empty rules leaves. -/
theorem Planned.restored (h : Planned source id [] w progs blocks drawn) (original : Bytes) :
    (blocks.map fun block => targetBytes [] block.lineage).count (some original) =
      max ((progs.filter fun prog => prog.owned && prog.original.raw = original).map
          AttachedProg.nonce).dedup.length
        (progs.countP fun prog => !prog.owned && prog.raw = original) +
      (missingOf (planEntry w id) progs).countP (·.original.raw = original) := by
  obtain ⟨extra, m, rfl, hextra⟩ := h.split_restore
  have hcount : ∀ blocks : List (Block sha256),
      (blocks.map fun block => targetBytes [] block.lineage).count (some original) =
        blocks.countP (·.lineage.original.raw = original) := by
    intro blocks
    rw [List.count, List.countP_map]
    exact List.countP_congr fun block _ => by simp [targetBytes]
  rw [hcount, List.countP_append, hextra.count, restoreBlocks_count _ _ fun bare hm => by
    simpa using (List.mem_filter.mp hm).2, groups_count, List.countP_filter]
  congr 2
  exact List.countP_congr fun prog _ => by simp [and_comm]

/-- A bare program is its own stand-in. -/
theorem Planned.keeps_bare (h : Planned source id [] w progs blocks drawn) {prog : Prog}
    (hm : prog ∈ w.kernel.attached) {raw : Bytes} (hraw : prog.bytes = some raw)
    (hbare : parseOwned sha256 raw = .ok none) :
    prog ∈ (partsIn w blocks).map Part.standin := by
  obtain ⟨found, hf, hc, hfetch⟩ := classifyAll_found h.classified hm
  have hfound : found ∈ progs.filter (!·.owned) := by
    have hsame : found.raw = raw := hc.raw.unique hraw
    have := hc.owned_eq.mpr (hsame ▸ hbare)
    exact List.mem_filter.mpr ⟨hf, by rw [this]; rfl⟩
  obtain ⟨extra, m, rfl, -⟩ := h.split_restore
  obtain ⟨block, hb, drops, hpart⟩ := restoreBlocks_keep (groupWrappers progs).1 hfound
  obtain ⟨id', hin⟩ := @mem_realize w.kernel.attached w.kernel.nextId _ _
    (List.mem_map_of_mem (List.mem_append_left extra hb))
  refine List.mem_map.mpr ⟨_, hin, ?_⟩
  rw [hpart]
  exact hfetch

end Pass

/-- **What a successful pass leaves attached.** For non-empty rules, one wrapper for each lineage,
for each bare program and for each missing lineage; for empty rules, the originals. -/
theorem setRules_result (env : Env) (id : Identity) (rules : List DeviceRule) (w w' : World sha256)
    (progs : List (AttachedProg sha256)) (hcalm : env.CalmFrom w.calls)
    (hne : w.kernel.attached ≠ []) (hclassified : classifyAll 0 w.kernel.attached = .ok progs)
    (hok : setRules env id rules w = (.ok (), w')) :
    (rules ≠ [] → ∃ fresh again : List Key,
      List.Forall₂ (fun bare key => key.2 = bare.raw) (progs.filter (!·.owned)) fresh ∧
      (∀ i key, fresh[i]? = some key → env.nonce (w.drawn + i) = .ok key.1) ∧
      List.Forall₂ (fun lineage key => key.2 = lineage.original.raw ∧
        AgainNonce env.nonce (w.drawn + fresh.length) w'.drawn lineage key.1)
        (missingOf (w.cache.get id) progs) again ∧
      (∀ key ∈ ((progs.filter (·.owned)).map AttachedProg.key).dedup ++ fresh ++ again,
        parseOwned sha256 key.2 = .ok none) ∧
      (∀ prog ∈ w'.kernel.attached, prog.bytes ≠ none) ∧
      (w'.kernel.attached.map Prog.bytes).Perm
        ((((progs.filter (·.owned)).map AttachedProg.key).dedup ++ fresh ++ again).map
          (wrapperBytes sha256 rules))) ∧
    (rules = [] →
      (∀ prog ∈ w'.kernel.attached, ∃ raw, prog.bytes = some raw ∧
        parseOwned sha256 raw = .ok none) ∧
      (∀ prog ∈ w.kernel.attached, ∀ raw, prog.bytes = some raw → parseOwned sha256 raw = .ok none →
        prog ∈ w'.kernel.attached) ∧
      ∀ original, (w'.kernel.attached.map Prog.bytes).count (some original) =
        max ((progs.filter fun prog => prog.owned && prog.original.raw = original).map
            AttachedProg.nonce).dedup.length
          (progs.countP fun prog => !prog.owned && prog.raw = original) +
        (missingOf (w.cache.get id) progs).countP (·.original.raw = original)) := by
  rcases setRules_inv hcalm hok with hstop | ⟨⟨progs', blocks, drawn, hplan⟩, hpassed⟩
  · obtain ⟨e, he⟩ := hstop.error
    cases he
  obtain rfl : progs = progs' := Except.ok.inj (hclassified.symm.trans hplan.classified)
  have hpassed := hpassed progs blocks drawn hplan
  have hentry : planEntry w id = w.cache.get id := by rw [planEntry, if_neg hne]
  have hafter := (hpassed.ok rfl).2
  have hbytes := hafter.map Prog.bytes
  rw [hplan.standin_bytes] at hbytes
  have hshown : ∀ prog ∈ w'.kernel.attached, ∃ block ∈ blocks,
      targetBytes rules block.lineage = prog.bytes := fun prog hp =>
    List.mem_map.mp (hbytes.mem_iff.mp (List.mem_map_of_mem hp))
  constructor
  · intro hr
    obtain ⟨fresh, again, hfresh, hnonce, hagain, hperm⟩ := hplan.granted hr
    rw [hentry] at hagain
    refine ⟨fresh, again, hfresh, hnonce, by rw [hpassed.drawn]; exact hagain, fun key hk => ?_,
      fun prog hp => ?_, hbytes.trans ?_⟩
    · obtain ⟨block, -, rfl⟩ := List.mem_map.mp (hperm.mem_iff.mpr hk)
      exact block.lineage.original.bare
    · obtain ⟨block, hb, heq⟩ := hshown prog hp
      exact heq ▸ hplan.bytes_ne_none hb
    · refine List.Perm.trans (.of_eq ?_) (hperm.map (wrapperBytes sha256 rules))
      rw [List.map_map]
      exact List.map_congr_left fun block _ => by rw [targetBytes, if_neg hr]; rfl
  · rintro rfl
    refine ⟨fun prog hp => ?_, fun prog hm raw hraw hbare => ?_, fun original => ?_⟩
    · obtain ⟨block, hb, heq⟩ := hshown prog hp
      exact ⟨block.lineage.original.raw, heq.symm, block.lineage.original.bare⟩
    · exact hafter.mem_iff.mpr (hplan.keeps_bare hm hraw hbare)
    · rw [hbytes.count_eq, ← hentry]
      exact hplan.restored original

/-- A grant in a cgroup with one filter leaves its wrapper under the first nonce. -/
theorem setRules_result_denyWorld :
    ∃ w', setRules quietEnv sampleId [nullRule] denyWorld = (.ok (), w') ∧
      w'.kernel.attached.map Prog.bytes = [wrapperBytes sampleSha256 [nullRule] (1, denyAll)] := by
  obtain ⟨r, w', h⟩ := (setRules quietEnv sampleId [nullRule]).exists_run denyWorld
  have hr : (setRules quietEnv sampleId [nullRule] denyWorld).1.isOk = true := by decide +kernel
  rw [h] at hr
  cases r with
  | error e => cases hr
  | ok =>
    refine ⟨w', h, ?_⟩
    obtain ⟨fresh, again, hfresh, hnonce, hagain, -, -, hperm⟩ :=
      (setRules_result quietEnv sampleId [nullRule] denyWorld w'
        [⟨0, denyAll, ⟨true, 0⟩, false, 0, ⟨denyAll, denyAll_canonical, denyAll_bare _⟩,
          fun _ => rfl⟩]
        (fun _ _ => rfl) (List.cons_ne_nil _ _) rfl h).1 (List.cons_ne_nil _ _)
    cases hagain
    cases hfresh with
    | @cons _ key _ _ hkey hrest =>
      cases hrest
      have hone : (1 : BitVec 64) = key.1 := Except.ok.inj (hnonce 0 _ rfl)
      have hkeys : key = (1, denyAll) := Prod.ext hone.symm hkey
      rw [hkeys] at hperm
      exact List.perm_singleton.mp hperm

end V2
end Sda
