import DeviceAccess.V2.NoGlitch
import DeviceAccess.V2.Recovery

/-!
# The originals of a cgroup over a whole run

Which filters the container runtime has in a cgroup is fixed by the first pass that succeeds
(`Holding`). Later passes, failed or not, and wipes lose none of them and take nothing else for one
(`Holding.moves`), so that each pass that succeeds leaves exactly the requests of the same filters
and of its rules (`setRules_admits`).

* `Planned.kept_of_block`: a plan has no block for anything but what is attached or missing, so that
  with `Planned.exists_block` a pass neither loses nor invents an original.
-/

namespace Sda
namespace V2

open Asm Sda.Filter Handover

variable {sha256 : Bytes → Vector Byte 32}

/-- What is attached or missing is a program of the runtime. -/
theorem Kept.bare {id : Identity} {original : Bytes} {attached : List Prog}
    {cache : FilterCache sha256} (h : Kept id original attached cache) :
    parseOwned sha256 original = .ok none := by
  rcases h with ⟨prog, -, raw, -, hi⟩ | ⟨⟨lineage, -, rfl⟩, -⟩
  · induction hi with
    | bare hb => exact hb
    | wrapper _ _ ih => exact ih
  · exact lineage.original.bare

/-! ## What a plan accounts for -/

section Planned

variable {source : Nat → Except NonceError (BitVec 64)} {id : Identity} {rules : List DeviceRule}
  {w : World sha256} {progs : List (AttachedProg sha256)} {blocks : List (Block sha256)}
  {drawn : Nat} {original : Bytes}

/-- **A block is for something that is attached or missing.** -/
theorem Planned.kept_of_block (h : Planned source id rules w progs blocks drawn)
    {block : Block sha256} (hb : block ∈ blocks) :
    Kept id block.lineage.original.raw w.kernel.attached w.cache := by
  obtain ⟨shares, hs, hp⟩ := h.blocks.accounts
  obtain ⟨main, extra, m, rfl, hmain, hextra⟩ := h.split
  rcases List.mem_append.mp hb with hb' | hb'
  · have hne : block.part.members ≠ [] := by
      rcases hmain with ⟨-, -, rfl⟩ | ⟨-, gs, bs, hgs, hbs, rfl⟩
      · exact restoreBlocks_members_ne _ _ block hb'
      · exact (List.mem_append.mp hb').elim (hgs.members_ne block) (hbs.members_ne block)
    obtain ⟨i, hi⟩ := List.exists_mem_of_ne_nil _ hne
    obtain ⟨share, hshare, haccounts⟩ := forall₂_exists_left hs hb
    obtain ⟨found, hf, -⟩ := List.mem_map.mp (haccounts.members.mem_iff.mp hi)
    obtain ⟨hm, hc⟩ := classifyAll_fetch h.classified
      (hp.mem_iff.mp (List.mem_flatten.mpr ⟨share, hshare, hf⟩))
    exact .inl ⟨_, hm, haccounts.original found hf ▸ hc.carries⟩
  · obtain ⟨lineage, hl, ho, -⟩ := forall₂_exists_left hextra.attaches hb'
    rw [ho]
    unfold missingOf at hl
    split at hl
    next hr =>
      exact .inr (planEntry_has.mp ⟨⟨lineage, (missingLineages_sublist _ _ _).subset hl, rfl⟩, hr⟩)
    next => cases hl

/-- The lineages of a plan are what is attached or missing. -/
theorem Planned.exists_block_iff (h : Planned source id rules w progs blocks drawn) :
    (∃ block ∈ blocks, block.lineage.original.raw = original) ↔
      Kept id original w.kernel.attached w.cache := by
  constructor
  · rintro ⟨block, hb, rfl⟩
    exact h.kept_of_block hb
  · exact fun hk => h.exists_block (hk.imp_right planEntry_has.mpr)

/-- Once the plan is carried out, the programs let pass what every original lets pass and what a
rule asks for. -/
theorem Planned.admits_standins (h : Planned source id rules w progs blocks drawn)
    (hallow : ∀ rule ∈ rules, rule.allow = true) (base : Bytes → Request → Prop) (req : Request) :
    Admits sha256 base ((partsIn w blocks).map Part.standin) req ↔
      (∀ original, Kept id original w.kernel.attached w.cache → base original req) ∨
        ∃ rule ∈ rules, rule.matches req = true := by
  by_cases hm : ∃ rule ∈ rules, rule.matches req = true
  · refine iff_of_true (fun prog hp => ?_) (.inr hm)
    obtain ⟨part, hpart, rfl⟩ := List.mem_map.mp hp
    obtain ⟨block, -, hs⟩ := h.stands_part hpart
    exact (hs.allows_standin hallow).mpr (.inr hm)
  · refine Iff.trans ⟨fun hall original hk => ?_, fun hown prog hp => ?_⟩ (or_iff_left hm).symm
    · obtain ⟨block, hb, rfl⟩ := h.exists_block_iff.mpr hk
      obtain ⟨part, hpart, hs⟩ := h.stands_block hb
      exact (allows_bare hk.bare).mp
        (((hs.allows_standin hallow).mp (hall _ (List.mem_map_of_mem hpart))).resolve_right hm)
    · obtain ⟨part, hpart, rfl⟩ := List.mem_map.mp hp
      obtain ⟨block, hb, hs⟩ := h.stands_part hpart
      have hk := h.kept_of_block hb
      exact (hs.allows_standin hallow).mpr (.inl ((allows_bare hk.bare).mpr (hown _ hk)))

end Planned

/-! ## What a run holds on to -/

/-- The cgroup belongs to the originals: they are what is attached or missing, and what the cache
has. -/
structure Holding (id : Identity) (originals : Bytes → Prop) (w : World sha256) : Prop where
  kept : ∀ original, Kept id original w.kernel.attached w.cache ↔ originals original
  cached : ∀ original, (w.cache.get id).Has original ↔ originals original

variable {env : Env} {id : Identity} {rules : List DeviceRule} {w w' : World sha256}
  {r : Except Error Unit} {originals : Bytes → Prop}

/-- What a pass leaves that commits to a plan. -/
theorem Passed.holding {progs : List (AttachedProg sha256)} {blocks : List (Block sha256)}
    {drawn : Nat} (hplan : Planned env.nonce id rules w progs blocks drawn)
    (h : Passed env id blocks (planEntry w id).rebuilding drawn r w w')
    (hkept : ∀ original, Kept id original w.kernel.attached w.cache ↔ originals original) :
    Holding id originals w' := by
  have hcached : ∀ original, (w'.cache.get id).Has original ↔ originals original := by
    intro original
    rw [← hkept, ← hplan.exists_block_iff, h.cache, FilterCache.get_set, CacheEntry.Has]
    simp only [List.mem_map, exists_exists_and_eq_and]
  refine ⟨fun original => ⟨?_, fun hk => (h.safe hplan ((hkept _).mpr hk)).2.1.kept⟩, hcached⟩
  rintro (⟨prog, hp, hc⟩ | ⟨hhas, -⟩)
  · rw [← hkept]
    rcases h.now.mem hp with hold | ⟨part, hpart, hnew⟩
    · exact .inl ⟨prog, hold, hc⟩
    · obtain ⟨block, hb, hs⟩ := hplan.stands_part hpart
      rw [← Part.standin_of_new hnew] at hc
      rw [hc.unique hs.carries]
      exact hplan.kept_of_block hb
  · exact (hcached original).mp hhas

/-- **What a pass that succeeds leaves.** -/
theorem setRules_admits (hc : env.CalmFrom w.calls) (h : setRules env id rules w = (.ok (), w'))
    (hkept : ∀ original, Kept id original w.kernel.attached w.cache ↔ originals original) :
    Holding id originals w' ∧ ((∀ rule ∈ rules, rule.allow = true) → ∀ base req,
      (Admits sha256 base w'.kernel.attached req ↔
        (∀ original, originals original → base original req) ∨
          ∃ rule ∈ rules, rule.matches req = true)) := by
  rcases setRules_inv hc h with hstop | ⟨⟨progs, blocks, drawn, hplan⟩, hpassed⟩
  · obtain ⟨e, he⟩ := hstop.error
    cases he
  have hpassed := hpassed progs blocks drawn hplan
  refine ⟨hpassed.holding hplan hkept, fun hallow base req => ?_⟩
  have hperm := (hpassed.ok rfl).2
  have hadmits := hplan.admits_standins hallow base req
  simp only [hkept] at hadmits
  exact Iff.trans (forall_congr' fun prog => imp_congr_left hperm.mem_iff) hadmits

/-- A pass keeps the originals, whether it succeeds or not. -/
theorem Holding.pass (hold : Holding id originals w) (hc : env.CalmFrom w.calls)
    (h : setRules env id rules w = (r, w')) : Holding id originals w' := by
  rcases setRules_inv hc h with hstop | ⟨⟨progs, blocks, drawn, hplan⟩, hpassed⟩
  · constructor
    · rw [hstop.looked.kernel, hstop.looked.cache]
      exact hold.kept
    · rw [hstop.looked.cache]
      exact hold.cached
  · exact (hpassed progs blocks drawn hplan).holding hplan hold.kept

theorem Holding.wipe (hold : Holding id originals w) : Holding id originals w.wipe := by
  refine ⟨fun original => ?_, hold.cached⟩
  refine Iff.trans ⟨?_, fun hhas => .inr ⟨hhas, .inl rfl⟩⟩ (hold.cached original)
  rintro (⟨prog, hp, -⟩ | ⟨hhas, -⟩)
  · cases hp
  · exact hhas

theorem Holding.move (hold : Holding id originals w) (hc : ∀ n, env.wiped n = false) (move : Move) :
    Holding id originals (move.apply env id w) := by
  cases move with
  | pass rules =>
    obtain ⟨r, w', h⟩ := (setRules env id rules).exists_run w
    have hafter := hold.pass (fun n _ => hc n) h
    rw [Move.apply, V2.pass, h]
    exact ⟨hafter.kept, hafter.cached⟩
  | wipe => exact hold.wipe

/-- **A run keeps the originals.** -/
theorem Holding.moves (hold : Holding id originals w) (hc : ∀ n, env.wiped n = false)
    (moves : List Move) :
    Holding id originals (run env id moves w) := by
  induction moves generalizing w with
  | nil => exact hold
  | cons move moves ih => exact ih (hold.move hc move)

end V2
end Sda
