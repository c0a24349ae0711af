import DeviceAccess.V2.Programs

/-!
# No runtime filter is ever lost

A run of one cgroup is a sequence of passes and of wipes between them (`run`). An original that was
attached when a pass committed is from then on `Safe`: it is in the cache, and attached unless the
cgroup is empty or a rebuild is under way. One pass keeps that (`setRules_safe`), a wipe does, and
so does a run (`run_safe`).

The step is `Planned.exists_block`: whatever is attached, and whatever a rebuild misses, gets a
block of the plan, whose lineage goes to the cache before anything is changed.
-/

namespace Sda
namespace V2

open Asm Sda.Filter Handover

variable {sha256 : Bytes → Vector Byte 32}

/-! ## Runs -/

/-- One pass, with its end in the log. -/
def pass (env : Env) (id : Identity) (rules : List DeviceRule) (world : World sha256) :
    World sha256 :=
  match setRules env id rules world with
  | (r, world') => world'.note (.returned r.isOk)

/-- What happens to a cgroup. -/
inductive Move where
  | pass (rules : List DeviceRule)
  | wipe
  deriving DecidableEq, Repr

def Move.apply (env : Env) (id : Identity) (world : World sha256) : Move → World sha256
  | .pass rules => V2.pass env id rules world
  | .wipe => world.wipe

def run (env : Env) (id : Identity) (moves : List Move) (world : World sha256) : World sha256 :=
  moves.foldl (Move.apply env id) world

/-! ## What a pass accounts for -/

/-- A program with the original is attached. -/
def Present (sha256 : Bytes → Vector Byte 32) (original : Bytes) (attached : List Prog) : Prop :=
  ∃ prog ∈ attached, prog.Carries sha256 original

/-- The original is among the lineages of the cache entry. -/
def CacheEntry.Has (entry : CacheEntry sha256) (original : Bytes) : Prop :=
  ∃ lineage ∈ entry.lineages, lineage.original.raw = original

/-- A lineage whose original is nowhere to be seen is missing. -/
theorem mem_missingLineages {lineage : CachedLineage sha256} {cached : List (CachedLineage sha256)}
    {groups : List (WrapperGroup sha256)} {bares : List (AttachedProg sha256)}
    (hm : lineage ∈ cached) (hg : ∀ group ∈ groups, group.original.raw ≠ lineage.original.raw)
    (hb : ∀ bare ∈ bares, bare.raw ≠ lineage.original.raw) :
    lineage ∈ missingLineages cached groups bares := by
  induction cached generalizing groups bares with
  | nil => cases hm
  | cons first cached ih =>
    rw [missingLineages]
    rcases List.mem_cons.mp hm with rfl | hm
    · rw [if_neg, if_neg]
      · exact List.mem_cons_self
      · rw [List.any_eq_true]
        rintro ⟨bare, hmem, h⟩
        exact hb bare hmem (of_decide_eq_true h)
      · rw [List.any_eq_true]
        rintro ⟨group, hmem, h⟩
        exact hg group hmem (of_decide_eq_true (Bool.and_eq_true_iff.mp h).2)
    · split
      · exact ih hm (fun g h => hg g (List.mem_of_mem_eraseP h)) hb
      · split
        · exact ih hm hg fun b h => hb b (List.mem_of_mem_eraseP h)
        · exact List.mem_cons_of_mem _ (ih hm hg hb)

theorem RebuildBlocks.exists_block {source : Nat → Except NonceError (BitVec 64)}
    {rules : List DeviceRule} {n n' : Nat} {cached : List (CachedLineage sha256)}
    {blocks : List (Block sha256)} (h : RebuildBlocks source rules n cached blocks n')
    {lineage : CachedLineage sha256} (hm : lineage ∈ cached) :
    ∃ block ∈ blocks, block.lineage.original = lineage.original := by
  induction h with
  | nil => cases hm
  | bare _ _ _ ih =>
    rcases List.mem_cons.mp hm with rfl | hm
    · exact ⟨_, List.mem_cons_self, rfl⟩
    · obtain ⟨block, hb, ho⟩ := ih hm
      exact ⟨block, List.mem_cons_of_mem _ hb, ho⟩
  | wrapped _ _ _ _ _ ih =>
    rcases List.mem_cons.mp hm with rfl | hm
    · exact ⟨_, List.mem_cons_self, rfl⟩
    · obtain ⟨block, hb, ho⟩ := ih hm
      exact ⟨block, List.mem_cons_of_mem _ hb, ho⟩

section Planned

variable {source : Nat → Except NonceError (BitVec 64)} {id : Identity} {rules : List DeviceRule}
  {w : World sha256} {progs : List (AttachedProg sha256)} {blocks : List (Block sha256)}
  {drawn : Nat} {original : Bytes}

/-- An attached program is a member of a part. -/
theorem Planned.exists_part (h : Planned source id rules w progs blocks drawn) {prog : Prog}
    (hp : prog ∈ w.kernel.attached) : ∃ part ∈ partsIn w blocks, prog ∈ part.members := by
  have := h.sound.covers.members.mem_iff.mpr hp
  exact List.mem_flatMap.mp this

theorem Planned.block_of_present (h : Planned source id rules w progs blocks drawn)
    (hp : Present sha256 original w.kernel.attached) :
    ∃ block ∈ blocks, block.lineage.original.raw = original := by
  obtain ⟨prog, hm, hc⟩ := hp
  obtain ⟨part, hpart, hmem⟩ := h.exists_part hm
  obtain ⟨block, hb, hs⟩ := h.stands_part hpart
  exact ⟨block, hb, (hs.members prog hmem).unique hc⟩

/-- **Everything attached and everything missing has a block.** -/
theorem Planned.exists_block (h : Planned source id rules w progs blocks drawn)
    (hk : Present sha256 original w.kernel.attached ∨
      (planEntry w id).Has original ∧ (planEntry w id).rebuilding = true) :
    ∃ block ∈ blocks, block.lineage.original.raw = original := by
  by_cases hp : Present sha256 original w.kernel.attached
  · exact h.block_of_present hp
  obtain ⟨⟨lineage, hm, rfl⟩, hr⟩ := hk.resolve_left hp
  obtain ⟨main, extra, m, rfl, -, ⟨-, hextra⟩ | ⟨hno, -⟩⟩ := h.blocks.split
  swap
  · rw [hr] at hno; cases hno
  have habsent : ∀ found ∈ progs, found.original.raw ≠ lineage.original.raw := by
    intro found hf heq
    obtain ⟨hm, hc⟩ := classifyAll_fetch h.classified hf
    exact hp ⟨_, hm, heq ▸ hc.carries⟩
  have hg := grouping_groupWrappers progs
  have hgroups : ∀ group ∈ (groupWrappers progs).1,
      group.original.raw ≠ lineage.original.raw := by
    intro group hgroup heq
    obtain ⟨prog, hprog⟩ := List.exists_mem_of_ne_nil _ group.nonempty
    have hkey := (Prod.mk.inj (hg.key_eq group hgroup prog hprog)).2
    have hin := hg.members.mem_iff.mp (List.mem_flatMap.mpr ⟨group, hgroup, hprog⟩)
    exact habsent prog (List.mem_filter.mp hin).1 (hkey.trans heq)
  have hbares : ∀ bare ∈ (groupWrappers progs).2, bare.raw ≠ lineage.original.raw := by
    intro bare hbare heq
    rw [hg.bares_eq] at hbare
    obtain ⟨hin, ho⟩ := List.mem_filter.mp hbare
    exact habsent bare hin ((bare.bare (by simpa using ho)).trans heq)
  have hmissing := mem_missingLineages hm hgroups hbares
  obtain ⟨block, hb, ho⟩ := hextra.exists_block hmissing
  exact ⟨block, List.mem_append_right _ hb, by rw [ho]⟩

/-- While the plan is executed, what is attached stays so. -/
theorem Planned.present_reached (h : Planned source id rules w progs blocks drawn)
    (hp : Present sha256 original w.kernel.attached) {now : List Prog}
    (hnow : Reached w.kernel.attached (edits (partsIn w blocks)) now) :
    Present sha256 original now := by
  obtain ⟨prog, hm, hc⟩ := hp
  rcases hnow.cover h.sound.covers hm with hm' | ⟨part, hpart, hmem, hst⟩
  · exact ⟨prog, hm', hc⟩
  · obtain ⟨block, -, hs⟩ := h.stands_part hpart
    have heq := (hs.members prog hmem).unique hc
    exact ⟨part.standin, hst, heq ▸ hs.carries⟩

/-- When it is done, everything that has a block is attached. -/
theorem Planned.present_standins (h : Planned source id rules w progs blocks drawn)
    {block : Block sha256} (hb : block ∈ blocks) {now : List Prog}
    (hnow : now.Perm ((partsIn w blocks).map Part.standin)) :
    Present sha256 block.lineage.original.raw now := by
  obtain ⟨part, hpart, hs⟩ := h.stands_block hb
  exact ⟨part.standin, hnow.mem_iff.mpr (List.mem_map_of_mem hpart), hs.carries⟩

end Planned

/-! ## Safe originals -/

/-- The original is attached, or will be by a rebuild. -/
def Kept (id : Identity) (original : Bytes) (attached : List Prog) (cache : FilterCache sha256) :
    Prop :=
  Present sha256 original attached ∨
    (cache.get id).Has original ∧ (attached = [] ∨ (cache.get id).rebuilding = true)

/-- The original is in the cache as well, so that a wipe cannot lose it. -/
structure Safe (id : Identity) (original : Bytes) (world : World sha256) : Prop where
  cached : (world.cache.get id).Has original
  kept : Kept id original world.kernel.attached world.cache

variable {env : Env} {id : Identity} {rules : List DeviceRule} {w w' : World sha256}
  {r : Except Error Unit} {original : Bytes}

theorem planEntry_has : (planEntry w id).Has original ∧ (planEntry w id).rebuilding = true ↔
    (w.cache.get id).Has original ∧
      (w.kernel.attached = [] ∨ (w.cache.get id).rebuilding = true) := by
  unfold planEntry CacheEntry.Has
  by_cases he : w.kernel.attached = []
  · simp [he]
  · simp [he]

/-- What a pass leaves of an original that it finds attached or missing. -/
theorem Passed.safe {progs : List (AttachedProg sha256)} {blocks : List (Block sha256)}
    {drawn : Nat} (hplan : Planned env.nonce id rules w progs blocks drawn)
    (h : Passed env id blocks (planEntry w id).rebuilding drawn r w w')
    (hk : Kept id original w.kernel.attached w.cache) :
    Logged (fun point => Kept id original point.attached point.cache) w w' ∧ Safe id original w' ∧
      (r = .ok () → Present sha256 original w'.kernel.attached) := by
  have hentry : Present sha256 original w.kernel.attached ∨
      (planEntry w id).Has original ∧ (planEntry w id).rebuilding = true :=
    hk.imp_right planEntry_has.mpr
  obtain ⟨block, hb, rfl⟩ := hplan.exists_block hentry
  have hhas : ∀ rebuilding, CacheEntry.Has ⟨blocks.map Block.lineage, rebuilding⟩
      block.lineage.original.raw := fun _ => ⟨_, List.mem_map_of_mem hb, rfl⟩
  have hreached : ∀ now, Reached w.kernel.attached (edits (partsIn w blocks)) now →
      Present sha256 block.lineage.original.raw now ∨ (planEntry w id).rebuilding = true :=
        fun now hn =>
    hentry.imp (fun hp => hplan.present_reached hp hn) And.right
  have hok : r = .ok () → Present sha256 block.lineage.original.raw w'.kernel.attached := fun hr =>
    hplan.present_standins hb (h.ok hr).2
  refine ⟨h.log.mono fun point hp => ?_, ⟨?_, ?_⟩, hok⟩
  · cases hp with
    | read _ hn hc => rw [hn, hc]; exact hk
    | commit _ hn hc =>
      rw [Kept, hn, hc, FilterCache.get_set]
      exact (hreached _ (reached_start _)).imp_right fun hr => ⟨hhas _, .inr hr⟩
    | change _ hn hc _ _ =>
      rw [Kept, hc, FilterCache.get_set]
      exact (hreached _ hn).imp_right fun hr => ⟨hhas _, .inr hr⟩
    | rebuilt _ hn _ _ => exact .inl (hplan.present_standins hb hn)
  · rw [h.cache, FilterCache.get_set]
    exact hhas _
  · cases r with
    | ok => exact .inl (hok rfl)
    | error e =>
      rw [Kept, h.cache, FilterCache.get_set]
      refine (hreached _ h.now).imp_right fun hr => ⟨hhas _, .inr ?_⟩
      rw [hr]
      rfl

/-- **One pass keeps an original safe.** -/
theorem setRules_safe (hc : env.CalmFrom w.calls) (h : setRules env id rules w = (r, w'))
    (hs : Safe id original w) :
    Logged (fun point => Kept id original point.attached point.cache) w w' ∧ Safe id original w' ∧
      (r = .ok () → Present sha256 original w'.kernel.attached) := by
  rcases setRules_inv hc h with hstop | ⟨⟨progs, blocks, drawn, hplan⟩, hpassed⟩
  · obtain ⟨e, rfl⟩ := hstop.error
    refine ⟨hstop.looked.log.mono fun point hp => ?_, ⟨?_, ?_⟩, nofun⟩
    · rw [hp.2.1, hp.2.2]; exact hs.kept
    · rw [hstop.looked.cache]; exact hs.cached
    · rw [hstop.looked.cache, hstop.looked.kernel]; exact hs.kept
  · exact (hpassed progs blocks drawn hplan).safe hplan hs.kept

/-- **A pass that commits makes safe what it found.** -/
theorem setRules_commit (hc : env.CalmFrom w.calls) (h : setRules env id rules w = (r, w'))
    {points : List (Point sha256)} (hlog : w'.log = w.log ++ points) {point : Point sha256}
    (hp : point ∈ points) (hcommit : point.event = .commit)
    (hpresent : Present sha256 original point.attached) :
    Logged (fun point => Kept id original point.attached point.cache) w w' ∧ Safe id original w' ∧
      (r = .ok () → Present sha256 original w'.kernel.attached) := by
  rcases setRules_inv hc h with hstop | ⟨⟨progs, blocks, drawn, hplan⟩, hpassed⟩
  · have := (hstop.looked.log.of_log hlog point hp).1
    rw [hcommit] at this
    cases this
  · have hpassed := hpassed progs blocks drawn hplan
    refine hpassed.safe hplan (.inl ?_)
    cases hpassed.log.of_log hlog point hp with
    | read he _ _ => rw [hcommit] at he; cases he
    | commit _ hn _ => rwa [← hn]
    | change he _ _ _ _ => rw [hcommit] at he; cases he
    | rebuilt he _ _ _ => rw [hcommit] at he; cases he

/-! ## Whole runs -/

/-- What the log says about an original that is safe. -/
structure Recorded (id : Identity) (original : Bytes) (point : Point sha256) : Prop where
  kept : Kept id original point.attached point.cache
  returned : point.event = .returned true → Present sha256 original point.attached

/-- The end of a pass is logged outside of it. -/
theorem setRules_events (hc : env.CalmFrom w.calls) (h : setRules env id rules w = (r, w')) :
    Logged (fun point => point.event ≠ .returned true) w w' := by
  rcases setRules_inv hc h with hstop | ⟨⟨progs, blocks, drawn, hplan⟩, hpassed⟩
  · refine hstop.looked.log.mono fun point hp he => ?_
    rw [he] at hp
    cases hp.1
  · refine (hpassed progs blocks drawn hplan).log.mono fun point hp he => ?_
    cases hp with
    | read h _ _ => rw [he] at h; cases h
    | commit h _ _ => rw [he] at h; cases h
    | change h _ _ _ _ => rw [he] at h; cases h
    | rebuilt h _ _ _ => rw [he] at h; cases h

/-- The log of a pass and its end, from what the pass did. -/
theorem recorded_pass (hc : env.CalmFrom w.calls) (h : setRules env id rules w = (r, w'))
    (hkept : Logged (fun point => Kept id original point.attached point.cache) w w' ∧
      Safe id original w' ∧ (r = .ok () → Present sha256 original w'.kernel.attached)) :
    Logged (Recorded id original) w (pass env id rules w) ∧
    Safe id original (pass env id rules w) := by
  obtain ⟨hlog, hsafe, hok⟩ := hkept
  have hpass : pass env id rules w = w'.note (.returned r.isOk) := by rw [pass, h]
  rw [hpass]
  refine ⟨?_, hsafe.cached, hsafe.kept⟩
  refine ((hlog.and (setRules_events hc h)).mono fun point hp =>
    ⟨hp.1, fun he => absurd he hp.2⟩).trans
    (.of_point rfl ⟨hsafe.kept, fun he => hok ?_⟩)
  cases r with
  | ok => rfl
  | error e => cases he

theorem move_safe (hc : ∀ n, env.wiped n = false) (move : Move) (hs : Safe id original w) :
    Logged (Recorded id original) w (move.apply env id w) ∧
      Safe id original (move.apply env id w) := by
  cases move with
  | pass rules =>
    obtain ⟨r, w', h⟩ := (setRules env id rules).exists_run w
    exact recorded_pass (fun n _ => hc n) h (setRules_safe (fun n _ => hc n) h hs)
  | wipe =>
    have hkept : Kept id original [] w.cache := .inr ⟨hs.cached, .inl rfl⟩
    exact ⟨.of_point rfl ⟨hkept, nofun⟩, hs.cached, hkept⟩

/-- **A run keeps an original safe.** -/
theorem run_safe (hc : ∀ n, env.wiped n = false) (moves : List Move) (hs : Safe id original w) :
    Logged (Recorded id original) w (run env id moves w) := by
  induction moves generalizing w with
  | nil => exact .refl _ w
  | cons move moves ih =>
    obtain ⟨hlog, hs'⟩ := move_safe hc move hs
    exact hlog.trans (ih hs')

/-- A commit makes safe what it found, in the middle of a move. -/
theorem move_commit (hc : ∀ n, env.wiped n = false) (move : Move) {points : List (Point sha256)}
    (hlog : (move.apply env id w).log = w.log ++ points) {point : Point sha256}
    (hp : point ∈ points) (hcommit : point.event = .commit)
    (hpresent : Present sha256 original point.attached) :
    Logged (Recorded id original) w (move.apply env id w) ∧
      Safe id original (move.apply env id w) := by
  cases move with
  | pass rules =>
    obtain ⟨r, w', h⟩ := (setRules env id rules).exists_run w
    have hpass : pass env id rules w = w'.note (.returned r.isOk) := by rw [pass, h]
    obtain ⟨inner, hinner, -⟩ := setRules_events (fun n _ => hc n) h
    rw [Move.apply, hpass, World.note, hinner, List.append_assoc,
      List.append_cancel_left_eq] at hlog
    rw [← hlog] at hp
    rcases List.mem_append.mp hp with hp | hp
    · exact recorded_pass (fun n _ => hc n) h
        (setRules_commit (fun n _ => hc n) h hinner hp hcommit hpresent)
    · rw [List.mem_singleton.mp hp] at hcommit
      cases hcommit
  | wipe =>
    rw [Move.apply, World.wipe, World.note, List.append_cancel_left_eq] at hlog
    rw [← hlog] at hp
    rw [List.mem_singleton.mp hp] at hcommit
    cases hcommit

theorem move_log (hc : ∀ n, env.wiped n = false) (move : Move) :
    Logged (fun _ => True) w (move.apply env id w) := by
  cases move with
  | pass rules =>
    obtain ⟨r, w', h⟩ := (setRules env id rules).exists_run w
    have hpass : pass env id rules w = w'.note (.returned r.isOk) := by rw [pass, h]
    have hlog := (setRules_events (fun n _ => hc n) h).mono fun _ _ => trivial
    exact hlog.trans (.of_point (by rw [Move.apply, hpass]; rfl) trivial)
  | wipe => exact .of_point rfl trivial

theorem run_log (hc : ∀ n, env.wiped n = false) (moves : List Move) :
    Logged (fun _ => True) w (run env id moves w) := by
  induction moves generalizing w with
  | nil => exact .refl _ w
  | cons move moves ih => exact (move_log hc move).trans ih

/-- After a commit that found the original attached, the rest of the run keeps it. -/
theorem run_commit (hc : ∀ n, env.wiped n = false) (moves : List Move)
    {before after : List (Point sha256)} {point : Point sha256}
    (hlog : (run env id moves w).log = w.log ++ (before ++ point :: after))
    (hcommit : point.event = .commit) (hpresent : Present sha256 original point.attached) :
    ∀ later ∈ after, Recorded id original later := by
  induction moves generalizing w before with
  | nil =>
    have := List.append_cancel_left ((List.append_nil _).trans hlog)
    simp at this
  | cons move moves ih =>
    obtain ⟨first, hfirst, -⟩ := @move_log _ env id w hc move
    obtain ⟨rest, hrest, -⟩ := @run_log _ env id (move.apply env id w) hc moves
    have hrun : (run env id (move :: moves) w).log = w.log ++ (first ++ rest) := by
      rw [← List.append_assoc, ← hfirst]
      exact hrest
    rw [hrun, List.append_cancel_left_eq] at hlog
    rcases List.append_eq_append_iff.mp hlog with ⟨front, rfl, hsecond⟩ | ⟨front, hmine, hafter⟩
    · exact ih (hrest.trans (by rw [hsecond]))
    · cases front with
      | nil =>
        rw [List.nil_append] at hafter
        exact @ih _ [] (hrest.trans (by rw [← hafter]; rfl))
      | cons head front =>
        obtain ⟨rfl, rfl⟩ := List.cons.inj hafter
        have hin : point ∈ first := by rw [hmine]; simp
        obtain ⟨hrecorded, hsafe⟩ := move_commit hc move hfirst hin hcommit hpresent
        intro later hl
        rcases List.mem_append.mp hl with hl | hl
        · exact hrecorded.of_log hfirst later (by rw [hmine]; simp [hl])
        · exact (run_safe hc moves hsafe).of_log hrest later hl

/-- **No runtime filter is ever lost.** An original that was attached when a pass committed is from
then on attached, or in the cache while the cgroup is empty or a rebuild is under way; and every
pass that ends without an error leaves it attached. -/
theorem run_keeps_originals (env : Env) (hcalm : ∀ n, env.wiped n = false) (id : Identity)
    (moves : List Move) (w : World sha256) (before after : List (Point sha256))
    (point : Point sha256)
    (hlog : (run env id moves w).log = w.log ++ (before ++ point :: after))
    (hcommit : point.event = .commit) (original : Bytes)
    (hpresent : ∃ prog ∈ point.attached, prog.Carries sha256 original) :
    ∀ later ∈ after,
      ((∃ prog ∈ later.attached, prog.Carries sha256 original) ∨
        (∃ lineage ∈ (later.cache.get id).lineages, lineage.original.raw = original) ∧
          (later.attached = [] ∨ (later.cache.get id).rebuilding = true)) ∧
      (later.event = .returned true → ∃ prog ∈ later.attached, prog.Carries sha256 original) := by
  intro later hl
  obtain ⟨hkept, hreturned⟩ := run_commit hcalm moves hlog hcommit hpresent later hl
  exact ⟨hkept, hreturned⟩

/-- A pass, a wipe, and a pass that rebuilds. -/
def wipedRun : World sampleSha256 := run quietEnv sampleId [.pass [], .wipe, .pass []] denyWorld

theorem run_keeps_originals_wipedRun :
    ∃ before point after, wipedRun.log = before ++ point :: after ∧ point.event = .commit ∧
      (∃ prog ∈ point.attached, prog.Carries sampleSha256 denyAll) ∧
      ∀ later ∈ after,
        ((∃ prog ∈ later.attached, prog.Carries sampleSha256 denyAll) ∨
          (∃ lineage ∈ (later.cache.get sampleId).lineages, lineage.original.raw = denyAll) ∧
            (later.attached = [] ∨ (later.cache.get sampleId).rebuilding = true)) ∧
        (later.event = .returned true →
          ∃ prog ∈ later.attached, prog.Carries sampleSha256 denyAll) := by
  have hlen : 2 < wipedRun.log.length := by decide
  have hlog : wipedRun.log = wipedRun.log.take 2 ++ wipedRun.log[2] :: wipedRun.log.drop 3 := by
    rw [← List.drop_eq_getElem_cons hlen, List.take_append_drop]
  have hcommit : wipedRun.log[2].event = .commit := rfl
  have hpresent : ∃ prog ∈ wipedRun.log[2].attached, prog.Carries sampleSha256 denyAll :=
    ⟨denyProg, List.mem_singleton.mpr rfl, denyAll, newProg_shows denyAll_canonical 0,
      .bare (denyAll_bare _)⟩
  exact ⟨wipedRun.log.take 2, wipedRun.log[2], wipedRun.log.drop 3, hlog, hcommit, hpresent,
    run_keeps_originals quietEnv (fun _ => rfl) sampleId [.pass [], .wipe, .pass []] denyWorld
      (wipedRun.log.take 2) (wipedRun.log.drop 3) wipedRun.log[2] hlog hcommit denyAll hpresent⟩

end V2
end Sda
