import DeviceAccess.V2.Planning

/-!
# What one pass does

`setRules_inv` takes a pass apart: it stops before it has changed anything (`Stopped`), or it has
a plan (`Planned`) and commits to it. `commit_inv` says what committing does: the lineages of the
plan are in the cache before the first change, the changes are those of the plan's blocks
(`Executed`), and a rebuild is recorded as complete only after the last of them.

A cgroup without programs is the case of a rebuild in which every cached lineage is missing
(`planEntry`).
-/

namespace Sda
namespace V2

open Asm Sda.Filter Handover

variable {sha256 : Bytes → Vector Byte 32}

/-! ## Reading -/

/-- The events that only look. -/
def Event.reads : Event → Bool
  | .query | .instructions _ => true
  | _ => false

/-- The kernel was only looked at. -/
structure Reads (w w' : World sha256) : Prop where
  trail : Trail (fun event now => event.reads = true ∧ now = w.kernel.attached) w w'
  kernel : w'.kernel = w.kernel
  replace : w'.replace = w.replace

theorem Reads.refl (w : World sha256) : Reads w w := ⟨.refl _ w, rfl, rfl⟩

theorem Reads.trans {w w₁ w' : World sha256} (h : Reads w w₁) (h' : Reads w₁ w') : Reads w w' :=
  ⟨h.trail.trans (h.kernel ▸ h'.trail), h'.kernel.trans h.kernel, h'.replace.trans h.replace⟩

theorem Reads.of_called {event : Event} {w w' : World sha256} (h : Called event w w')
    (he : event.reads = true) (hk : w'.kernel = w.kernel) : Reads w w' :=
  ⟨h.trail ⟨he, by rw [hk]⟩, hk, h.replace⟩

/-- The classification of the programs when no call fails by itself. -/
def classifyAll (index : Nat) : List Prog → Except Error (List (AttachedProg sha256))
  | [] => .ok []
  | prog :: progs => do
    let dump ← prog.dump.mapError .ops
    let first ← classifyDump index dump
    let rest ← classifyAll (index + 1) progs
    .ok (first :: rest)

variable {env : Env} {w w' : World sha256}

theorem classify_inv {index : Nat} {prog : Prog} {r : Except Error (AttachedProg sha256)}
    (hc : env.wiped w.calls = false) (h : classify env index prog w = (r, w')) :
    Reads w w' ∧ ((∃ e, r = .error e ∧ env.fault w.calls ≠ none) ∨
      r = (prog.dump.mapError Error.ops >>= classifyDump index)) := by
  rw [classify] at h
  rcases Action.bind_inv h with ⟨e, hi, rfl⟩ | ⟨dump, w₁, hi, hd⟩
  · obtain ⟨cause, hcause, rfl⟩ := Action.mapErr_error_inv hi
    obtain ⟨hcalled, hk, ⟨e, -, hf⟩ | hdump⟩ := instructions_inv hc hcause
    · exact ⟨.of_called hcalled rfl hk, .inl ⟨_, rfl, by rw [hf]; nofun⟩⟩
    · exact ⟨.of_called hcalled rfl hk, .inr (by rw [← hdump]; rfl)⟩
  · obtain ⟨hcalled, hk, ⟨e, he, -⟩ | hdump⟩ := instructions_inv hc (Action.mapErr_ok_inv hi)
    · cases he
    · cases hd
      exact ⟨.of_called hcalled rfl hk, .inr (by rw [← hdump]; rfl)⟩

theorem classifyFrom_inv {index : Nat} {progs : List Prog}
    {r : Except Error (List (AttachedProg sha256))} (hc : env.CalmFrom w.calls)
    (h : classifyFrom env index progs w = (r, w')) :
    Reads w w' ∧ ((∃ e, r = .error e ∧ ¬ env.FaultlessFrom w.calls) ∨
      r = classifyAll index progs) := by
  induction progs generalizing index w w' r with
  | nil => cases h; exact ⟨.refl _, .inr rfl⟩
  | cons prog progs ih =>
    rw [classifyFrom] at h
    have hstep : ∀ {e : AttachedProg sha256} {rest : Except Error (List (AttachedProg sha256))},
        (prog.dump.mapError Error.ops >>= classifyDump index) = .ok e →
        rest = classifyAll (index + 1) progs →
        (rest >>= fun rest => .ok (e :: rest)) = classifyAll index (prog :: progs) := by
      intro e rest he hrest
      rw [classifyAll, hrest, ← bind_assoc, he]
      rfl
    rcases Action.bind_inv h with ⟨e, hone, rfl⟩ | ⟨first, w₁, hone, hmore⟩
    · obtain ⟨hreads, ⟨e', -, hf⟩ | hpure⟩ := classify_inv (hc _ (Nat.le_refl _)) hone
      · exact ⟨hreads, .inl ⟨e, rfl, fun hno => hf (hno _ (Nat.le_refl _))⟩⟩
      · refine ⟨hreads, .inr ?_⟩
        rw [classifyAll, ← bind_assoc, ← hpure]
        rfl
    · obtain ⟨hreads, ⟨e', he, -⟩ | hpure⟩ := classify_inv (hc _ (Nat.le_refl _)) hone
      · cases he
      rcases Action.bind_inv hmore with ⟨e, hrest, rfl⟩ | ⟨rest, w₂, hrest, hend⟩
      · obtain ⟨hreads', hout⟩ := ih (hc.mono hreads.trail.calls) hrest
        refine ⟨hreads.trans hreads', hout.imp ?_ fun hpure' => hstep hpure.symm hpure'⟩
        rintro ⟨e', -, hf⟩
        exact ⟨e, rfl, fun hno => hf (hno.mono hreads.trail.calls)⟩
      · obtain ⟨hreads', ⟨e', he, -⟩ | hpure'⟩ := ih (hc.mono hreads.trail.calls) hrest
        · cases he
        · cases hend
          exact ⟨hreads.trans hreads', .inr (hstep hpure.symm hpure')⟩

/-! ## Plans -/

/-- What the plan of a pass starts from: when nothing is attached, every cached lineage is missing.
-/
def planEntry (world : World sha256) (id : Identity) : CacheEntry sha256 :=
  if world.kernel.attached = [] then ⟨(world.cache.get id).lineages, true⟩ else world.cache.get id

/-- The plan of a pass, which no failing call changes. -/
structure Planned (source : Nat → Except NonceError (BitVec 64)) (id : Identity)
    (rules : List DeviceRule) (w : World sha256) (progs : List (AttachedProg sha256))
    (blocks : List (Block sha256)) (drawn : Nat) : Prop where
  accessible : ∀ prog ∈ w.kernel.attached, prog.accessible = true
  multi : w.kernel.Multi
  cached : w.kernel.attached = [] → (w.cache.get id).lineages ≠ []
  classified : classifyAll 0 w.kernel.attached = .ok progs
  plan : planPass source (planEntry w id) progs rules w.drawn = (.ok (planOf blocks), drawn)
  blocks : PassBlocks source (planEntry w id) progs rules w.drawn blocks drawn

theorem except_bind_ok {ε α β : Type} {x : Except ε α} {f : α → Except ε β} {b : β}
    (h : x >>= f = .ok b) : ∃ a, x = .ok a ∧ f a = .ok b := by
  cases x with
  | error e => cases h
  | ok a => exact ⟨a, rfl, h⟩

theorem classifyDump_index {index : Nat} {dump : Dump} {prog : AttachedProg sha256}
    (h : classifyDump index dump = .ok prog) : prog.index = index := by
  unfold classifyDump at h
  split at h
  · cases h
  · split at h
    · cases h
    · cases h; rfl
    · obtain ⟨u, -, h⟩ := except_bind_ok h
      cases h; rfl

theorem classifyAll_index {index : Nat} {attached : List Prog} {progs : List (AttachedProg sha256)}
    (h : classifyAll index attached = .ok progs) :
    progs.map AttachedProg.index = List.range' index attached.length := by
  induction attached generalizing index progs with
  | nil => cases h; rfl
  | cons prog attached ih =>
    rw [classifyAll] at h
    obtain ⟨dump, -, h₁⟩ := except_bind_ok h
    obtain ⟨first, hfirst, h₂⟩ := except_bind_ok h₁
    obtain ⟨rest, hrest, h₃⟩ := except_bind_ok h₂
    cases h₃
    rw [List.map_cons, ih hrest, classifyDump_index hfirst]
    rfl

/-- Without a program, everything is missing. -/
theorem missingLineages_nil (lineages : List (CachedLineage sha256)) :
    missingLineages lineages [] [] = lineages := by
  induction lineages with
  | nil => rfl
  | cons lineage lineages ih => simp [missingLineages, ih]

theorem planPass_nil (source : Nat → Except NonceError (BitVec 64))
    (lineages : List (CachedLineage sha256)) (rules : List DeviceRule) :
    planPass source ⟨lineages, true⟩ [] rules =
      addRebuild source PassPlan.empty lineages rules := by
  have hmain : planRules source ([] : List (WrapperGroup sha256)) [] rules =
      pure PassPlan.empty := by
    unfold planRules
    split <;> rfl
  have hgroups : groupWrappers ([] : List (AttachedProg sha256)) = ([], []) := rfl
  simp only [planPass, hgroups, hmain, if_true, missingLineages_nil]
  rfl

/-! ## Committing -/

/-- Records `entry` for `id`. -/
def World.record (world : World sha256) (id : Identity) (entry : CacheEntry sha256)
    (event : Event) :
    World sha256 :=
  ({ world with cache := world.cache.set id entry }).note event

theorem commit_inv {id : Identity} {blocks : List (Block sha256)} {rebuilding : Bool}
    {r : Except Error Unit} (hs : Sound blocks w.kernel.attached.length)
    (hc : env.CalmFrom w.calls)
    (h : commit env id w.kernel.attached (planOf blocks) rebuilding w = (r, w')) :
    ∃ w₁, Executed env blocks r (w.record id ⟨blocks.map Block.lineage, rebuilding⟩ .commit) w₁ ∧
      w' = if rebuilding && r.isOk
        then w₁.record id ⟨blocks.map Block.lineage, false⟩ .rebuilt else w₁ := by
  rw [commit, planOf_lineages, Action.bind_of_ok (show remember id _ _ w =
    (.ok (), w.record id ⟨blocks.map Block.lineage, rebuilding⟩ .commit) from rfl)] at h
  rcases Action.bind_inv h with ⟨e, hx, rfl⟩ | ⟨u, w₁, hx, hend⟩
  · exact ⟨w', execute_inv hs hc hx, by simp [Except.isOk, Except.toBool]⟩
  · refine ⟨w₁, ?_, ?_⟩
    · cases rebuilding <;> (cases hend; exact execute_inv hs hc hx)
    · cases rebuilding <;> (cases hend; rfl)

/-! ## Passes -/

/-- Nothing was changed; nonces may have been drawn. -/
structure Looked (w w' : World sha256) : Prop where
  kernel : w'.kernel = w.kernel
  replace : w'.replace = w.replace
  cache : w'.cache = w.cache
  calls : w.calls ≤ w'.calls
  log : Logged (fun point => point.event.reads = true ∧ point.attached = w.kernel.attached ∧
    point.cache = w.cache) w w'

theorem Reads.looked {w₁ : World sha256} (h : Reads w w₁) (drawn : Nat) :
    Looked w { w₁ with drawn := drawn } :=
  ⟨h.kernel, h.replace, h.trail.cache, h.trail.calls,
    h.trail.log.mono fun _ hp => ⟨hp.1.1, hp.1.2, hp.2⟩⟩

/-- A pass that ended with an error before it changed anything. -/
structure Stopped (env : Env) (id : Identity) (rules : List DeviceRule) (r : Except Error Unit)
    (w w' : World sha256) : Prop where
  error : ∃ e, r = .error e
  looked : Looked w w'
  /-- Without a failing call, there is no plan. -/
  reason : env.FaultlessFrom w.calls → ∀ progs blocks drawn,
    ¬ Planned env.nonce id rules w progs blocks drawn

/-- A plan that changes nothing. -/
def Idle (blocks : List (Block sha256)) : Prop :=
  (planOf blocks).loads = [] ∧ (planOf blocks).steps = []

/-- What holds at a moment of a pass that commits to the blocks. -/
inductive PassPoint (env : Env) (id : Identity) (blocks : List (Block sha256)) (rebuilding : Bool)
    (w : World sha256) (point : Point sha256) : Prop
  | read (hevent : point.event.reads = true) (hnow : point.attached = w.kernel.attached)
      (hcache : point.cache = w.cache)
  | commit (hevent : point.event = .commit) (hnow : point.attached = w.kernel.attached)
      (hcache : point.cache = w.cache.set id ⟨blocks.map Block.lineage, rebuilding⟩)
  | change (hevent : point.event.changes = true)
      (hnow : Reached w.kernel.attached (edits (partsIn w blocks)) point.attached)
      (hcache : point.cache = w.cache.set id ⟨blocks.map Block.lineage, rebuilding⟩)
      (hfit : LoadsFit env blocks ∨ point.attached = w.kernel.attached) (hidle : ¬ Idle blocks)
  | rebuilt (hevent : point.event = .rebuilt)
      (hnow : point.attached.Perm ((partsIn w blocks).map Part.standin))
      (hcache : point.cache = w.cache.set id ⟨blocks.map Block.lineage, false⟩)
      (hfit : LoadsFit env blocks)

/-- What a pass does that commits to the blocks. -/
structure Passed (env : Env) (id : Identity) (blocks : List (Block sha256)) (rebuilding : Bool)
    (drawn : Nat) (r : Except Error Unit) (w w' : World sha256) : Prop where
  now : Reached w.kernel.attached (edits (partsIn w blocks)) w'.kernel.attached
  multi : w'.kernel.Multi
  /-- Without an error, exactly the stand-ins are attached. -/
  ok : r = .ok () → LoadsFit env blocks ∧
    w'.kernel.attached.Perm ((partsIn w blocks).map Part.standin)
  complete : env.FaultlessFrom w.calls → LoadsFit env blocks → r = .ok ()
  fit : LoadsFit env blocks ∨ w'.kernel.attached = w.kernel.attached
  idle : Idle blocks → r = .ok () ∧ w'.kernel = w.kernel
  cache : w'.cache = w.cache.set id ⟨blocks.map Block.lineage, rebuilding && !r.isOk⟩
  drawn : w'.drawn = drawn
  calls : w.calls ≤ w'.calls
  log : Logged (PassPoint env id blocks rebuilding w) w w'

theorem FilterCache.set_set (cache : FilterCache sha256) (id : Identity)
    (entry entry' : CacheEntry sha256) :
    (cache.set id entry).set id entry' = cache.set id entry' := by
  funext other
  simp only [FilterCache.set]
  split <;> rfl

theorem Planned.sound {source : Nat → Except NonceError (BitVec 64)} {id : Identity}
    {rules : List DeviceRule} {progs : List (AttachedProg sha256)} {blocks : List (Block sha256)}
    {drawn : Nat} (h : Planned source id rules w progs blocks drawn) :
    Sound blocks w.kernel.attached.length := by
  have hindex := classifyAll_index h.classified
  have hlength : progs.length = w.kernel.attached.length := by
    have := congrArg List.length hindex
    simpa using this
  rw [← hlength]
  refine h.blocks.accounts.sound ?_
  rw [hindex, hlength, List.range_eq_range']

theorem Passed.of_commit {id : Identity} {rebuilding : Bool} {r : Except Error Unit}
    {blocks : List (Block sha256)} {w₁ : World sha256}
    (hs : Sound blocks w.kernel.attached.length) (hm : w.kernel.Multi) (hlook : Looked w w₁)
    (hc : env.CalmFrom w.calls)
    (h : commit env id w.kernel.attached (planOf blocks) rebuilding w₁ = (r, w')) :
    Passed env id blocks rebuilding w₁.drawn r w w' := by
  have hk := hlook.kernel
  rw [← hk] at h
  obtain ⟨w₂, hx, rfl⟩ := commit_inv (by rw [hk]; exact hs) (hc.mono hlook.calls) h
  have hstart : (w₁.record id ⟨blocks.map Block.lineage, rebuilding⟩ .commit).kernel = w.kernel :=
    hk
  have hcache : (w₁.record id ⟨blocks.map Block.lineage, rebuilding⟩ .commit).cache =
      w.cache.set id ⟨blocks.map Block.lineage, rebuilding⟩ :=
    congrArg (FilterCache.set · id _) hlook.cache
  have hparts : partsIn (w₁.record id ⟨blocks.map Block.lineage, rebuilding⟩ .commit) blocks =
      partsIn w blocks := by
    unfold partsIn
    rw [hstart]
  obtain ⟨htrail, hnow, hmulti, hok, hfit, hcomplete, hidle⟩ := hx
  rw [hstart, hparts] at htrail hnow
  rw [hstart] at hmulti hfit
  rw [hparts] at hok
  have hread : Logged (PassPoint env id blocks rebuilding w) w w₁ :=
    hlook.log.mono fun _ hp => .read hp.1 hp.2.1 hp.2.2
  have hcommit : Logged (PassPoint env id blocks rebuilding w) w₁
      (w₁.record id ⟨blocks.map Block.lineage, rebuilding⟩ .commit) :=
    .of_point rfl (.commit rfl (by rw [hk]) hcache)
  have hchange : Logged (PassPoint env id blocks rebuilding w)
      (w₁.record id ⟨blocks.map Block.lineage, rebuilding⟩ .commit) w₂ := by
    by_cases hi : Idle blocks
    · rw [(hidle hi.1 hi.2).2]
      exact .refl _ _
    · rcases hfit with hfit | ⟨hstill, -⟩
      · exact htrail.log.mono fun _ hp =>
          .change hp.1.1 hp.1.2 (hp.2.trans hcache) (.inl hfit) hi
      · exact hstill.log.mono fun point hp =>
          .change hp.1.1 (by rw [hp.1.2]; exact reached_start _) (hp.2.trans hcache)
            (.inr hp.1.2) hi
  have hlog := hread.trans (hcommit.trans hchange)
  have hcalls : w.calls ≤ w₂.calls := Nat.le_trans hlook.calls htrail.calls
  have hidle' : Idle blocks → r = .ok () ∧ w₂.kernel = w.kernel := fun hi => by
    obtain ⟨hr, heq⟩ := hidle hi.1 hi.2
    exact ⟨hr, by rw [heq]; exact hstart⟩
  have hfit' := hfit.imp_right And.right
  have hcomplete' : env.FaultlessFrom w.calls → LoadsFit env blocks → r = .ok () := fun hf =>
    hcomplete (hf.mono hlook.calls)
  cases hend : (rebuilding && r.isOk) with
  | false =>
    rw [if_neg Bool.false_ne_true]
    refine ⟨hnow, hmulti hm, hok, hcomplete', hfit', hidle', ?_, htrail.drawn, hcalls, hlog⟩
    rw [htrail.cache, hcache]
    cases rebuilding with
    | false => rfl
    | true => rw [Bool.true_and] at hend; rw [hend]; rfl
  | true =>
    rw [if_pos rfl]
    obtain ⟨rfl, hisOk⟩ := Bool.and_eq_true_iff.mp hend
    have hr : r = .ok () := by
      cases r with
      | error e => cases hisOk
      | ok u => rfl
    have hcache' : (w₂.record id ⟨blocks.map Block.lineage, false⟩ .rebuilt).cache =
        w.cache.set id ⟨blocks.map Block.lineage, false⟩ := by
      show w₂.cache.set id _ = _
      rw [htrail.cache, hcache, FilterCache.set_set]
    refine ⟨hnow, hmulti hm, hok, hcomplete', hfit', hidle', ?_, htrail.drawn, hcalls,
      hlog.trans (.of_point rfl (.rebuilt rfl (hok hr).2 hcache' (hok hr).1))⟩
    rw [hcache', hisOk]
    rfl

/-! ## Taking a pass apart -/

theorem drawing_inv {α : Type} {x : Action Nat Error α} {r : Except Error α}
    (h : drawing x w = (r, w')) :
    x w.drawn = (r, w'.drawn) ∧ w' = { w with drawn := w'.drawn } := by
  cases h
  exact ⟨rfl, rfl⟩

/-- A pass that has a plan and commits to it; `w₁` is the world when it does. -/
structure Commits (env : Env) (id : Identity) (rules : List DeviceRule) (r : Except Error Unit)
    (w w' : World sha256) (progs : List (AttachedProg sha256)) (blocks : List (Block sha256))
    (w₁ : World sha256) : Prop where
  planned : Planned env.nonce id rules w progs blocks w₁.drawn
  looked : Looked w w₁
  run : commit env id w.kernel.attached (planOf blocks) (planEntry w id).rebuilding w₁ = (r, w')

/-- A pass stops before it has changed anything, or it has a plan and commits to it. -/
def Outcome (env : Env) (id : Identity) (rules : List DeviceRule) (r : Except Error Unit)
    (w w' : World sha256) : Prop :=
  Stopped env id rules r w w' ∨
    (∃ progs blocks drawn, Planned env.nonce id rules w progs blocks drawn) ∧
      ∀ progs blocks drawn, Planned env.nonce id rules w progs blocks drawn →
        Passed env id blocks (planEntry w id).rebuilding drawn r w w'

/-- Committing to what was planned. -/
theorem planned_commit {id : Identity} {rules : List DeviceRule} {r : Except Error Unit}
    {progs : List (AttachedProg sha256)} {w₁ : World sha256} (hreads : Reads w w₁)
    (ha : ∀ prog ∈ w.kernel.attached, prog.accessible = true) (hm : w.kernel.Multi)
    (hcached : w.kernel.attached = [] → (w.cache.get id).lineages ≠ [])
    (hclassified : classifyAll 0 w.kernel.attached = .ok progs)
    (h : (drawing (planPass env.nonce (planEntry w id) progs rules) >>= fun plan =>
      commit env id w.kernel.attached plan (planEntry w id).rebuilding) w₁ = (r, w')) :
    Stopped env id rules r w w' ∨ ∃ progs blocks w₁, Commits env id rules r w w' progs
      blocks w₁ := by
  rcases Action.bind_inv h with ⟨e, hplan, rfl⟩ | ⟨plan, w₂, hplan, hcommit⟩
  · obtain ⟨hp, heq⟩ := drawing_inv hplan
    rw [hreads.trail.drawn] at hp
    refine .inl ⟨⟨e, rfl⟩, heq ▸ hreads.looked _, fun _ progs' blocks drawn hplanned => ?_⟩
    have hsame := hplanned.classified
    rw [hclassified] at hsame
    cases hsame
    have := hplanned.plan
    rw [hp] at this
    cases this
  · obtain ⟨hp, heq⟩ := drawing_inv hplan
    rw [hreads.trail.drawn] at hp
    obtain ⟨blocks, rfl, hblocks⟩ := planPass_ok hp
    exact .inr ⟨progs, blocks, w₂, ⟨ha, hm, hcached, hclassified, hp, hblocks⟩,
      heq ▸ hreads.looked _, hcommit⟩

/-- There is at most one plan. -/
theorem Planned.unique {source : Nat → Except NonceError (BitVec 64)} {id : Identity}
    {rules : List DeviceRule} {progs progs' : List (AttachedProg sha256)}
    {blocks blocks' : List (Block sha256)} {drawn drawn' : Nat}
    (h : Planned source id rules w progs blocks drawn)
    (h' : Planned source id rules w progs' blocks' drawn') :
    planOf blocks = planOf blocks' ∧ drawn = drawn' := by
  have hsame := h.classified
  rw [h'.classified] at hsame
  cases hsame
  have hplan := h.plan
  rw [h'.plan] at hplan
  obtain ⟨hblocks, rfl⟩ := Prod.mk.inj hplan
  exact ⟨(Except.ok.inj hblocks).symm, rfl⟩

theorem all_accessible {attached : List Prog}
    (h : ¬ 0 < attached.length - (attached.filter (·.accessible)).length) :
    (∀ prog ∈ attached, prog.accessible = true) ∧ attached.filter (·.accessible) = attached := by
  have hle := List.length_filter_le (·.accessible) attached
  have heq : (attached.filter (·.accessible)).length = attached.length := by omega
  have hall := List.length_filter_eq_length_iff.mp heq
  exact ⟨hall, List.filter_eq_self.mpr hall⟩

theorem Stopped.of_looked {id : Identity} {rules : List DeviceRule} {e : Error} {w₁ : World sha256}
    (h : Reads w w₁) (hreason : env.FaultlessFrom w.calls → ∀ progs blocks drawn,
      ¬ Planned env.nonce id rules w progs blocks drawn) :
    Stopped env id rules (.error e) w w₁ :=
  ⟨⟨e, rfl⟩, h.looked w₁.drawn, hreason⟩

/-- A pass stops or commits. -/
theorem setRules_commits {id : Identity} {rules : List DeviceRule} {r : Except Error Unit}
    (hc : env.CalmFrom w.calls) (h : setRules env id rules w = (r, w')) :
    Stopped env id rules r w w' ∨
    ∃ progs blocks w₁, Commits env id rules r w w' progs blocks w₁ := by
  rw [setRules] at h
  rcases Action.bind_inv h with ⟨e, hq, rfl⟩ | ⟨attached, w₁, hq, h₁⟩
  · obtain ⟨cause, hq, -⟩ := Action.mapErr_error_inv hq
    obtain ⟨hcalled, hk, ⟨attached, hok, -⟩ | ⟨e', -, hf⟩⟩ := query_inv (hc _ (Nat.le_refl _)) hq
    · cases hok
    · refine .inl (.of_looked (.of_called hcalled rfl hk) fun hno => ?_)
      rw [hno _ (Nat.le_refl _)] at hf
      cases hf
  obtain ⟨hcalled, hk, ⟨attached', hok, hprogs, htotal, hinacc, hflags⟩ | ⟨e', he, -⟩⟩ :=
    query_inv (hc _ (Nat.le_refl _)) (Action.mapErr_ok_inv hq)
  swap
  · cases he
  cases hok
  have hreads : Reads w w₁ := .of_called hcalled rfl hk
  have hc₁ := hc.mono hreads.trail.calls
  by_cases hi : 0 < attached.inaccessible
  · rw [if_pos hi] at h₁
    cases h₁
    refine .inl (.of_looked hreads fun _ progs blocks drawn hplanned => ?_)
    rw [hinacc, hprogs, List.filter_eq_self.mpr hplanned.accessible] at hi
    omega
  rw [if_neg hi] at h₁
  rw [hinacc, hprogs] at hi
  obtain ⟨ha, hfilter⟩ := all_accessible hi
  rw [hfilter] at hprogs
  by_cases ht : attached.total = 0
  · -- Nothing is attached: a rebuild.
    rw [if_pos ht] at h₁
    have hempty : w.kernel.attached = [] := List.length_eq_zero_iff.mp (htotal ▸ ht)
    have hentry : planEntry w id = ⟨(w.cache.get id).lineages, true⟩ := by
      rw [planEntry, if_pos hempty]
    rw [rebuild, Action.bind_of_ok (show Action.get w₁ = (.ok w₁, w₁) from rfl)] at h₁
    simp only [hreads.trail.cache] at h₁
    by_cases hl : (w.cache.get id).lineages = []
    · rw [if_pos hl] at h₁
      cases h₁
      exact .inl (.of_looked hreads fun _ _ _ _ hplanned => hplanned.cached hempty hl)
    · rw [if_neg hl, ← planPass_nil, ← hentry] at h₁
      refine planned_commit hreads ha (fun hne => absurd hempty hne) (fun _ => hl)
        (by rw [hempty]; rfl) ?_
      rw [hempty, hentry]
      rwa [hentry] at h₁
  rw [if_neg ht] at h₁
  have hne : w.kernel.attached ≠ [] := fun h => ht (by rw [htotal, h]; rfl)
  have hentry : planEntry w id = w.cache.get id := by rw [planEntry, if_neg hne]
  by_cases hm : attached.attachFlags &&& fAllowMulti = 0
  · rw [if_pos hm] at h₁
    cases h₁
    refine .inl (.of_looked hreads fun _ _ _ _ hplanned => ?_)
    exact hplanned.multi hne (hflags ▸ hm)
  rw [if_neg hm, hprogs] at h₁
  rw [hflags] at hm
  rcases Action.bind_inv h₁ with ⟨e, hclass, rfl⟩ | ⟨progs, w₂, hclass, h₂⟩
  · obtain ⟨hreads', ⟨e', -, hf⟩ | hpure⟩ := classifyFrom_inv hc₁ hclass
    · exact .inl (.of_looked (hreads.trans hreads') fun hno =>
        absurd (hno.mono hreads.trail.calls) hf)
    · refine .inl (.of_looked (hreads.trans hreads') fun _ _ _ _ hplanned => ?_)
      have := hplanned.classified
      rw [← hpure] at this
      cases this
  · obtain ⟨hreads', ⟨e', he, -⟩ | hpure⟩ := classifyFrom_inv hc₁ hclass
    · cases he
    have hreads₂ := hreads.trans hreads'
    rw [Action.bind_of_ok (show Action.get w₂ = (.ok w₂, w₂) from rfl)] at h₂
    simp only [hreads₂.trail.cache, ← hentry] at h₂
    exact planned_commit hreads₂ ha (fun _ => hm) (fun he => absurd he hne) hpure.symm h₂

/-- **Taking a pass apart.** -/
theorem setRules_inv {id : Identity} {rules : List DeviceRule} {r : Except Error Unit}
    (hc : env.CalmFrom w.calls) (h : setRules env id rules w = (r, w')) :
    Outcome env id rules r w w' := by
  rcases setRules_commits hc h with hstop | ⟨progs, blocks, w₁, hcommits⟩
  · exact .inl hstop
  · refine .inr ⟨⟨progs, blocks, _, hcommits.planned⟩, fun progs' blocks' drawn hplanned => ?_⟩
    obtain ⟨hplan, rfl⟩ := hcommits.planned.unique hplanned
    have hrun := hcommits.run
    rw [hplan] at hrun
    exact .of_commit hplanned.sound hplanned.multi hcommits.looked hc hrun

end V2
end Sda
