import DeviceAccess.Lib.Trace
import DeviceAccess.Lib.Triple
import DeviceAccess.Processor.History
import DeviceAccess.Processor.Reconcile

/-!
# What the processor's operations do

For each operation, which acts it makes and what it knows when it makes them:

* `Revokes`: applying the empty set at recorded cgroups, and releasing the records whose cgroup is
  gone.
* `Reconciles`: everything in a reconcile before the rules are set. A reconcile is such a run, and
  then at most one grant, directly after the run was recorded in the cgroup (`Granting`).

Between two acts of the processor the directories can change in any way, so what is known of them
has to be something that such changes keep (`Calm`): that a directory is gone for good
(`Dirs.Dead`), not that it is there.
-/

namespace Sda
namespace Processor

open Sda.Filter Policy Docker
open V2 (Identity)

/-! ## Directories -/

namespace Dirs

variable {dirs : Dirs} {identity : Identity}

/-- The directory was there and is gone. It does not come back. -/
def Dead (dirs : Dirs) (identity : Identity) : Prop := identity ∈ dirs.born ∧ ¬ dirs.Exists identity

theorem Exists.born (h : dirs.Exists identity) : identity ∈ dirs.born := dirs.inode_born _ _ h

theorem Exists.not_dead (h : dirs.Exists identity) : ¬ dirs.Dead identity := fun hdead => hdead.2 h

theorem born_change (change : DirChange) (h : identity ∈ dirs.born) :
    identity ∈ (dirs.change change).born := by
  cases change with
  | remove path => exact h
  | create path inode =>
    rw [Dirs.change]
    split
    · exact List.mem_cons_of_mem _ h
    · exact h

private theorem inode_create {path : String} {inode : BitVec 64}
    (h : dirs.inode path = none ∧ ⟨path, inode⟩ ∉ dirs.born) :
    (dirs.change (.create path inode)).inode = Function.update dirs.inode path (some inode) := by
  rw [Dirs.change, if_pos h]

theorem Dead.change (h : dirs.Dead identity) (change : DirChange) :
    (dirs.change change).Dead identity := by
  refine ⟨born_change change h.1, fun hexists => h.2 ?_⟩
  rw [Exists] at hexists ⊢
  cases change with
  | remove path =>
    have hinode : (dirs.change (.remove path)).inode = Function.update dirs.inode path none := rfl
    rw [hinode] at hexists
    by_cases hpath : identity.path = path
    · rw [hpath, Function.update_self] at hexists
      cases hexists
    · rwa [Function.update_of_ne hpath] at hexists
  | create path inode =>
    by_cases hfresh : dirs.inode path = none ∧ ⟨path, inode⟩ ∉ dirs.born
    · rw [inode_create hfresh] at hexists
      by_cases hpath : identity.path = path
      · subst hpath
        rw [Function.update_self] at hexists
        cases hexists
        exact absurd h.1 hfresh.2
      · rwa [Function.update_of_ne hpath] at hexists
    · rwa [Dirs.change, if_neg hfresh] at hexists

theorem born_changeAll (changes : List DirChange) (h : identity ∈ dirs.born) :
    identity ∈ (dirs.changeAll changes).born := by
  induction changes generalizing dirs with
  | nil => exact h
  | cons change changes ih => exact ih (born_change change h)

theorem Dead.changeAll (h : dirs.Dead identity) (changes : List DirChange) :
    (dirs.changeAll changes).Dead identity := by
  induction changes generalizing dirs with
  | nil => exact h
  | cons change changes ih => exact ih (h.change change)

end Dirs

/-! ## Worlds -/

section Worlds

variable {σ ν : Type} {host : Host σ ν} {P Q : Scene → Act → Prop}
  {start world world' : World σ} {act : Act} {identity : Identity}

/-- From `start` the world came to where it is by acts that were allowed. -/
def Goes (host : Host σ ν) (P : Scene → Act → Prop) (start world : World σ) : Prop :=
  ∃ past, Run (Act.apply host.parse) P start.scene past world.scene ∧
    world.past = past ++ start.past

namespace Goes

theorem refl : Goes host P start start := ⟨[], .nil _, rfl⟩

theorem perform (h : Goes host P start world) (allowed : P world.scene act) :
    Goes host P start (world.perform host act) := by
  obtain ⟨past, hrun, hpast⟩ := h
  exact ⟨_, .cons hrun allowed, by rw [World.perform, hpast, List.cons_append]⟩

theorem of_eq (h : Goes host P start world) (hscene : world'.scene = world.scene)
    (hpast : world'.past = world.past) : Goes host P start world' := by
  rw [Goes, hscene, hpast]
  exact h

theorem trans (h : Goes host P start world) (h' : Goes host P world world') :
    Goes host P start world' := by
  obtain ⟨past, hrun, hpast⟩ := h
  obtain ⟨later, hrun', hlater⟩ := h'
  exact ⟨_, hrun.append hrun', by rw [hlater, hpast, List.append_assoc]⟩

theorem mono (h : Goes host P start world) (hpq : ∀ scene act, P scene act → Q scene act) :
    Goes host Q start world := by
  obtain ⟨past, hrun, hpast⟩ := h
  exact ⟨past, hrun.mono hpq, hpast⟩

theorem invariant (I : Scene → Prop) (h : Goes host P start world)
    (hstep : ∀ scene act, I scene → P scene act → I (act.apply host.parse scene))
    (hs : I start.scene) :
    I world.scene := by
  obtain ⟨past, hrun, -⟩ := h
  exact (hrun.invariant I hstep hs).1

end Goes

theorem dead_apply {scene : Scene} (h : scene.dirs.Dead identity) (act : Act) :
    (act.apply host.parse scene).dirs.Dead identity := by
  cases act with
  | dirs changes => exact h.changeAll changes
  | _ => exact h

theorem born_apply {scene : Scene} (h : identity ∈ scene.dirs.born) (act : Act) :
    identity ∈ (act.apply host.parse scene).dirs.born := by
  cases act with
  | dirs changes => exact Dirs.born_changeAll changes h
  | _ => exact h

/-- A directory that is there was not gone before. -/
theorem Goes.alive (h : Goes host P start world) (hexists : world.scene.dirs.Exists identity) :
    ¬ start.scene.dirs.Dead identity := fun hdead =>
  hexists.not_dead (h.invariant (fun scene => scene.dirs.Dead identity)
    (fun _ act hd _ => dead_apply hd act) hdead)

/-- The property is about the scene and its past only, and it stays when directories change. -/
structure Calm (host : Host σ ν) (K : World σ → Prop) : Prop where
  same : ∀ world world' : World σ, world'.scene = world.scene → world'.past = world.past →
    K world → K world'
  dirs : ∀ world changes, K world → K (world.perform host (.dirs changes))

namespace Calm

variable {K L : World σ → Prop}

theorem and (hk : Calm host K) (hl : Calm host L) : Calm host fun world => K world ∧ L world where
  same world world' hscene hpast h :=
    ⟨hk.same world world' hscene hpast h.1, hl.same world world' hscene hpast h.2⟩
  dirs world changes h := ⟨hk.dirs world changes h.1, hl.dirs world changes h.2⟩

theorem goes (hdirs : ∀ scene changes, P scene (.dirs changes)) :
    Calm host (Goes host P start) where
  same _ _ hscene hpast h := h.of_eq hscene hpast
  dirs _ _ h := h.perform (hdirs _ _)

theorem history (I : Lifecycles → Prop) : Calm host fun world => I world.scene.history where
  same _ _ hscene _ h := by rwa [hscene]
  dirs _ _ h := h

end Calm

/-! ## Calls -/

variable {K : World σ → Prop} {ε : Type} {err : ε → World σ → Prop}

theorem call_triple (hk : Calm host K) : Triple K (call host) (fun _ => K) err := fun world h =>
  hk.same (world.perform host (.dirs (host.changes world.calls))) _ rfl rfl (hk.dirs _ _ h)

theorem perform_triple (K' : World σ → Prop) (h : ∀ world, K world → K' (world.perform host act)) :
    Triple K (perform host act) (fun _ => K') err := Triple.modify h

theorem clock_triple (hk : Calm host K) : Triple K (clock host) (fun _ => K) err :=
  (call_triple hk).bind fun _ => .pure _ fun _ h => h

theorem inspect_triple (hk : Calm host K) (id : ContainerId) :
    Triple K (inspect host id) (fun _ => K) (fun _ => K) :=
  (call_triple hk).bind fun _ => .ofExcept _ (fun _ _ _ h => h) fun _ _ _ h => h

theorem openHandle_triple (hk : Calm host K) (path : String) :
    Triple K (openHandle host path)
      (fun identity world => K world ∧ identity.path = path ∧ world.scene.dirs.Exists identity)
      (fun error world => K world ∧
        (error.isNotFound = true → world.scene.dirs.inode path = none)) := by
  refine (call_triple hk).bind fun number => ?_
  cases hfault : host.openFault number path with
  | some error =>
    refine .fail error fun world h => ⟨h, fun hfound => ?_⟩
    rw [host.openFault_found number path error hfault] at hfound
    cases hfound
  | none =>
    refine Triple.get.bind fun seen => ?_
    cases hinode : seen.scene.dirs.inode path with
    | none => exact .fail _ fun world ⟨hseen, h⟩ => ⟨h, fun _ => hseen ▸ hinode⟩
    | some inode => exact .pure _ fun world ⟨hseen, h⟩ => ⟨h, rfl, hseen ▸ hinode⟩

/-- A recorded cgroup is opened only as the same directory, and reported gone only if it is. -/
theorem openRecorded_triple (hk : Calm host K) (id : ContainerId) (identity : Identity) :
    Triple K (openRecorded host id identity)
      (fun recorded world => K world ∧
        (recorded = .open identity ∧ world.scene.dirs.Exists identity ∨
          recorded = .gone ∧ ¬ world.scene.dirs.Exists identity))
      (fun _ => K) := by
  refine Triple.attempt_bind (openHandle_triple hk identity.path) (fun found => ?_) fun error => ?_
  · refine Triple.ite (fun heq => ?_) fun hne => ?_
    · exact .pure _ fun world h => ⟨h.1, .inl ⟨by rw [heq], heq ▸ h.2.2⟩⟩
    · refine .pure _ fun world h => ⟨h.1, .inr ⟨rfl, fun hsame => hne ?_⟩⟩
      obtain ⟨-, hpath, hexists⟩ := h
      rw [Dirs.Exists, hpath] at hexists
      rw [Dirs.Exists, hexists] at hsame
      cases found
      cases identity
      cases hsame
      cases hpath
      rfl
  · refine Triple.ite (fun hfound => ?_) fun _ => .fail _ fun world h => h.1
    refine .pure _ fun world h => ⟨h.1, .inr ⟨rfl, fun hexists => ?_⟩⟩
    rw [Dirs.Exists, h.2 hfound] at hexists
    cases hexists

/-- The call is recorded with the answer it got. -/
theorem setDeviceRules_triple (hk : Calm host K) {id : ContainerId} {version : CgroupVersion}
    {identity : Identity} {rules : List DeviceRule} (K' : Except Sda.Error Unit → World σ → Prop)
    (hset : ∀ world result, K world →
      K' result (world.perform host (.set ⟨id, identity, version, rules, result⟩))) :
    Triple K (setDeviceRules host id version identity rules) K' err := by
  refine (call_triple hk).bind fun number => ?_
  exact (perform_triple _ fun world h =>
    hset world (host.setDeviceRules number version identity rules) h).bind
    fun _ => .pure _ fun _ h => h

theorem verifyPinned_triple (hk : Calm host K) (id : ContainerId) (state : ContainerState)
    (identity : Identity) (grants : Bool) :
    Triple K (verifyPinned host id state identity grants) (fun _ => K) (fun _ => K) := by
  refine (Triple.mapErr (inspect_triple hk id)).bind fun again => ?_
  refine Triple.ite (fun _ => .fail _ fun _ h => h) fun _ => ?_
  refine (call_triple hk).bind fun number => ?_
  refine (Triple.ofExcept _ (fun _ _ _ h => h) fun _ _ _ h => h).bind fun _ => ?_
  refine Triple.ite (fun _ => .pure _ fun _ h => h) fun _ => ?_
  refine (call_triple hk).bind fun number => ?_
  refine (Triple.ofExcept _ (fun _ _ _ h => h) fun _ _ _ h => h).bind fun member => ?_
  exact Triple.ite (fun _ => .pure _ fun _ h => h) fun _ => .fail _ fun _ h => h

theorem cgroupGone_triple (hk : Calm host K) (identity : Identity) :
    Triple K (cgroupGone host identity)
      (fun gone world => K world ∧ (gone = true → ¬ world.scene.dirs.Exists identity))
      (fun _ => K) := by
  refine (call_triple hk).bind fun number => ?_
  cases host.statFault number identity.path with
  | some errno => exact .fail _ fun _ h => h
  | none =>
    refine Triple.get.bind fun seen => .pure _ fun world ⟨hseen, h⟩ => ⟨h, fun hgone hexists => ?_⟩
    subst hseen
    exact of_decide_eq_true hgone hexists

end Worlds

/-! ## Granting and records -/

/-- The container was granted devices at the cgroup, and the empty set has not been applied there
since. -/
def Granted (sets : List SetCall) (id : ContainerId) (identity : Identity) : Prop :=
  ∃ later call earlier, sets = later ++ call :: earlier ∧ call.id = id ∧ call.identity = identity ∧
    call.rules ≠ [] ∧ ∀ after ∈ later, after.identity = identity → after.empties = false

theorem granted_cons {call : SetCall} {sets : List SetCall} {id : ContainerId}
    {identity : Identity} :
    Granted (call :: sets) id identity ↔ call.id = id ∧ call.identity = identity ∧ call.rules ≠ [] ∨
      Granted sets id identity ∧ (call.identity = identity → call.empties = false) := by
  constructor
  · rintro ⟨later, granting, earlier, hsplit, hid, hidentity, hrules, hlater⟩
    cases later with
    | nil =>
      cases hsplit
      exact .inl ⟨hid, hidentity, hrules⟩
    | cons last later =>
      cases hsplit
      obtain ⟨hlast, hlater⟩ := List.forall_mem_cons.mp hlater
      exact .inr ⟨⟨later, granting, earlier, rfl, hid, hidentity, hrules, hlater⟩, hlast⟩
  · rintro (⟨hid, hidentity, hrules⟩ | ⟨⟨later, granting, earlier, rfl, hid, hidentity, hrules,
      hlater⟩, hlast⟩)
    · exact ⟨[], call, sets, rfl, hid, hidentity, hrules, nofun⟩
    · exact ⟨call :: later, granting, earlier, rfl, hid, hidentity, hrules,
        List.forall_mem_cons.mpr ⟨hlast, hlater⟩⟩

/-- Nothing of the container is granted at the directory: it was emptied, or it is gone. -/
def Left (scene : Scene) (id : ContainerId) (identity : Identity) : Prop :=
  ¬ Granted scene.sets id identity ∨ scene.dirs.Dead identity

/-- The history is tidy, and what it names are directories there have been. -/
structure Scene.Good (scene : Scene) : Prop where
  tidy : scene.history.Tidy
  known : ∀ id identity, scene.history.Named id identity → identity ∈ scene.dirs.born

/-- What an act must meet so that no grant goes off record. -/
def Safe (scene : Scene) : Act → Prop
  | .verify id startedAt cgroup _ =>
    startedAt ≠ "" ∧ cgroup.identity ∈ scene.dirs.born ∧
      ∀ record identity, scene.history.lookup id startedAt = some record →
        record.identity = some identity →
        identity ≠ cgroup.identity → Left scene id identity
  | .release record =>
    scene.history.Copies record ∧
      ∀ identity, record.identity = some identity → ¬ scene.dirs.Exists identity
  | .set call => call.rules ≠ [] → scene.history.Named call.id call.identity
  | _ => True

theorem Scene.Good.apply {parse : String → Option Timestamp} {scene : Scene} {act : Act}
    (h : scene.Good) (hsafe : Safe scene act) : (act.apply parse scene).Good := by
  have hages : ∀ {later : Lifecycles}, scene.history.Ages later →
      (Scene.mk scene.dirs later scene.sets).Good := by
    refine fun hages => ⟨h.tidy.ages hages, ?_⟩
    rintro id identity ⟨record, hrecord, hid⟩
    obtain ⟨old, hold, hage⟩ := forall₂_exists_left (hages id) hrecord
    exact h.known id identity ⟨old, hold, hage.identity ▸ hid⟩
  cases act with
  | dirs changes =>
    exact ⟨h.tidy, fun id identity hn => Dirs.born_changeAll changes (h.known id identity hn)⟩
  | provisional id now =>
    refine ⟨h.tidy.provisional, ?_⟩
    rintro other identity ⟨record, hrecord, hid⟩
    rcases Lifecycles.mem_provisional hrecord with ⟨old, hold, hage, -⟩ | hnone
    · exact h.known other identity ⟨old, hold, hage.identity ▸ hid⟩
    · rw [LifecycleRecord.identity, hnone] at hid
      cases hid
  | verify id startedAt cgroup now =>
    obtain ⟨hstarted, hborn, -⟩ := hsafe
    refine ⟨h.tidy.verify hstarted, ?_⟩
    rintro other identity ⟨record, hrecord, hid⟩
    rcases Lifecycles.mem_verify hrecord with hold | ⟨-, -, hcgroup, -⟩
    · exact h.known other identity ⟨record, hold, hid⟩
    · rw [LifecycleRecord.identity, hcgroup] at hid
      cases hid
      exact hborn
  | terminate id eventTime => exact hages Lifecycles.ages_terminate
  | markTerminal id startedAt => exact hages Lifecycles.ages_markTerminal
  | markRevoked id startedAt => exact hages Lifecycles.ages_markRevoked
  | release released =>
    refine ⟨h.tidy.release, ?_⟩
    rintro other identity ⟨record, hrecord, hid⟩
    exact h.known other identity ⟨record, (Lifecycles.mem_release.mp hrecord).1, hid⟩
  | set call => exact ⟨h.tidy, h.known⟩

theorem Goes.good {σ ν : Type} {host : Host σ ν} {start world : World σ}
    (h : Goes host Safe start world) (hgood : start.scene.Good) : world.scene.Good :=
  h.invariant Scene.Good (fun _ _ hg hsafe => hg.apply hsafe) hgood

/-! ## Revocation -/

/-- What revoking does: a record in `drop` goes when its cgroup is gone, and the empty set is
applied at the cgroup of a record in `strip` that was not gone at the start. -/
inductive Revokes (start : Scene) (drop strip : List LifecycleRecord) (scene : Scene) : Act → Prop
  | dirs (changes : List DirChange) : Revokes start drop strip scene (.dirs changes)
  | release {record : LifecycleRecord} (mem : record ∈ drop) (copies : scene.history.Copies record)
    (gone : ∀ identity, record.identity = some identity → ¬ scene.dirs.Exists identity) :
    Revokes start drop strip scene (.release record)
  | markRevoked (id : ContainerId) (startedAt : String) :
    Revokes start drop strip scene (.markRevoked id startedAt)
  | set {record : LifecycleRecord} {call : SetCall} (mem : record ∈ strip)
    (identity : record.identity = some call.identity) (rules : call.rules = [])
    (alive : ¬ start.dirs.Dead call.identity) : Revokes start drop strip scene (.set call)

section Revocation

variable {σ ν : Type} {host : Host σ ν} {start world : World σ} {drop strip : List LifecycleRecord}
  {record : LifecycleRecord}

theorem Revokes.of_goes {P : Scene → Act → Prop} {scene : Scene} {act : Act}
    (hgoes : Goes host P start world) (h : Revokes world.scene drop strip scene act) :
    Revokes start.scene drop strip scene act := by
  cases h with
  | dirs changes => exact .dirs changes
  | release mem copies gone => exact .release mem copies gone
  | markRevoked id startedAt => exact .markRevoked id startedAt
  | set mem identity rules alive =>
    refine .set mem identity rules fun hdead => alive ?_
    exact hgoes.invariant (fun scene => scene.dirs.Dead _)
      (fun _ act hd _ => dead_apply hd act) hdead

/-- While records are only revoked, a copy stays one. -/
theorem Goes.copies (h : Goes host (Revokes start.scene drop strip) start world)
    (hcopies : start.scene.history.Copies record) : world.scene.history.Copies record := by
  refine h.invariant (fun scene => scene.history.Copies record)
    (fun scene act hc hact => ?_) hcopies
  cases hact with
  | release => exact hc.release
  | markRevoked => exact hc.ages Lifecycles.ages_markRevoked
  | dirs | set => exact hc

theorem revokeAt_triple (hdrop : record ∈ drop) (hstrip : record ∈ strip)
    (hcopies : start.scene.history.Copies record) :
    Triple (Goes host (Revokes start.scene drop strip) start) (revokeAt host record)
      (fun _ => Goes host (Revokes start.scene drop strip) start)
      (fun _ => Goes host (Revokes start.scene drop strip) start) := by
  rw [revokeAt]
  cases hcgroup : record.cgroup with
  | none => exact .pure _ fun _ h => h
  | some cgroup =>
    have hid : record.identity = some cgroup.identity := by
      rw [LifecycleRecord.identity, hcgroup]; rfl
    refine (openRecorded_triple (Calm.goes fun _ => .dirs) record.containerId cgroup.identity).bind
      fun recorded => ?_
    cases recorded with
    | gone =>
      refine perform_triple _ fun world h => h.1.perform (.release hdrop (h.1.copies hcopies) ?_)
      intro identity hidentity
      obtain rfl : cgroup.identity = identity := Option.some.inj (hid.symm.trans hidentity)
      rcases h.2 with ⟨heq, -⟩ | ⟨-, hgone⟩
      · cases heq
      · exact hgone
    | «open» identity =>
      refine Triple.of_pre (fun world => (identity = cgroup.identity ∧
        ¬ start.scene.dirs.Dead cgroup.identity) ∧
          Goes host (Revokes start.scene drop strip) start world)
        (.lift fun hsame => ?_) fun world h => ?_
      · obtain ⟨rfl, halive⟩ := hsame
        refine (setDeviceRules_triple (Calm.goes fun _ => .dirs)
          (fun _ => Goes host (Revokes start.scene drop strip) start)
          fun world result h => h.perform (.set hstrip hid rfl halive)).bind fun result => ?_
        cases result with
        | ok => exact perform_triple _ fun world h => h.perform (.markRevoked _ _)
        | error error =>
          exact Triple.ite (fun _ => perform_triple _ fun world h => h.perform (.markRevoked _ _))
            fun _ => .fail _ fun _ h => h
      · rcases h.2 with ⟨heq, hexists⟩ | ⟨heq, -⟩
        · cases heq
          exact ⟨⟨rfl, h.1.alive hexists⟩, h.1⟩
        · cases heq

theorem revokeEach_triple (records : List LifecycleRecord)
    (hdrop : ∀ record ∈ records, record ∈ drop) (hstrip : ∀ record ∈ records, record ∈ strip)
    (hcopies : ∀ record ∈ records, start.scene.history.Copies record) :
    Triple (Goes host (Revokes start.scene drop strip) start) (revokeEach host records)
      (fun _ => Goes host (Revokes start.scene drop strip) start)
      (fun _ => Goes host (Revokes start.scene drop strip) start) := by
  induction records with
  | nil => exact .pure _ fun _ h => h
  | cons record records ih =>
    obtain ⟨hdrop, hdrops⟩ := List.forall_mem_cons.mp hdrop
    obtain ⟨hstrip, hstrips⟩ := List.forall_mem_cons.mp hstrip
    obtain ⟨hcopy, hrest⟩ := List.forall_mem_cons.mp hcopies
    refine (Triple.attempt (fun _ => Goes host (Revokes start.scene drop strip) start)
      (revokeAt_triple hdrop hstrip hcopy)).bind fun revoked => ?_
    refine (ih hdrops hstrips hrest).bind fun errors => ?_
    cases revoked with
    | ok => exact .pure _ fun _ h => h
    | error => exact .pure _ fun _ h => h

/-! ## Sweep -/

/-- What `sweep` does from `start`: it drops any record whose cgroup is gone, and revokes ended
runs. -/
def Sweeps (start : Scene) : Scene → Act → Prop :=
  Revokes start start.history.all (start.history.all.filter (·.state = .terminal))

theorem sweepRecord_triple (config : Runtime) (now : Timestamp)
    (hmem : record ∈ start.scene.history.all) (hcopies : start.scene.history.Copies record) :
    Triple (Goes host (Sweeps start.scene) start) (sweepRecord host config now record)
      (fun _ => Goes host (Sweeps start.scene) start)
      (fun _ => Goes host (Sweeps start.scene) start) := by
  have hrelease : ∀ world, Goes host (Sweeps start.scene) start world →
      (∀ identity, record.identity = some identity → ¬ world.scene.dirs.Exists identity) →
      Goes host (Sweeps start.scene) start (world.perform host (.release record)) :=
    fun world h hgone => h.perform (.release hmem (h.copies hcopies) hgone)
  rw [sweepRecord]
  cases hcgroup : record.cgroup with
  | none =>
    refine Triple.ite (fun _ => ?_) fun _ => .pure _ fun _ h => h
    refine (perform_triple _ fun world h => hrelease world h fun identity hidentity => ?_).bind
      fun _ => .pure _ fun _ h => h
    rw [LifecycleRecord.identity, hcgroup] at hidentity
    cases hidentity
  | some cgroup =>
    have hid : record.identity = some cgroup.identity := by
      rw [LifecycleRecord.identity, hcgroup]; rfl
    refine Triple.attempt_bind (cgroupGone_triple (Calm.goes fun _ => .dirs) cgroup.identity)
      (fun gone => ?_)
      fun _ => .pure _ fun _ h => h
    cases gone with
    | true =>
      refine (perform_triple _ fun world h => hrelease world h.1 fun identity hidentity => ?_).bind
        fun _ => .pure _ fun _ h => h
      obtain rfl : cgroup.identity = identity := Option.some.inj (hid.symm.trans hidentity)
      exact h.2 rfl
    | false =>
      refine Triple.ite (fun hended => ?_) fun _ => .pure _ fun _ h => h.1
      have hterminal : record.state = .terminal := by
        simp only [Bool.and_eq_true, decide_eq_true_eq] at hended
        exact hended.1.1
      have hstrip : record ∈ start.scene.history.all.filter (·.state = .terminal) :=
        List.mem_filter.mpr ⟨hmem, decide_eq_true hterminal⟩
      refine (Triple.attempt (fun _ => Goes host (Sweeps start.scene) start) ?_).bind
        fun _ => .pure _ fun _ h => h
      exact (revokeAt_triple hmem hstrip hcopies).of_pre _ fun _ h => h.1

theorem sweepRecords_triple (config : Runtime) (now : Timestamp) (records : List LifecycleRecord)
    (hmem : ∀ record ∈ records, record ∈ start.scene.history.all)
    (hcopies : ∀ record ∈ records, start.scene.history.Copies record) :
    Triple (Goes host (Sweeps start.scene) start) (sweepRecords host config now records)
      (fun _ => Goes host (Sweeps start.scene) start)
      (fun _ => Goes host (Sweeps start.scene) start) := by
  induction records with
  | nil => exact .pure _ fun _ h => h
  | cons record records ih =>
    obtain ⟨hmem, hmems⟩ := List.forall_mem_cons.mp hmem
    obtain ⟨hcopy, hrest⟩ := List.forall_mem_cons.mp hcopies
    refine (sweepRecord_triple config now hmem hcopy).bind fun gone => ?_
    exact (ih hmems hrest).bind fun released => .pure _ fun _ h => h

theorem Revokes.safe {start scene : Scene} {act : Act} (h : Revokes start drop strip scene act) :
    Safe scene act := by
  cases h with
  | release mem copies gone => exact ⟨copies, gone⟩
  | set mem identity rules alive => exact fun hrules => absurd rules hrules
  | dirs | markRevoked => trivial

theorem sweep_goes (host : Host σ ν) (hgood : start.scene.Good) (config : Runtime) :
    Goes host (Sweeps start.scene) start (Op.run host start (.sweep config)) := by
  have hmem : ∀ record ∈ start.scene.history.all, start.scene.history.Copies record := by
    intro record hrecord
    obtain ⟨id, -, hid⟩ := List.mem_flatMap.mp hrecord
    exact hgood.tidy.copies hid
  have hcalm : Calm host fun world => Goes host (Sweeps start.scene) start world ∧
      world.scene.history = start.scene.history :=
    (Calm.goes fun _ => .dirs).and (Calm.history (· = start.scene.history))
  have htriple : Triple (fun world => Goes host (Sweeps start.scene) start world ∧
      world.scene.history = start.scene.history) (sweep host config)
      (fun _ => Goes host (Sweeps start.scene) start)
      (fun _ => Goes host (Sweeps start.scene) start) := by
    refine (clock_triple hcalm).bind fun now => Triple.get.bind fun seen => ?_
    refine Triple.of_pre (fun world => seen.scene.history = start.scene.history ∧
      Goes host (Sweeps start.scene) start world) (.lift fun hseen => ?_)
      fun world ⟨hseen, h⟩ => ⟨hseen ▸ h.2, h.1⟩
    rw [hseen]
    exact sweepRecords_triple config now _ (fun _ h => h) hmem
  exact htriple.after ⟨.refl, rfl⟩

/-! ## Terminate -/

/-- What `terminate` does from `start`: it marks what the event ended, and revokes that. -/
def Terminates (parse : String → Option Timestamp) (start : Scene) (id : ContainerId)
    (eventTime : Timestamp) (scene : Scene) (act : Act) : Prop :=
  act = .terminate id eventTime ∨
    Revokes start (start.history.terminate parse id eventTime).2
      (start.history.terminate parse id eventTime).2
      scene act

/-- A copy of what `terminate` ended is one. -/
theorem copies_terminate (parse : String → Option Timestamp) {history : Lifecycles}
    (htidy : history.Tidy) (id : ContainerId) (eventTime : Timestamp) :
    ∀ ended ∈ (history.terminate parse id eventTime).2,
      (history.terminate parse id eventTime).1.Copies ended := by
  intro ended hended
  obtain ⟨-, -, -, hfrom⟩ := Lifecycles.terminate_eq parse history id eventTime
  obtain ⟨old, hold, rfl, -⟩ := hfrom ended hended
  exact ((htidy.copies hold).ages Lifecycles.ages_terminate).ended

theorem terminate_goes (host : Host σ ν) (hgood : start.scene.Good) (config : Runtime)
    (id : ContainerId) (eventTime : Timestamp) :
    Goes host (Terminates host.parse start.scene id eventTime) start
      (Op.run host start (.terminate config id eventTime)) := by
  have hfirst : Goes host (Terminates host.parse start.scene id eventTime) start
      (start.perform host (.terminate id eventTime)) := Goes.refl.perform (.inl rfl)
  have hcopies := copies_terminate host.parse hgood.tidy id eventTime
  -- What the event ended is revoked in the history that has it marked.
  have hrevoke : ∀ records, (∀ record ∈ records,
      record ∈ (start.scene.history.terminate host.parse id eventTime).2) →
      Triple (· = start.perform host (.terminate id eventTime)) (revokeEach host records)
        (fun _ => Goes host (Terminates host.parse start.scene id eventTime) start)
        (fun _ => Goes host (Terminates host.parse start.scene id eventTime) start) :=
          fun records hrecords =>
    (revokeEach_triple records hrecords hrecords fun record h =>
      hcopies record (hrecords record h)).weaken
      (fun world h => h ▸ .refl)
      (fun _ world h => hfirst.trans (h.mono fun _ _ hact => .inr (hact.of_goes hfirst)))
      fun _ world h => hfirst.trans (h.mono fun _ _ hact => .inr (hact.of_goes hfirst))
  have htriple : Triple (· = start) (terminate host config id eventTime)
      (fun _ => Goes host (Terminates host.parse start.scene id eventTime) start)
      (fun _ => Goes host (Terminates host.parse start.scene id eventTime) start) := by
    refine Triple.get.bind fun seen => ?_
    refine Triple.of_pre (fun world => seen = start ∧ world = start) (.lift fun hseen => ?_)
      fun world ⟨hseen, hstart⟩ => ⟨hseen ▸ hstart, hstart⟩
    subst hseen
    refine (perform_triple (· = seen.perform host (.terminate id eventTime)) fun world h =>
      h ▸ rfl).bind
      fun _ => ?_
    refine Triple.ite (fun _ => .pure _ fun world h => h ▸ hfirst) fun _ => ?_
    refine (hrevoke _ fun record h => List.mem_of_mem_filter h).bind fun errors => ?_
    exact .ofExcept _ (fun _ _ _ h => h) fun _ _ _ h => h
  exact htriple.after rfl

end Revocation

/-! ## Reconcile -/

/-- What a reconcile does before it grants, given the answer of its first inspect. -/
inductive Reconciles (start : Scene) (id : ContainerId)
    (answer : Except DockerError ContainerInspect) (scene : Scene) : Act → Prop
  | revokes {records : List LifecycleRecord} {act : Act}
    (h : Revokes start records records scene act) :
    Reconciles start id answer scene act
  | provisional (now : Timestamp) : Reconciles start id answer scene (.provisional id now)
  | markTerminal {info : ContainerInspect} (startedAt : String) (answered : answer = .ok info)
    (ended : liveState info = none) : Reconciles start id answer scene (.markTerminal id startedAt)
  | empties {call : SetCall} (rules : call.rules = []) :
    Reconciles start id answer scene (.set call)
  | verify {info : ContainerInspect} {state : ContainerState} {cgroup : RunCgroup} (now : Timestamp)
    (answered : answer = .ok info) (live : liveState info = some state)
    (started : state.startedAt ≠ "") (born : cgroup.identity ∈ scene.dirs.born)
    (left : ∀ record identity, scene.history.lookup id state.startedAt = some record →
      record.identity = some identity → identity ≠ cgroup.identity → Left scene id identity) :
    Reconciles start id answer scene (.verify id state.startedAt cgroup now)

theorem Reconciles.safe {start scene : Scene} {id : ContainerId}
    {answer : Except DockerError ContainerInspect} {act : Act}
    (h : Reconciles start id answer scene act) : Safe scene act := by
  cases h with
  | revokes h => exact h.safe
  | empties rules => exact fun hrules => absurd rules hrules
  | verify now answered live started born left => exact ⟨started, born, left⟩
  | provisional | markTerminal => trivial

section Reconcile

variable {σ ν : Type} {host : Host σ ν} {start world : World σ} {id : ContainerId}
  {answer : Except DockerError ContainerInspect} {info : ContainerInspect} {state : ContainerState}

/-- The last change of the history recorded the run in the cgroup. -/
def Recording (id : ContainerId) (startedAt : String) (cgroup : RunCgroup) (world : World σ) :
    Prop :=
  ∃ scene now, (scene, Act.verify id startedAt cgroup now) ∈ world.past ∧
    world.scene.history = scene.history.verify id startedAt cgroup now

/-- A reconcile that ends with a grant: directly after the run was recorded in the cgroup. -/
def Granting (host : Host σ ν) (id : ContainerId) (answer : Except DockerError ContainerInspect)
    (start world : World σ) : Prop :=
  ∃ (before : World σ) (call : SetCall) (info : ContainerInspect) (state : ContainerState)
    (cgroup : RunCgroup),
    Goes host (Reconciles start.scene id answer) start before ∧ answer = .ok info ∧
      liveState info = some state ∧ call.id = id ∧ call.identity = cgroup.identity ∧
      Recording id state.startedAt cgroup before ∧
      world.scene = (Act.set call).apply host.parse before.scene ∧
      world.past = (before.scene, .set call) :: before.past

/-- A reconcile from `start` came to `world`, with or without a grant. -/
def Reconciled (host : Host σ ν) (id : ContainerId) (answer : Except DockerError ContainerInspect)
    (start world : World σ) : Prop :=
  Goes host (Reconciles start.scene id answer) start world ∨ Granting host id answer start world

theorem Calm.born (identity : Identity) :
    Calm host fun world : World σ => identity ∈ world.scene.dirs.born where
  same _ _ hscene _ h := by rwa [hscene]
  dirs _ _ h := Dirs.born_changeAll _ h

theorem Calm.left (id : ContainerId) (identity : Identity) :
    Calm host fun world : World σ => Left world.scene id identity where
  same _ _ hscene _ h := by rwa [hscene]
  dirs _ _ h := h.imp_right fun hdead => hdead.changeAll _

theorem Calm.recording (startedAt : String) (cgroup : RunCgroup) :
    Calm host fun world : World σ => Recording id startedAt cgroup world where
  same _ _ hscene hpast h := by rwa [Recording, hscene, hpast]
  dirs _ _ h := by
    obtain ⟨scene, now, hmem, heq⟩ := h
    exact ⟨scene, now, List.mem_cons_of_mem _ hmem, heq⟩

theorem calm_reconciles (host : Host σ ν) (start : World σ) (id : ContainerId)
    (answer : Except DockerError ContainerInspect) :
    Calm host (Goes host (Reconciles start.scene id answer) start) :=
  Calm.goes fun scene changes =>
    .revokes (Revokes.dirs changes : Revokes start.scene [] [] scene (.dirs changes))

/-- What a run leaves in its previous cgroup: nothing. -/
theorem revokeMoved_triple (id : ContainerId) {K : World σ → Prop} (hk : Calm host K)
    (hset : ∀ world call, call.rules = [] → K world → K (world.perform host (.set call)))
    (record : LifecycleRecord) (previous : RunCgroup) :
    Triple (fun world => K world ∧ previous.identity ∈ world.scene.dirs.born)
      (revokeMoved host record previous)
      (fun _ world => K world ∧ Left world.scene id previous.identity) (fun _ => K) := by
  refine ((openRecorded_triple (hk.and (Calm.born previous.identity)) record.containerId
    previous.identity).weaken (fun _ h => h) (fun _ _ h => h) fun _ _ h => h.1).bind fun recorded =>
      ?_
  cases recorded with
  | gone =>
    refine .pure _ fun world ⟨⟨h, hborn⟩, hgone⟩ => ⟨h, .inr ⟨hborn, ?_⟩⟩
    rcases hgone with ⟨heq, -⟩ | ⟨-, hgone⟩
    · cases heq
    · exact hgone
  | «open» identity =>
    refine Triple.of_pre (fun world => identity = previous.identity ∧ K world) (.lift fun heq => ?_)
      fun world ⟨⟨h, _⟩, hopen⟩ => ?_
    · subst heq
      refine (setDeviceRules_triple hk (fun result world => K world ∧
        ((SetCall.mk record.containerId previous.identity previous.version [] result).empties =
          true →
          Left world.scene id previous.identity)) fun world result h =>
            ⟨hset world _ rfl h, fun hempties => ?_⟩).bind
        fun result => ?_
      · refine .inl fun hgranted => ?_
        rcases granted_cons.mp hgranted with ⟨-, -, hrules⟩ | ⟨-, hlast⟩
        · exact hrules rfl
        · rw [hlast rfl] at hempties
          cases hempties
      · cases result with
        | ok => exact .pure _ fun world h => ⟨h.1, h.2 rfl⟩
        | error error =>
          refine Triple.ite (fun hmissing => ?_) fun _ => .fail _ fun _ h => h.1
          exact .pure _ fun world h => ⟨h.1, h.2 hmissing⟩
    · rcases hopen with ⟨heq, -⟩ | ⟨heq, -⟩
      · cases heq
        exact ⟨rfl, h⟩
      · cases heq

/-- Whatever the run was recorded in before, nothing of it is granted there. -/
def LeftAll (id : ContainerId) (startedAt : String) (identity : Identity) (scene : Scene) : Prop :=
  ∀ record previous, scene.history.lookup id startedAt = some record →
    record.identity = some previous →
    previous ≠ identity → Left scene id previous

theorem Calm.leftAll (id : ContainerId) (startedAt : String) (identity : Identity) :
    Calm host fun world : World σ => LeftAll id startedAt identity world.scene where
  same _ _ hscene _ h := by rwa [hscene]
  dirs world changes h record previous hlookup hprevious hne :=
    (h record previous hlookup hprevious hne).imp_right fun hdead => hdead.changeAll changes

theorem goes_good (hgood : start.scene.Good)
    (h : Goes host (Reconciles start.scene id answer) start world) :
    world.scene.Good := (h.mono fun _ _ hact => hact.safe).good hgood

theorem leavePrevious_triple (hgood : start.scene.Good) (identity : Identity) :
    Triple
      (fun world => Goes host (Reconciles start.scene id answer) start world ∧
        identity ∈ world.scene.dirs.born)
      (leavePrevious host id state identity)
      (fun _ world => (Goes host (Reconciles start.scene id answer) start world ∧
        identity ∈ world.scene.dirs.born) ∧ LeftAll id state.startedAt identity world.scene)
      (fun _ => Goes host (Reconciles start.scene id answer) start) := by
  have hcalm := (calm_reconciles host start id answer).and (Calm.born identity)
  refine Triple.get.bind fun seen => ?_
  cases hlookup : seen.scene.history.lookup id state.startedAt with
  | none =>
    refine .pure _ fun world ⟨hseen, h⟩ => ⟨h, fun record previous hrecord => ?_⟩
    subst hseen
    rw [hlookup] at hrecord
    cases hrecord
  | some moved =>
    cases hcgroup : moved.cgroup with
    | none =>
      simp only [hcgroup]
      refine .pure _ fun world ⟨hseen, h⟩ => ⟨h, fun record previous hrecord hprevious => ?_⟩
      subst hseen
      cases hlookup.symm.trans hrecord
      rw [LifecycleRecord.identity, hcgroup] at hprevious
      cases hprevious
    | some previous =>
      have hmoved : moved.identity = some previous.identity := by
        rw [LifecycleRecord.identity, hcgroup]
        rfl
      simp only [hcgroup]
      refine Triple.ite (fun heq => ?_) fun hne => ?_
      · refine .pure _ fun world ⟨hseen, h⟩ => ⟨h, fun record other hrecord hother hdiff => ?_⟩
        subst hseen
        cases hlookup.symm.trans hrecord
        exact absurd ((Option.some.inj (hother.symm.trans hmoved)).trans heq) hdiff
      · refine Triple.of_pre (fun world => Goes host (Reconciles start.scene id answer) start seen ∧
          (Goes host (Reconciles start.scene id answer) start world ∧
            identity ∈ world.scene.dirs.born) ∧
            world = seen) (.lift fun hgoes => ?_) fun world ⟨hseen, h⟩ => ⟨hseen ▸ h.1, h, hseen⟩
        have hborn := (goes_good hgood hgoes).known id previous.identity
          ⟨moved, List.mem_of_find?_eq_some hlookup, hmoved⟩
        have hcalm := hcalm.and (Calm.history (· = seen.scene.history))
        refine ((revokeMoved_triple id hcalm ?_ moved previous).weaken ?_ (fun _ _ h => h)
          fun _ _ h => h.1.1).bind fun _ => ?_
        · exact fun world call hrules h => ⟨⟨h.1.1.perform (.empties hrules), h.1.2⟩, h.2⟩
        · rintro world ⟨h, rfl⟩
          exact ⟨⟨h, rfl⟩, hborn⟩
        · refine (verifyPinned_triple (hcalm.and (Calm.left id previous.identity)) id state
            identity true).weaken
            (fun _ h => h) (fun _ world h => ⟨h.1.1, fun record other hrecord hother _ => ?_⟩)
              fun _ _ h => h.1.1.1
          rw [h.1.2, hlookup] at hrecord
          cases hrecord
          rw [← Option.some.inj (hmoved.symm.trans hother)]
          exact h.2

/-- The rules are set only after the run was recorded in the cgroup. -/
theorem applyOpened_triple (hgood : start.scene.Good) (answered : answer = .ok info)
    (live : liveState info = some state) (started : state.startedAt ≠ "") (privileged : Bool)
    (rules : List DeviceRule) (version : CgroupVersion) (identity : Identity) :
    Triple
      (fun world => Goes host (Reconciles start.scene id answer) start world ∧
        identity ∈ world.scene.dirs.born)
      (applyOpened host id state privileged rules version identity)
      (fun _ => Reconciled host id answer start) (fun _ => Reconciled host id answer start) := by
  have hcalm := (calm_reconciles host start id answer).and (Calm.born identity)
  refine ((verifyPinned_triple hcalm id state identity (!rules.isEmpty)).weaken (fun _ h => h)
    (fun _ _ h => h) fun _ _ h => .inl h.1).bind fun _ => ?_
  refine ((leavePrevious_triple hgood identity).weaken (fun _ h => h) (fun _ _ h => h)
    fun _ _ h => .inl h).bind fun _ => ?_
  refine (clock_triple (hcalm.and (Calm.leftAll _ _ _))).bind fun now => ?_
  refine (perform_triple (fun world => Goes host (Reconciles start.scene id answer) start world ∧
    Recording id state.startedAt ⟨identity, version, privileged⟩ world) ?_).bind fun _ => ?_
  · rintro world ⟨⟨h, hborn⟩, hleft⟩
    exact ⟨h.perform (.verify now answered live started hborn hleft), world.scene, now,
      List.mem_cons_self, rfl⟩
  · refine (setDeviceRules_triple ((calm_reconciles host start id answer).and (Calm.recording _ _))
      (fun _ => Reconciled host id answer start) fun world result h => ?_).bind fun applied => ?_
    · exact .inr ⟨world, _, info, state, _, h.1, answered, live, rfl, rfl, h.2, rfl, rfl⟩
    · exact .ofExcept _ (fun _ _ _ h => h) fun _ _ _ h => h

theorem applyPinned_triple (hgood : start.scene.Good) (answered : answer = .ok info)
    (live : liveState info = some state) (started : state.startedAt ≠ "") (privileged : Bool)
    (rules : List DeviceRule) :
    Triple (Goes host (Reconciles start.scene id answer) start)
      (applyPinned host id state privileged rules)
      (fun _ => Reconciled host id answer start) (fun _ => Reconciled host id answer start) := by
  have hcalm := calm_reconciles host start id answer
  have hfrom : ∀ {α : Type} (r : Except Error α), Triple
      (Goes host (Reconciles start.scene id answer) start)
      (.ofExcept r) (fun _ => Goes host (Reconciles start.scene id answer) start)
      (fun _ => Reconciled host id answer start) := fun r =>
    .ofExcept r (fun _ _ _ h => h) fun _ _ _ h => .inl h
  refine (call_triple hcalm).bind fun number => (hfrom _).bind fun _ => ?_
  refine (call_triple hcalm).bind fun number => (hfrom _).bind fun (path, version) => ?_
  have hopen : Triple (Goes host (Reconciles start.scene id answer) start)
      (Action.mapErr Error.openCgroup (openHandle host path))
      (fun identity world => Goes host (Reconciles start.scene id answer) start world ∧
        identity ∈ world.scene.dirs.born)
      (fun _ => Reconciled host id answer start) :=
    Triple.mapErr
      ((openHandle_triple hcalm path).weaken (fun _ h => h) (fun _ _ h => ⟨h.1, h.2.2.born⟩)
      fun _ _ h => .inl h.1)
  exact hopen.bind (applyOpened_triple hgood answered live started privileged rules version)

theorem reconcileRunning_triple (hgood : start.scene.Good) (answered : answer = .ok info)
    (live : liveState info = some state) (started : state.startedAt ≠ "") (config : Runtime) :
    Triple (Goes host (Reconciles start.scene id answer) start)
      (reconcileRunning host config id info state)
      (fun _ => Reconciled host id answer start) (fun _ => Reconciled host id answer start) := by
  have hdesired : Triple (Goes host (Reconciles start.scene id answer) start)
      (desiredRules host config info : Action (World σ) Error Desired)
      (fun _ => Goes host (Reconciles start.scene id answer) start)
      (fun _ => Reconciled host id answer start) := fun world h => h.of_eq rfl rfl
  refine hdesired.bind fun desired => ?_
  refine Triple.ite (fun _ => .ofExcept _ (fun _ _ _ h => .inl h) fun _ _ _ h => .inl h) fun _ => ?_
  refine (Triple.attempt (fun _ => Reconciled host id answer start)
    (applyPinned_triple hgood answered live started _ _)).bind fun applied => ?_
  cases applied with
  | ok => exact .ofExcept _ (fun _ _ _ h => h) fun _ _ _ h => h
  | error => exact .ofExcept _ (fun _ _ _ h => h) fun _ _ _ h => h

/-- A revocation inside a reconcile. -/
theorem Goes.revokes {middle : World σ} {records : List LifecycleRecord}
    (hmiddle : Goes host (Reconciles start.scene id answer) start middle)
    (h : Goes host (Revokes middle.scene records records) middle world) :
    Goes host (Reconciles start.scene id answer) start world :=
  hmiddle.trans (h.mono fun _ _ hact => .revokes (hact.of_goes hmiddle))

theorem revokeRuns_triple (hgood : start.scene.Good) :
    Triple (Goes host (Reconciles start.scene id answer) start) (revokeRuns host id)
      (fun _ => Goes host (Reconciles start.scene id answer) start)
      (fun _ => Goes host (Reconciles start.scene id answer) start) := by
  refine (clock_triple (calm_reconciles host start id answer)).bind fun now => ?_
  refine (perform_triple _ fun world h => h.perform (.provisional now)).bind fun _ => ?_
  refine Triple.get.bind fun seen => ?_
  refine Triple.of_pre (fun world => Goes host (Reconciles start.scene id answer) start seen ∧
    world = seen)
    (.lift fun hgoes => ?_) fun world ⟨hseen, h⟩ => ⟨hseen ▸ h, hseen⟩
  have htidy := (goes_good hgood hgoes).tidy
  exact (revokeEach_triple _ (fun _ h => h) (fun _ h => h)
    fun record h => htidy.copies (List.mem_of_mem_filter h)).weaken
    (fun world h => h ▸ .refl) (fun _ _ h => hgoes.revokes h) fun _ _ h => hgoes.revokes h

theorem revokeAfterInspectFailure_triple (hgood : start.scene.Good) (dryRun : Bool)
    (inspectError : Error) :
    Triple (Goes host (Reconciles start.scene id answer) start)
      (revokeAfterInspectFailure host id dryRun inspectError)
      (fun _ => Goes host (Reconciles start.scene id answer) start)
      (fun _ => Goes host (Reconciles start.scene id answer) start) := by
  have herrors : Triple (Goes host (Reconciles start.scene id answer) start)
      (if dryRun then pure [] else revokeRuns host id)
      (fun _ => Goes host (Reconciles start.scene id answer) start)
      (fun _ => Goes host (Reconciles start.scene id answer) start) :=
    .ite (fun _ => .pure _ fun _ h => h) fun _ => revokeRuns_triple hgood
  exact herrors.bind fun errors => .ite (fun _ => .fail _ fun _ h => h) fun _ =>
    .fail _ fun _ h => h

theorem revokeEnded_triple (hgood : start.scene.Good) (answered : answer = .ok info)
    (ended : liveState info = none) (startedAt : String) :
    Triple (Goes host (Reconciles start.scene id answer) start) (revokeEnded host id startedAt)
      (fun _ => Goes host (Reconciles start.scene id answer) start)
      (fun _ => Goes host (Reconciles start.scene id answer) start) := by
  refine Triple.get.bind fun seen => ?_
  cases hfound : (seen.scene.history.lookup id startedAt).filter (·.hasIdentity) with
  | none => exact .pure _ fun _ h => h.2
  | some record =>
    have hlookup := (Option.filter_eq_some_iff.mp hfound).1
    refine Triple.of_pre (fun world => Goes host (Reconciles start.scene id answer) start seen ∧
      world = seen)
      (.lift fun hgoes => ?_) fun world ⟨hseen, h⟩ => ⟨hseen ▸ h, hseen⟩
    have hcopies := (goes_good hgood hgoes).tidy.copies (List.mem_of_find?_eq_some hlookup)
    have hmarked := hgoes.perform (.markTerminal startedAt answered ended)
    refine (perform_triple (· = seen.perform host (.markTerminal id startedAt)) fun world h =>
      h ▸ rfl).bind
      fun _ => ?_
    exact (revokeAt_triple (List.mem_singleton_self _) (List.mem_singleton_self _)
      (hcopies.ages Lifecycles.ages_markTerminal).ended).weaken
      (fun world h => h ▸ .refl) (fun _ _ h => hmarked.revokes h) fun _ _ h => hmarked.revokes h

theorem reconcileLocked_triple (hgood : start.scene.Good) (config : Runtime)
    (hstarted : ∀ info state, answer = .ok info → liveState info = some state →
      state.startedAt ≠ "") :
    Triple (Goes host (Reconciles start.scene id answer) start)
      (reconcileLocked host config id (answer.mapError (.inspect id)))
      (fun _ => Reconciled host id answer start) (fun _ => Reconciled host id answer start) := by
  cases hanswer : answer with
  | error error =>
    refine Triple.get.bind fun seen => ?_
    refine Triple.of_pre _ (Triple.ite (fun _ => .fail _ fun _ h => .inl h) fun _ => ?_) fun _ h =>
      h.2
    exact (revokeAfterInspectFailure_triple hgood _ _).weaken (fun _ h => h) (fun _ _ h => .inl h)
      fun _ _ h => .inl h
  | ok info =>
    rw [Except.mapError, reconcileLocked]
    cases hlive : liveState info with
    | none =>
      refine Triple.ite (fun _ => .pure _ fun _ h => .inl h) fun _ => ?_
      exact (revokeEnded_triple hgood rfl hlive _).weaken (fun _ h => h) (fun _ _ h => .inl h)
        fun _ _ h => .inl h
    | some state =>
      exact reconcileRunning_triple hgood rfl hlive (hstarted info state hanswer hlive) config

/-- What a reconcile does. -/
theorem reconcile_goes (host : Host σ ν) (hgood : start.scene.Good) (config : Runtime)
    (id : ContainerId) :
    Reconciled host id (host.inspect start.calls id) start
    (Op.run host start (.reconcile config id)) := by
  have hfirst : Goes host (Reconciles start.scene id (host.inspect start.calls id)) start
      (inspect host id start).2 :=
    (inspect_triple (calm_reconciles host start id _) id).after .refl
  have hstarted : ∀ info state, host.inspect start.calls id = .ok info →
    liveState info = some state →
      state.startedAt ≠ "" := by
    intro info state hanswer hlive
    obtain ⟨hstate, hrunning⟩ := Option.filter_eq_some_iff.mp hlive
    exact host.started _ id info state hanswer hstate (Bool.and_eq_true_iff.mp hrunning).1
  exact (reconcileLocked_triple hgood config hstarted).after hfirst

end Reconcile
end Processor
end Sda
