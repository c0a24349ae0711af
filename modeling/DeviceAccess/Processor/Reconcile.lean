import DeviceAccess.Processor.Rules
import DeviceAccess.Processor.Lifecycle

/-!
# The processor (`src/processor/reconcile.rs`)

The reconcile of a container's device grants, the revocation of ended runs and the sweep, each under
the processor's lock. What is outside is a `Host`: Docker's answers, the processes, the clock, the
cgroup controllers, and what happens to the cgroup directories before each call. Whatever it does,
in whatever order, is the behaviour of some `Host`.

Everything that can be looked at from outside is a `Scene`, and it changes only by an `Act`; the
world keeps every scene with the act that ended it, so that a property can be stated of every
moment.
-/

namespace Sda

/-! ## Errors -/

mutual

/-- `any`: the error or one it wraps or joins. -/
def Error.any (fits : Error → Bool) : Error → Bool
  | .joined errors => fits (.joined errors) || Error.anyOf fits errors
  | .verify source => fits (.verify source) || source.any fits
  | .change step steps source => fits (.change step steps source) || source.any fits
  | error => fits error

/-- The errors that are joined. -/
def Error.anyOf (fits : Error → Bool) : List Error → Bool
  | [] => false
  | error :: errors => error.any fits || Error.anyOf fits errors

end

def Error.isFilterMissing : Error → Bool := Error.any fun
  | .filterMissing => true
  | _ => false

def Error.isFiltersInaccessible : Error → Bool := Error.any fun
  | .filtersInaccessible _ _ => true
  | _ => false

def Error.isUnsupportedAttachMode : Error → Bool := Error.any fun
  | .unsupportedAttachMode _ => true
  | _ => false

def Error.isOwnedBlockConflict : Error → Bool := Error.any fun
  | .owned cause => cause.isConflict
  | _ => false

def Error.isProgramNotWrappable : Error → Bool := Error.any fun
  | .gate _ => true
  | .query cause | .ops cause | .replace cause | .attachNew cause | .detachOriginal cause
  | .rollback cause => cause == .oldKernel
  | _ => false

namespace Processor

open Sda.Filter Policy Docker
open V2 (Identity)

/-- A failed call to Docker. -/
structure DockerError where
  text : String
  /-- Docker answered that there is no such container. -/
  isNotFound : Bool
  deriving DecidableEq, Repr

inductive PinError where
  | open (pid : Int) (errno : Errno)
  | gone (errno : Errno)
  deriving DecidableEq, Repr

/-- Why a process's cgroup could not be read. -/
structure ProcCgroupError where
  text : String
  deriving DecidableEq, Repr

/-- Why a cgroup directory could not be opened or read. -/
inductive HandleError where
  | open (path : String) (source : Errno)
  | stat (path : String) (source : Errno)
  | openProcs (path : String) (source : Errno)
  | readProcs (path : String) (source : Errno)
  deriving DecidableEq, Repr

/-- The directory is not there. -/
def HandleError.isNotFound : HandleError → Bool
  | .open _ source | .stat _ source => source == Errno.noent
  | .openProcs _ _ | .readProcs _ _ => false

/-- A failed reconcile, termination or revocation. -/
inductive Error where
  | inspect (id : ContainerId) (source : DockerError)
  | containerGone (inner : Error)
  | joined (errors : List Error)
  | pin (id : ContainerId) (source : PinError)
  | procCgroup (id : ContainerId) (source : ProcCgroupError)
  | openCgroup (source : HandleError)
  | setRules (source : Sda.Error)
  /-- The second inspect failed. -/
  | verifyInspect (id : ContainerId) (cause : Error)
  /-- The membership read failed. -/
  | verifyMembership (id : ContainerId) (cause : HandleError)
  | lifecycleChanged (id : ContainerId) (pid : Int)
  | pinnedGone (id : ContainerId) (pid : Int) (source : PinError)
  | notInCgroup (id : ContainerId) (pid : Int)
  | revokeOpen (id : ContainerId) (source : HandleError)
  | revoke (id : ContainerId) (path : String) (source : Sda.Error)
  | revokeMoved (id : ContainerId) (path : String) (source : Sda.Error)
  | retryable (id : ContainerId) (reason : String) (source : Error)
  | incomplete (id : ContainerId) (errors : List DeviceError)

mutual

/-- `any`: the error or one it wraps or joins. -/
def Error.any (fits : Error → Bool) : Error → Bool
  | .containerGone inner => fits (.containerGone inner) || inner.any fits
  | .retryable id reason inner => fits (.retryable id reason inner) || inner.any fits
  | .verifyInspect id inner => fits (.verifyInspect id inner) || inner.any fits
  | .joined errors => fits (.joined errors) || Error.anyOf fits errors
  | error => fits error

/-- The errors that are joined. -/
def Error.anyOf (fits : Error → Bool) : List Error → Bool
  | [] => false
  | error :: errors => error.any fits || Error.anyOf fits errors

end

/-- `is_container_gone`. -/
def Error.isContainerGone : Error → Bool := Error.any fun
  | .containerGone _ => true
  | _ => false

/-- `is_not_found`: the inspect behind it was answered that there is no such container. -/
def Error.isNotFound : Error → Bool := Error.any fun
  | .inspect _ source => source.isNotFound
  | _ => false

/-- `is_cgroup`: it wraps a cgroup error that fits. -/
def Error.isCgroup (fits : Sda.Error → Bool) : Error → Bool := Error.any fun
  | .setRules source | .revoke _ _ source | .revokeMoved _ _ source => fits source
  | _ => false

/-- `join`: nothing when there are no errors. -/
def joinErrors (errors : List (Option Error)) : Option Error :=
  match errors.filterMap id with
  | [] => none
  | errors => some (.joined errors)

/-! ## Directories -/

/-- The cgroup directories. A directory made again at a path is another one: its inode is new. -/
structure Dirs where
  /-- The inode of the directory at a path. -/
  inode : String → Option (BitVec 64)
  /-- Every directory there has been. -/
  born : List Identity
  inode_born : ∀ path inode', inode path = some inode' → ⟨path, inode'⟩ ∈ born

/-- What happens to cgroup directories behind the processor's back. -/
inductive DirChange where
  | remove (path : String)
  | create (path : String) (inode : BitVec 64)
  deriving DecidableEq, Repr

namespace Dirs

variable (dirs : Dirs)

/-- The directory is still there. -/
def Exists (identity : Identity) : Prop := dirs.inode identity.path = some identity.inode

instance (identity : Identity) : Decidable (dirs.Exists identity) :=
  inferInstanceAs (Decidable (_ = _))

/-- A directory is made only where none is, and with an inode that no directory had there. -/
def change : DirChange → Dirs
  | .remove path =>
    { inode := Function.update dirs.inode path none
      born := dirs.born
      inode_born := fun other inode' h => by
        by_cases ho : other = path
        · rw [ho, Function.update_self] at h
          cases h
        · rw [Function.update_of_ne ho] at h
          exact dirs.inode_born other inode' h }
  | .create path inode =>
    if dirs.inode path = none ∧ ⟨path, inode⟩ ∉ dirs.born then
      { inode := Function.update dirs.inode path (some inode)
        born := ⟨path, inode⟩ :: dirs.born
        inode_born := fun other inode' h => by
          by_cases ho : other = path
          · subst ho
            rw [Function.update_self] at h
            cases h
            exact List.mem_cons_self
          · rw [Function.update_of_ne ho] at h
            exact List.mem_cons_of_mem _ (dirs.inode_born other inode' h) }
    else dirs

def changeAll (changes : List DirChange) : Dirs := changes.foldl Dirs.change dirs

end Dirs

/-! ## Scenes -/

/-- A call of `set_device_rules`: for which container, on which directory, and what it answered. -/
structure SetCall where
  id : ContainerId
  identity : Identity
  version : CgroupVersion
  rules : List DeviceRule
  result : Except Sda.Error Unit

/-- Nothing is granted at the directory after it: the empty set was applied, or there is no filter.
-/
def SetCall.empties (call : SetCall) : Bool :=
  call.rules.isEmpty &&
    match call.result with
    | .ok () => true
    | .error error => error.isFilterMissing

/-- What can be looked at from outside. -/
structure Scene where
  dirs : Dirs
  history : Lifecycles
  /-- Every call of `set_device_rules`, the last one first. -/
  sets : List SetCall

/-- What changes a scene. -/
inductive Act where
  | dirs (changes : List DirChange)
  | provisional (id : ContainerId) (now : Timestamp)
  | verify (id : ContainerId) (startedAt : String) (cgroup : RunCgroup) (now : Timestamp)
  | terminate (id : ContainerId) (eventTime : Timestamp)
  | markTerminal (id : ContainerId) (startedAt : String)
  | markRevoked (id : ContainerId) (startedAt : String)
  | release (record : LifecycleRecord)
  | set (call : SetCall)

def Act.apply (parse : String → Option Timestamp) (scene : Scene) : Act → Scene
  | .dirs changes => { scene with dirs := scene.dirs.changeAll changes }
  | .provisional id now => { scene with history := scene.history.provisional id now }
  | .verify id startedAt cgroup now =>
    { scene with history := scene.history.verify id startedAt cgroup now }
  | .terminate id eventTime =>
    { scene with history := (scene.history.terminate parse id eventTime).1 }
  | .markTerminal id startedAt => { scene with history := scene.history.markTerminal id startedAt }
  | .markRevoked id startedAt => { scene with history := scene.history.markRevoked id startedAt }
  | .release record => { scene with history := scene.history.release record }
  | .set call => { scene with sets := call :: scene.sets }

/-- The processor's world. `dev` is what the answers of `/dev` depend on. -/
structure World (σ : Type) where
  scene : Scene
  /-- Every earlier scene and the act that ended it, the last one first. -/
  past : List (Scene × Act)
  /-- The calls made so far. -/
  calls : Nat
  dev : σ

/-- Everything outside the processor. The first argument of an answer is the number of the call. -/
structure Host (σ ν : Type) where
  /-- What happens to the cgroup directories before a call. -/
  changes : Nat → List DirChange
  inspect : Nat → ContainerId → Except DockerError ContainerInspect
  /-- The caller cancelled. -/
  canceled : Nat → Bool
  pin : Nat → Int → Except PinError Unit
  alive : Nat → Int → Except PinError Unit
  /-- The cgroup of a process, as a path of the host. -/
  procCgroup : Nat → Int → Except ProcCgroupError (String × CgroupVersion)
  /-- Why a directory that may be there is not opened. -/
  openFault : Nat → String → Option HandleError
  statFault : Nat → String → Option Errno
  hasProcess : Nat → Identity → Int → Except HandleError Bool
  setDeviceRules : Nat → CgroupVersion → Identity → List DeviceRule → Except Sda.Error Unit
  now : Nat → Timestamp
  openDev : Action σ SysError (DevFs σ ν)
  /-- How a start time is read. -/
  parse : String → Option Timestamp
  /-- A running container has a start time. -/
  started : ∀ call id info state, inspect call id = .ok info → info.state = some state →
    state.running = true → state.startedAt ≠ ""
  /-- A directory is only reported missing when it is. -/
  openFault_found : ∀ call path error, openFault call path = some error → error.isNotFound = false
  statFault_found : ∀ call path errno, statFault call path = some errno → errno ≠ Errno.noent

/-- The config in force. -/
structure Runtime where
  policy : Global
  dryRun : Bool

/-- How long a provisional record without a cgroup is kept. -/
def provisionalTtl : Int := 10 * 60 * 1000000000

section Processor

variable {σ ν : Type} (host : Host σ ν)

/-! ## Calls -/

def World.perform (world : World σ) (act : Act) : World σ :=
  { world with scene := act.apply host.parse world.scene, past := (world.scene, act) :: world.past }

variable {ε : Type}

def perform (act : Act) : Action (World σ) ε Unit := .modify fun world => world.perform host act

/-- A call: the host does what it does before it. -/
def call : Action (World σ) ε Nat := fun world =>
  (.ok world.calls,
    { world.perform host (.dirs (host.changes world.calls)) with calls := world.calls + 1 })

/-- What the clock of the history shows. -/
def clock : Action (World σ) ε Timestamp := do
  let number ← call host
  pure (host.now number)

/-- `inspect`. -/
def inspect (id : ContainerId) : Action (World σ) Error ContainerInspect := do
  let number ← call host
  .ofExcept ((host.inspect number id).mapError (.inspect id))

/-- `CgroupHandle::open`. -/
def openHandle (path : String) : Action (World σ) HandleError Identity := do
  let number ← call host
  match host.openFault number path with
  | some error => .fail error
  | none => do
    let world ← .get
    match world.scene.dirs.inode path with
    | none => .fail (.open path Errno.noent)
    | some inode => pure ⟨path, inode⟩

/-- `set_device_rules` of the controller of a version, and its answer. -/
def setDeviceRules (id : ContainerId) (version : CgroupVersion) (identity : Identity)
    (rules : List DeviceRule) : Action (World σ) ε (Except Sda.Error Unit) := do
  let number ← call host
  let result := host.setDeviceRules number version identity rules
  perform host (.set ⟨id, identity, version, rules, result⟩)
  pure result

/-! ## Revocation -/

/-- A recorded cgroup reopened, or that it holds none of the run's grants. -/
inductive Recorded where
  | open (identity : Identity)
  | gone
  deriving DecidableEq, Repr

/-- `open_recorded`: gone when the directory is gone or was made again at the same path. -/
def openRecorded (id : ContainerId) (identity : Identity) : Action (World σ) Error Recorded := do
  match ← Action.attempt (openHandle host identity.path) with
  | .ok found => if found = identity then pure (.open found) else pure .gone
  | .error source => if source.isNotFound then pure .gone else .fail (.revokeOpen id source)

/-- `revoke_at`: applies the empty set at the recorded cgroup if it is still the same directory. If
it is not, the record is released. -/
def revokeAt (record : LifecycleRecord) : Action (World σ) Error Unit :=
  match record.cgroup with
  | none => pure ()
  | some cgroup => do
    match ← openRecorded host record.containerId cgroup.identity with
    | .gone => perform host (.release record)
    | .open identity => do
      match ← setDeviceRules host record.containerId cgroup.version identity [] with
      | .error error =>
        if error.isFilterMissing then
          perform host (.markRevoked record.containerId record.startedAt)
        else .fail (.revoke record.containerId cgroup.identity.path error)
      | .ok () => perform host (.markRevoked record.containerId record.startedAt)

/-- `revoke_moved`: applies the empty set at the cgroup a run was recorded in, once it is verified
in another one. -/
def revokeMoved (record : LifecycleRecord) (previous : RunCgroup) :
    Action (World σ) Error Unit := do
  match ← openRecorded host record.containerId previous.identity with
  | .gone => pure ()
  | .open identity => do
    match ← setDeviceRules host record.containerId previous.version identity [] with
    | .error error =>
      if error.isFilterMissing then pure ()
      else .fail (.revokeMoved record.containerId previous.identity.path error)
    | .ok () => pure ()

/-- Revokes at each record, whatever fails, and gives the errors. -/
def revokeEach : List LifecycleRecord → Action (World σ) Error (List Error)
  | [] => pure []
  | record :: records => do
    let revoked ← Action.attempt (revokeAt host record)
    let errors ← revokeEach records
    match revoked with
    | .ok () => pure errors
    | .error error => pure (error :: errors)

/-- The part of `revoke_after_inspect_failure` that mutates: every run with a verified cgroup is
revoked there. -/
def revokeRuns (id : ContainerId) : Action (World σ) Error (List Error) := do
  let now ← clock host
  perform host (.provisional id now)
  let world ← .get
  revokeEach host ((world.scene.history.records id).filter (·.hasIdentity))

/-- `revoke_after_inspect_failure`. -/
def revokeAfterInspectFailure (id : ContainerId) (dryRun : Bool) (inspectError : Error) :
    Action (World σ) Error Unit := do
  let errors ← (if dryRun then pure [] else revokeRuns host id)
  if errors.isEmpty && inspectError.isNotFound then .fail (.containerGone inspectError)
  else .fail (.joined (inspectError :: errors))

/-- `revoke_ended`: applies the empty set for a run whose process is gone. -/
def revokeEnded (id : ContainerId) (startedAt : String) : Action (World σ) Error Unit := do
  let world ← .get
  match (world.scene.history.lookup id startedAt).filter (·.hasIdentity) with
  | none => pure ()
  | some record => do
    perform host (.markTerminal id startedAt)
    revokeAt host record.ended

/-! ## Reconcile -/

/-- `verify_pinned`: the check made immediately before a mutation. -/
def verifyPinned (id : ContainerId) (state : ContainerState) (identity : Identity) (grants : Bool) :
    Action (World σ) Error Unit := do
  let again ← Action.mapErr (.verifyInspect id) (inspect host id)
  let same := again.state.any fun again =>
    again.running && again.pid == state.pid && again.startedAt == state.startedAt
  if !same then .fail (.lifecycleChanged id state.pid)
  else do
    let number ← call host
    .ofExcept ((host.alive number state.pid).mapError (.pinnedGone id state.pid))
    if !grants then pure ()
    else do
      let number ← call host
      let member ← .ofExcept
        ((host.hasProcess number identity state.pid).mapError (.verifyMembership id))
      if member then pure () else .fail (.notInCgroup id state.pid)

/-- The part of `apply_pinned` for a run that moved to another cgroup: the grants at the recorded
cgroup go before the record is replaced. -/
def leavePrevious (id : ContainerId) (state : ContainerState) (identity : Identity) :
    Action (World σ) Error Unit := do
  let world ← .get
  match world.scene.history.lookup id state.startedAt with
  | none => pure ()
  | some moved =>
    match moved.cgroup with
    | none => pure ()
    | some previous =>
      if previous.identity = identity then pure ()
      else do
        revokeMoved host moved previous
        -- The run can move again meanwhile: it is checked once more, with membership.
        verifyPinned host id state identity true

/-- `apply_pinned` after the cgroup is opened: verify, leave the previous cgroup, record, set. -/
def applyOpened (id : ContainerId) (state : ContainerState) (privileged : Bool)
    (rules : List DeviceRule) (version : CgroupVersion) (identity : Identity) :
    Action (World σ) Error Unit := do
  verifyPinned host id state identity (!rules.isEmpty)
  leavePrevious host id state identity
  let now ← clock host
  perform host (.verify id state.startedAt ⟨identity, version, privileged⟩ now)
  let applied ← setDeviceRules host id version identity rules
  .ofExcept (applied.mapError .setRules)

/-- `apply_pinned`: sets the rules on the cgroup of the container's running process. -/
def applyPinned (id : ContainerId) (state : ContainerState) (privileged : Bool)
    (rules : List DeviceRule) :
    Action (World σ) Error Unit := do
  let number ← call host
  .ofExcept ((host.pin number state.pid).mapError (.pin id))
  let number ← call host
  let (path, version) ← .ofExcept ((host.procCgroup number state.pid).mapError (.procCgroup id))
  let identity ← Action.mapErr .openCgroup (openHandle host path)
  applyOpened host id state privileged rules version identity

/-- `classify_apply_error`: nothing when the container is skipped for good. -/
def classifyApplyError (id : ContainerId) (privileged : Bool) (applyError : Error) : Option Error :=
  if applyError.isCgroup Sda.Error.isFilterMissing && privileged then none
  else if applyError.isCgroup Sda.Error.isFilterMissing then
    some (.retryable id "filter_missing" applyError)
  else if applyError.isCgroup Sda.Error.isUnsupportedAttachMode then none
  else if applyError.isCgroup Sda.Error.isOwnedBlockConflict then
    some (.retryable id "owned_block_conflict" applyError)
  else if applyError.isCgroup Sda.Error.isProgramNotWrappable then
    some (.retryable id "program_not_wrappable" applyError)
  else if applyError.isCgroup Sda.Error.isFiltersInaccessible then
    some (.retryable id "filters_inaccessible" applyError)
  else some applyError

/-- The desired rules of a running container. -/
def desiredRules (config : Runtime) (info : ContainerInspect) : Action (World σ) ε Desired :=
  fun world =>
  let (desired, dev) := computeDesired host.openDev info config.policy world.dev
  (.ok desired, { world with dev := dev })

/-- The state of a container that runs and has a process. -/
def liveState (info : ContainerInspect) : Option ContainerState :=
  info.state.filter fun state => state.running && state.pid != 0

/-- `reconcile_locked` for a container that runs. -/
def reconcileRunning (config : Runtime) (id : ContainerId) (info : ContainerInspect)
    (state : ContainerState) :
    Action (World σ) Error Unit := do
  let desired ← desiredRules host config info
  let incomplete := desired.incomplete.map (Error.incomplete id)
  if config.dryRun then .ofExcept (incomplete.elim (.ok ()) .error)
  else do
    let privileged := info.privileged.getD false
    match ← Action.attempt (applyPinned host id state privileged desired.rules) with
    | .error applyError =>
      .ofExcept ((joinErrors [classifyApplyError id privileged applyError, incomplete]).elim
        (.ok ()) .error)
    | .ok () => .ofExcept (incomplete.elim (.ok ()) .error)

/-- `reconcile_locked`: everything after the first inspect. -/
def reconcileLocked (config : Runtime) (id : ContainerId)
    (inspected : Except Error ContainerInspect) :
    Action (World σ) Error Unit := do
  match inspected with
  | .error inspectError =>
    let world ← .get
    -- The caller cancelled, not Docker: a running container keeps its grants.
    if host.canceled world.calls then .fail inspectError
    else revokeAfterInspectFailure host id config.dryRun inspectError
  | .ok info =>
    match liveState info with
    | none =>
      if config.dryRun then pure ()
      else revokeEnded host id ((info.state.map (·.startedAt)).getD "")
    | some state => reconcileRunning host config id info state

/-- `reconcile`: makes the grants of a container's cgroup what the config allows it. -/
def reconcile (config : Runtime) (id : ContainerId) : Action (World σ) Error Unit := do
  let inspected ← Action.attempt (inspect host id)
  reconcileLocked host config id inspected

/-! ## Terminate and sweep -/

/-- `terminate`: an event ended a run of the container. -/
def terminate (config : Runtime) (id : ContainerId) (eventTime : Timestamp) :
    Action (World σ) Error Unit := do
  let world ← .get
  let ended := (world.scene.history.terminate host.parse id eventTime).2
  perform host (.terminate id eventTime)
  if config.dryRun then pure ()
  else do
    let errors ← revokeEach host (ended.filter (·.hasIdentity))
    .ofExcept ((joinErrors (errors.map some)).elim (.ok ()) .error)

/-- `cgroup_gone`: whether the directory is gone or was made again. -/
def cgroupGone (identity : Identity) : Action (World σ) Errno Bool := do
  let number ← call host
  match host.statFault number identity.path with
  | some errno => .fail errno
  | none => do
    let world ← .get
    pure (world.scene.dirs.inode identity.path ≠ some identity.inode)

/-- What the sweep does with a record, and whether it released it. -/
def sweepRecord (config : Runtime) (now : Timestamp) (record : LifecycleRecord) :
    Action (World σ) Error Bool :=
  match record.cgroup with
  | none =>
    if record.state = .terminal ||
        provisionalTtl < now - max record.firstSeen record.observed then do
      perform host (.release record)
      pure true
    else pure false
  | some cgroup => do
    match ← Action.attempt (cgroupGone host cgroup.identity) with
    | .error _ => pure false
    | .ok true => do
      perform host (.release record)
      pure true
    | .ok false =>
      if record.state = .terminal && !record.revoked && !config.dryRun then do
        let _ ← (Action.attempt (revokeAt host record) : Action (World σ) Error _)
        pure false
      else pure false

def sweepRecords (config : Runtime) (now : Timestamp) :
    List LifecycleRecord → Action (World σ) Error Nat
  | [] => pure 0
  | record :: records => do
    let gone ← sweepRecord host config now record
    let released ← sweepRecords config now records
    pure (if gone then released + 1 else released)

/-- `sweep`: re-checks every record, and gives how many were released. -/
def sweep (config : Runtime) : Action (World σ) Error Nat := do
  let now ← clock host
  let world ← .get
  sweepRecords host config now world.scene.history.all

/-! ## Runs -/

/-- An operation of the processor, under the config that is in force. -/
inductive Op where
  | reconcile (config : Runtime) (id : ContainerId)
  | terminate (config : Runtime) (id : ContainerId) (eventTime : Timestamp)
  | sweep (config : Runtime)

/-- The world after an operation, whatever it answered. -/
def Op.run (world : World σ) : Op → World σ
  | .reconcile config id => (Processor.reconcile host config id world).2
  | .terminate config id eventTime => (Processor.terminate host config id eventTime world).2
  | .sweep config => (Processor.sweep host config world).2

/-- The operations one after another. -/
def runOps (world : World σ) (ops : List Op) : World σ := ops.foldl (Op.run host) world

end Processor

/-- A new processor: no records, and nothing was set. -/
def World.new {σ : Type} (dirs : Dirs) (dev : σ) : World σ := ⟨⟨dirs, .new, []⟩, [], 0, dev⟩

end Processor
end Sda
