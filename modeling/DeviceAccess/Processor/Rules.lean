import DeviceAccess.Docker
import DeviceAccess.Text
import DeviceAccess.Processor.Devfs

/-!
# The device rules of a container (`src/processor/rules.rs`)

Each name under a `/dev` bind mount (the mount source, each walked entry) is resolved on descriptors
beneath `/dev`, identified, and judged by policy under its alias, its resolved and its canonical
name (`evaluateCandidate`). The candidates are aggregated per device across all mounts of the
container: one name's deny vote holds against every other name of the same device (`Aggregation`).
Anything that leaves the set unknown is a `DeviceError`.

What is only logged or counted for metrics is left out.
-/

namespace Sda
namespace Processor

open Sda.Filter Lexpath Policy Docker

/-- Bounds the names enumerated under one directory mount. -/
def maxMountEntries : Nat := 4096
/-- Bounds the absolute symlinks followed by hand. -/
def maxLinkHops : Nat := 40

/-! ## Errors -/

/-- A sysfs uevent without exactly one valid `DEVNAME`. -/
inductive BadDevname where
  | count (count : Nat)
  | invalid (name : Path)
  | lineTooLong
  deriving DecidableEq, Repr

/-- Why a candidate's identity could not be established. -/
inductive Cause where
  | sys (error : SysError)
  | badDevname (error : BadDevname)
  | tooManyLinks
  deriving DecidableEq, Repr

/-- Why a container's device set is unknown. -/
inductive DeviceError where
  /-- With the resolved name and the device, once known. -/
  | unresolved (aliasPath : Path) (device : Option (Path × DeviceId)) (cause : Cause)
  | mountSourceGone (path : Path)
  | devOpen (error : SysError)
  | notDevice (path : Path)
  | incompleteWalk (name : Path) (cause : SysError)
  | mountTooLarge (source : Path)
  deriving DecidableEq, Repr

/-! ## Candidates -/

/-- Why a name is no candidate. -/
inductive Skip where
  | outsideDev
  | dangling
  | notDevice
  deriving DecidableEq, Repr

/-- The policy outcome for one candidate. -/
structure Decision where
  /-- The name that matched a deny glob, if one did. -/
  deniedBy : Option Path
  /-- The canonical and the resolved name both pass the allow lists. -/
  authorized : Bool
  deriving DecidableEq, Repr

def Decision.default : Decision := ⟨none, false⟩

def Decision.granted (decision : Decision) : Bool := decision.deniedBy.isNone && decision.authorized

/-- One name found under a `/dev` mount and what it resolved to. -/
structure Candidate where
  /-- The name as found. -/
  aliasPath : Path
  /-- The `/dev` path its descriptor refers to. -/
  resolved : Path
  /-- `/dev/` and the device's sysfs `DEVNAME`, empty without one. -/
  canonical : Path
  kind : NodeKind
  decision : Decision
  deriving DecidableEq, Repr

/-- The outcome of collecting the candidates of one mount source. -/
structure MountResult where
  candidates : List Candidate
  skipped : Nat
  errs : List DeviceError

def MountResult.default : MountResult := ⟨[], 0, []⟩

def MountResult.addSkip (result : MountResult) : MountResult :=
  { result with skipped := result.skipped + 1 }

def MountResult.addError (result : MountResult) (error : DeviceError) : MountResult :=
  { result with errs := result.errs ++ [error] }

def MountResult.addCandidate (result : MountResult) (candidate : Candidate) : MountResult :=
  { result with candidates := result.candidates ++ [candidate] }

/-- The policy a collection judges by. -/
structure Judge where
  global : Global
  container : Container

/-- `is_mount_source`: `/dev` or a path under `/dev/`. -/
def isMountSource (path : Path) : Bool := path == devRoot || devPrefix.isPrefixOf path

/-- `under_dev`: clean, and `/dev` or below. -/
def underDev (path : Path) : Bool := clean path == path && isMountSource path

/-- `rel_to_dev`: the path relative to `/dev`. -/
def relToDev (path : Path) : Path :=
  if path = devRoot then dot
  else if devPrefix.isPrefixOf path then path.drop devPrefix.length
  else path

/-! ## Resolution -/

section Dev

variable {σ ν : Type} (dev : DevFs σ ν)

/-- The outcome of an escape hop. -/
inductive Hop where
  /-- The path to retry. -/
  | retry (path : Path)
  /-- The escape really leaves `/dev`: what it pointed at. -/
  | outside (target : Path)
  deriving DecidableEq, Repr

/-- The loop of `escape_hop` over the components of `rel`: `before` open on their own. -/
def escapeFrom (rel : Path) (before : List Path) : List Path → Action σ SysError Hop
  | [] => pure (.retry rel)
  | part :: rest => do
    let front := ['/'].intercalate (before ++ [part])
    match ← Action.attempt (dev.openBeneath front) with
    | .ok _ => escapeFrom rel (before ++ [part]) rest
    | .error error =>
      if error.errno ≠ Errno.xdev then Action.fail error
      else do
        let target ← dev.readLink front
        let cleaned := clean target
        if target.head? ≠ some '/' || !underDev cleaned then pure (.outside target)
        else pure (.retry (join (relToDev cleaned :: rest)))

/-- `escape_hop`: the first component of a path that leaves `/dev`, and where its link leads. -/
def escapeHop (rel : Path) : Action σ SysError Hop := escapeFrom dev rel [] (rel.splitOn '/')

/-- What opening a candidate gave. -/
inductive Opened (ν : Type) where
  | node (node : ν)
  | skip (reason : Skip)

/-- The loop of `open_candidate`, with the rounds that are left. -/
def openFrom (aliasPath : Path) : Nat → Path → Action σ DeviceError (Opened ν)
  | 0, _ => Action.fail (.unresolved aliasPath none .tooManyLinks)
  | rounds + 1, rel => do
    match ← Action.attempt (dev.openBeneath rel) with
    | .ok node => pure (.node node)
    | .error error =>
      if error.errno = Errno.noent then pure (.skip .dangling)
      else if error.errno ≠ Errno.xdev then Action.fail (.unresolved aliasPath none (.sys error))
      else do
        match ← Action.mapErr (fun error => .unresolved aliasPath none (.sys error))
          (escapeHop dev rel) with
        | .outside _ => pure (.skip .outsideDev)
        | .retry next => openFrom aliasPath rounds next

/-- `open_candidate`: opens `aliasPath` beneath `/dev`, following a planted absolute symlink into
`/dev` by hand. -/
def openCandidate (aliasPath : Path) : Action σ DeviceError (Opened ν) :=
  openFrom dev aliasPath maxLinkHops (relToDev aliasPath)

/-- The value of a line that begins with `DEVNAME=`. -/
def devnameValue (line : List Char) : Option Path :=
  if "DEVNAME=".toList.isPrefixOf line then some (line.drop "DEVNAME=".length) else none

/-- The `DEVNAME` of a uevent: exactly one line, a clean relative path without `..`. -/
def devname (data : Bytes) : Except Cause Path :=
  match (Text.lines data).mapM id with
  | .error _ => .error (.badDevname .lineTooLong)
  | .ok lines =>
    match (lines.map Text.fromUtf8Lossy).filterMap devnameValue with
    | [name] =>
      if name.isEmpty || name.head? == some '/' || clean name != name || name == dotdot ||
          "../".toList.isPrefixOf name then .error (.badDevname (.invalid name))
      else .ok (devRoot ++ '/' :: name)
    | names => .error (.badDevname (.count names.length))

/-- `canonical_name`: the device's `DEVNAME` from sysfs. -/
def canonicalName (id : DeviceId) : Action σ Cause Path := do
  let data ← Action.mapErr .sys (dev.readUevent id)
  Action.ofExcept (devname data)

/-- `evaluate_identity`: any deny match on any name is a deny vote; the allow lists must pass for
the canonical and the resolved name. -/
def evaluateIdentity (aliasPath resolved canonical : Path) (judge : Judge) : Decision :=
  match [aliasPath, resolved, canonical].find? (judge.global.denied judge.container) with
  | some name => ⟨some name, false⟩
  | none => ⟨none, judge.global.authorized judge.container canonical &&
      judge.global.authorized judge.container resolved⟩

/-- A candidate, or why it is not one. -/
structure Evaluated where
  candidate : Candidate
  /-- Set when the name is not a device candidate. -/
  skip : Option Skip
  /-- Set when the name exists but its identity could not be established. -/
  err : Option DeviceError
  deriving DecidableEq, Repr

/-- The decision and the error of a device without a canonical name. It can never be authorized, so
it only matters if its other names would grant it: then the set is unknown. -/
def evaluateUnnamed (aliasPath resolved : Path) (id : DeviceId) (cause : Cause) (judge : Judge) :
    Evaluated :=
  let decision := evaluateIdentity aliasPath resolved resolved judge
  ⟨⟨aliasPath, resolved, [], .device id, { decision with authorized := false }⟩, none,
    if decision.granted then some (.unresolved aliasPath (some (resolved, id)) cause) else none⟩

/-- `evaluate_candidate`: establishes what `aliasPath` names, on descriptors, and judges it. -/
def evaluateCandidate (aliasPath : Path) (judge : Judge) (s : σ) : Evaluated × σ :=
  let start : Candidate := ⟨aliasPath, [], [], .other, Decision.default⟩
  if !underDev aliasPath then (⟨start, some .outsideDev, none⟩, s)
  else
    match openCandidate dev aliasPath s with
    | (.error error, s) => (⟨start, none, some error⟩, s)
    | (.ok (.skip reason), s) => (⟨start, some reason, none⟩, s)
    | (.ok (.node node), s) =>
      match dev.stat node s with
      | (.error error, s) => (⟨start, none, some (.unresolved aliasPath none (.sys error))⟩, s)
      | (.ok kind, s) =>
        let (resolved, s) := dev.resolved node s
        let resolved := if resolved.isEmpty then aliasPath else resolved
        match kind with
        | .device id =>
          match canonicalName dev id s with
          | (.ok canonical, s) => (⟨⟨aliasPath, resolved, canonical, kind,
              evaluateIdentity aliasPath resolved canonical judge⟩, none, none⟩, s)
          | (.error cause, s) => (evaluateUnnamed aliasPath resolved id cause judge, s)
        | kind => (⟨⟨aliasPath, resolved, [], kind, Decision.default⟩, none, none⟩, s)

/-! ## Mounts -/

/-- The state of a walk: what was found, and how many names were enumerated, directories included.
-/
structure MountWalkState where
  result : MountResult
  entries : Nat

/-- `visit_entry`: the state after a visit, and whether the walk goes on. -/
def visitEntry (source base : Path) (judge : Judge) (state : MountWalkState)
    (visit : Visit) (s : σ) :
    (MountWalkState × Bool) × σ :=
  let aliasPath :=
    source ++ (if base.isPrefixOf visit.path then visit.path.drop base.length else visit.path)
  match visit.error with
  | some error =>
    (({ state with result := state.result.addError (.incompleteWalk aliasPath error) }, true), s)
  | none =>
    if visit.path = base then ((state, true), s)
    else
      let state := { state with entries := state.entries + 1 }
      if maxMountEntries < state.entries then
        (({ state with result := state.result.addError (.mountTooLarge source) }, false), s)
      else if visit.isDir then ((state, true), s)
      else
        let (found, s) := evaluateCandidate dev aliasPath judge s
        match found.err, found.skip, found.candidate.kind with
        | some error, _, _ => (({ state with result := state.result.addError error }, true), s)
        | none, some _, _ => (({ state with result := state.result.addSkip }, true), s)
        | none, none, .device _ =>
          (({ state with result := state.result.addCandidate found.candidate }, true), s)
        | none, none, _ => (({ state with result := state.result.addSkip }, true), s)

/-- The visits of a walk, until one ends it. -/
def visitAll (source base : Path) (judge : Judge) : List Visit → MountWalkState → σ →
    MountResult × σ
  | [], state, s => (state.result, s)
  | visit :: visits, state, s =>
    match visitEntry dev source base judge state visit s with
    | ((state, true), s) => visitAll source base judge visits state s
    | ((state, false), s) => (state.result, s)

/-- `walk_mount`: enumerates a directory mount. The candidates are named after the mount source. -/
def walkMount (source dir : Path) (judge : Judge) (result : MountResult) (s : σ) :
    MountResult × σ :=
  let base := join [dev.root, relToDev dir]
  let (visits, s) := dev.walk base s
  visitAll dev source base judge visits ⟨result, 0⟩ s

/-- `collect_mount_rules`: evaluates the mount source and, for a directory, every entry below it. -/
def collectMountRules (mountPath : Path) (judge : Judge) (s : σ) : MountResult × σ :=
  let (source, s) := evaluateCandidate dev mountPath judge s
  match source.err with
  | some error => (MountResult.default.addError error, s)
  | none =>
    match source.skip, source.candidate.kind with
    | some .dangling, _ => (MountResult.default.addError (.mountSourceGone mountPath), s)
    | some _, _ => (MountResult.default.addSkip, s)
    | none, .dir => walkMount dev mountPath source.candidate.resolved judge MountResult.default s
    | none, .other => (MountResult.default.addError (.notDevice mountPath), s)
    | none, .device _ => (MountResult.default.addCandidate source.candidate, s)

end Dev

/-! ## Aggregation -/

/-- Every candidate that resolved to one device. -/
structure DeviceVotes where
  candidates : Nat
  authorized : Bool
  deniedBy : Option Path
  deriving DecidableEq, Repr

/-- One candidate more. The first deny vote is kept. -/
def DeviceVotes.vote (votes : DeviceVotes) (decision : Decision) : DeviceVotes :=
  ⟨votes.candidates + 1, votes.authorized || decision.authorized,
    if votes.deniedBy.isNone then decision.deniedBy else votes.deniedBy⟩

/-- The candidates per device across all mounts of a container. -/
structure Aggregation where
  order : List DeviceId
  votes : DeviceId → Option DeviceVotes

/-- The rule for a granted device. -/
def grantRule (device : DeviceId) : DeviceRule :=
  ⟨true, device.letter, some device.major.toNat, some device.minor.toNat, "rwm"⟩

namespace Aggregation

def default : Aggregation := ⟨[], fun _ => none⟩

def add (devices : Aggregation) (found : Candidate) : Aggregation :=
  match found.kind with
  | .device id =>
    ⟨if (devices.votes id).isNone then devices.order ++ [id] else devices.order,
      Function.update devices.votes id
        (some (((devices.votes id).getD ⟨0, false, none⟩).vote found.decision))⟩
  | _ => devices

/-- `emit`: the rules for every device that is authorized and has no deny vote, in the order devices
were first seen, and how many candidates were not granted. -/
def emit (devices : Aggregation) : List DeviceRule × Nat :=
  devices.order.foldl (fun (rules, skipped) device =>
    match devices.votes device with
    | none => (rules, skipped)
    | some votes =>
      match votes.deniedBy, votes.authorized with
      | none, true => (rules ++ [grantRule device], skipped)
      | _, _ => (rules, skipped + votes.candidates)) ([], 0)

end Aggregation

/-- The per-mount results for one container, aggregated. -/
structure ContainerRules where
  /-- One rule per granted device. -/
  granted : List DeviceRule
  skipped : Nat
  deviceErrs : List DeviceError
  devMounts : Nat

def ContainerRules.default : ContainerRules := ⟨[], 0, [], 0⟩

/-- `is_device_mount`: only a bind mount's source is a host path. -/
def isDeviceMount (mount : MountPoint) : Bool := mount.kind == "bind" && isMountSource mount.source

section Collect

variable {σ ν : Type} (dev : DevFs σ ν)

/-- The loop of `collect_container_rules` over the device mounts. -/
def collectFrom (judge : Judge) : List MountPoint → ContainerRules → Aggregation → σ →
    (ContainerRules × Aggregation) × σ
  | [], result, devices, s => ((result, devices), s)
  | mount :: mounts, result, devices, s =>
    let (found, s) := collectMountRules dev mount.source judge s
    collectFrom judge mounts
      { result with
        skipped := result.skipped + found.skipped
        deviceErrs := result.deviceErrs ++ found.errs
        devMounts := result.devMounts + 1 }
      (found.candidates.foldl Aggregation.add devices) s

/-- `collect_container_rules`: evaluates every `/dev` mount of a container and aggregates the
candidates per device across all of them. -/
def collectContainerRules (mounts : List MountPoint) (judge : Judge) (s : σ) : ContainerRules × σ :=
  let ((result, devices), s) := collectFrom dev judge (mounts.filter isDeviceMount)
    ContainerRules.default Aggregation.default s
  let (granted, excluded) := devices.emit
  ({ result with granted := granted, skipped := result.skipped + excluded }, s)

/-! ## The desired rules (`src/processor/reconcile.rs`) -/

/-- The outcome of evaluating a container's labels, the policy and its `/dev` mounts. -/
structure Desired where
  /-- What the container's cgroup must hold. -/
  rules : List DeviceRule
  enabled : Bool
  collected : ContainerRules
  /-- Set when some device of an enabled container could not be resolved. -/
  incomplete : Option (List DeviceError)

def Desired.default : Desired := ⟨[], false, ContainerRules.default, none⟩

/-- `collect_devices`: opens `/dev` and collects the container's rules. Failing to open it leaves
every device unresolved. -/
def collectDevices (openDev : Action σ SysError (DevFs σ ν)) (mounts : List MountPoint)
    (judge : Judge) (s : σ) : ContainerRules × σ :=
  if !mounts.any isDeviceMount then (ContainerRules.default, s)
  else
    match openDev s with
    | (.error error, s) =>
      ({ ContainerRules.default with devMounts := 1, deviceErrs := [.devOpen error] }, s)
    | (.ok dev, s) => collectContainerRules dev mounts judge s

/-- `compute_desired`. Labels that do not parse, and a container the mode does not enable, give
nothing; so does an incomplete set. -/
def computeDesired (openDev : Action σ SysError (DevFs σ ν)) (info : ContainerInspect)
    (policy : Global) (s : σ) : Desired × σ :=
  match Container.parse (info.labels.getD fun _ => none) with
  | .error _ => (Desired.default, s)
  | .ok container =>
    if !policy.enabled container then (Desired.default, s)
    else
      let (collected, s) := collectDevices openDev info.mounts ⟨policy, container⟩ s
      if collected.deviceErrs.isEmpty then (⟨collected.granted, true, collected, none⟩, s)
      else (⟨[], true, collected, some collected.deviceErrs⟩, s)

end Collect
end Processor
end Sda
