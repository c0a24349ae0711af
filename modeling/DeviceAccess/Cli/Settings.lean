import DeviceAccess.Config.Accepted
import DeviceAccess.Config.Load
import DeviceAccess.Processor.Reconcile

/-!
# The daemon's settings and their reload (`src/cli/settings.rs`, `startup_settings` of `src/run.rs`)

The settings are merged, the command line over the file over the default, and validated before
anything uses them. A reload merges the flags with the file as it is now, and applies the
hot-reloadable part, all or nothing.

Shown of every startup and every sequence of reloads: a file is accepted exactly if it is
`acceptable`, and what is in force depends on the flags, the last such file and the startup's
restart-only settings, on nothing else (`InForce`).

`startup_settings` last probes for `openat2` (`probe_openat2`), without which the daemon does not
start; that is left out.
-/

namespace Sda
namespace Cli

open Config Policy
open Processor (Runtime)

/-! ## Settings -/

/-- Every value the flags and the config file control. `none` for a device list: never given. -/
structure Settings where
  logFormat : List Char
  logLevel : List Char
  logTime : Bool
  dockerSocket : List Char
  metricsAddr : List Char
  debugAddr : List Char
  dryRun : Bool
  policyMode : List Char
  deviceAllow : Globs
  deviceDeny : Globs
  deriving DecidableEq, Repr

/-- A check that failed. -/
inductive SettingFailure where
  | enum (source : EnumError)
  | policy (source : PolicyError)
  | debugAddr (address : List Char)
  deriving DecidableEq, Repr

namespace Settings

/-- `merge`: a flag given on the command line wins, then a key set in the file, then `defaults`. -/
def merge (defaults : Settings) (cliSet : List String) (file : FileSchema) : Settings :=
  let fromFile (name : String) : Bool := !cliSet.contains name
  let string (name : String) (value target : List Char) : List Char :=
    if fromFile name && !value.isEmpty then value else target
  let bool (name : String) (value : Option Bool) (target : Bool) : Bool :=
    (value.filter fun _ => fromFile name).getD target
  let list (name : String) (value target : Globs) : Globs :=
    (value.filter fun _ => fromFile name).or target
  { logFormat := string "log-format" file.logFormat defaults.logFormat
    logLevel := string "log-level" file.logLevel defaults.logLevel
    dockerSocket := string "docker-socket" file.dockerSocket defaults.dockerSocket
    metricsAddr := string "metrics-addr" file.metricsAddr defaults.metricsAddr
    debugAddr := string "debug-addr" file.debugAddr defaults.debugAddr
    policyMode := string "policy-mode" file.policyMode defaults.policyMode
    logTime := bool "log-time" file.logTime defaults.logTime
    dryRun := bool "dry-run" file.dryRun defaults.dryRun
    deviceAllow := list "device-allow" file.deviceAllow defaults.deviceAllow
    deviceDeny := list "device-deny" file.deviceDeny defaults.deviceDeny }

/-- The error of a check. -/
def failed {ε α : Type} (wrap : ε → SettingFailure) : Except ε α → List SettingFailure
  | .ok _ => []
  | .error error => [wrap error]

/-- `refuse_debug_addr`: there is no debug server any more. -/
def refuseDebugAddr (address : List Char) : Except (List Char) Unit :=
  if address.isEmpty then .ok () else .error address

/-- `validate`: every check that failed, or what the processor reads. -/
def validate (settings : Settings) : Except (List SettingFailure) Runtime :=
  let enums := validateEnums settings.logFormat settings.logLevel settings.policyMode "setting"
  let policy := Global.new (String.ofList settings.policyMode) settings.deviceAllow
    settings.deviceDeny
  let debug := refuseDebugAddr settings.debugAddr
  let failures := failed .enum enums ++ failed .policy policy ++ failed .debugAddr debug
  match failures, policy with
  | [], .ok policy => .ok ⟨policy, settings.dryRun⟩
  | [], .error error => .error [.policy error]
  | failures, _ => .error failures

/-- `cold_changes`: the restart-only settings that differ. -/
def coldChanges (settings next : Settings) : List Key :=
  (([(Key.dockerSocket, settings.dockerSocket, next.dockerSocket),
      (Key.metricsAddr, settings.metricsAddr, next.metricsAddr),
      (Key.debugAddr, settings.debugAddr, next.debugAddr)].filter
    fun (_, current, next) => current != next).map fun (key, _) => key) ++
    if settings.logTime != next.logTime then [Key.logTime] else []

/-- `next` with the restart-only settings of `settings`. -/
def keepCold (settings next : Settings) : Settings :=
  { next with
    dockerSocket := settings.dockerSocket
    metricsAddr := settings.metricsAddr
    debugAddr := settings.debugAddr
    logTime := settings.logTime }

end Settings

/-! ## The store (`src/config/mod.rs`) -/

/-- A published runtime and its generation. -/
structure Snapshot where
  runtime : Runtime
  generation : BitVec 64

/-- `new_store`. -/
def newStore (initial : Runtime) : Snapshot := ⟨initial, 1⟩

/-- `Publisher::publish`. -/
def Snapshot.publish (current : Snapshot) (runtime : Runtime) : Snapshot :=
  ⟨runtime, current.generation + 1⟩

/-! ## Reloads -/

/-- Why a reload was rejected. -/
inductive ReloadError where
  | load (source : Config.LoadError)
  | invalid (failures : List SettingFailure)
  | dryRunEnable
  /-- The runtime shut down before the file was read. -/
  | canceled
  deriving DecidableEq, Repr

/-- What a reload starts from and never changes. -/
structure Reloader where
  path : List Char
  /-- The flags as parsed, defaults included. -/
  flags : Settings
  /-- The flags given on the command line. -/
  cliSet : List String

/-- What a reload changes: the settings in force, the store, and the calls that reconfigure the
logger. -/
structure ReloadState where
  current : Settings
  store : Snapshot
  loggerCalls : List (List Char × List Char)

section Reload

variable (parse : Bytes → Except SyntaxError Document) (floats : Floats) (reloader : Reloader)

/-- `reload`: re-reads the file and applies the hot-reloadable settings. `reading` is what the file
gives, if it is read at all; the answer is the restart-only settings that it reports as ignored. -/
def reload (reading : Option Reading) : Action ReloadState ReloadError (List Key) := do
  match reading with
  | none => Action.fail .canceled
  | some reading => do
    let file ← Action.mapErr .load (Action.ofExcept (loadFile parse floats reloader.path reading))
    let next := Settings.merge reloader.flags reloader.cliSet file
    let runtime ← Action.mapErr .invalid (Action.ofExcept next.validate)
    let state ← Action.get
    if next.dryRun && !state.current.dryRun then Action.fail .dryRunEnable
    else do
      let ignored := state.current.coldChanges next
      let next := state.current.keepCold next
      Action.modify fun state =>
        { state with loggerCalls := state.loggerCalls ++ [(next.logFormat, next.logLevel)] }
      Action.modify fun state => { state with store := state.store.publish runtime }
      Action.modify fun state => { state with current := next }
      pure ignored

/-- `startup_settings` and the store made from them, with the file that was accepted. -/
def startup (reading : Reading) : Except ReloadError (ReloadState × FileSchema) := do
  let file ← (loadFile parse floats reloader.path reading).mapError .load
  let effective := Settings.merge reloader.flags reloader.cliSet file
  let runtime ← effective.validate.mapError .invalid
  return (⟨effective, newStore runtime, []⟩, file)

/-- Reloads one after the other. -/
def reloadAll (readings : List (Option Reading)) (state : ReloadState) : ReloadState :=
  readings.foldl (fun state reading => (reload parse floats reloader reading state).2) state

end Reload

/-! ## What is in force -/

section Accepted

variable (parse : Bytes → Except SyntaxError Document) (floats : Floats) (reloader : Reloader)

/-- The file of a reload, if it loads. -/
def fileOf (reading : Option Reading) : Option FileSchema :=
  reading.bind fun reading => (loadFile parse floats reloader.path reading).toOption

/-- The file a reload has to accept after the file `last`: it loads, and merged with the flags it
gives valid settings that do not turn dry-run on. -/
def acceptable (last : FileSchema) (reading : Option Reading) : Option FileSchema :=
  (fileOf parse floats reloader reading).filter fun file =>
    (Settings.merge reloader.flags reloader.cliSet file).validate.isOk &&
      (!(Settings.merge reloader.flags reloader.cliSet file).dryRun ||
        (Settings.merge reloader.flags reloader.cliSet last).dryRun)

/-- The last file that had to be accepted. -/
def lastAcceptable (readings : List (Option Reading)) (first : FileSchema) : FileSchema :=
  readings.foldl (fun last reading => (acceptable parse floats reloader last reading).getD last)
    first

end Accepted

/-- What is in force after a startup with the settings `start`, when `last` is the last file that
was accepted. -/
structure InForce (reloader : Reloader) (start : Settings) (last : FileSchema)
    (state : ReloadState) : Prop where
  /-- The hot-reloadable settings of the merged ones, and the restart-only settings of the startup.
  -/
  settings : state.current = start.keepCold (Settings.merge reloader.flags reloader.cliSet last)
  /-- The runtime last published is theirs. -/
  dryRun : state.store.runtime.dryRun = state.current.dryRun
  policy : Global.new (String.ofList state.current.policyMode) state.current.deviceAllow
    state.current.deviceDeny =
    .ok state.store.runtime.policy

theorem Settings.validate_ok {settings : Settings} {runtime : Runtime}
    (h : settings.validate = .ok runtime) :
    runtime.dryRun = settings.dryRun ∧
      Global.new (String.ofList settings.policyMode) settings.deviceAllow settings.deviceDeny =
        .ok runtime.policy := by
  unfold validate at h
  dsimp only at h
  split at h
  · case h_1 policy _ hpolicy =>
    cases h
    exact ⟨rfl, hpolicy⟩
  · cases h
  · cases h

section Reload

variable {parse : Bytes → Except SyntaxError Document} {floats : Floats} {reloader : Reloader}
  {reading : Option Reading} {state state' : ReloadState} {start : Settings} {last : FileSchema}

/-- A reload of a file that is not acceptable is rejected and changes nothing; otherwise the file is
merged into settings that are valid and do not turn dry-run on, and they are put in force. -/
theorem reload_cases (parse : Bytes → Except SyntaxError Document) (floats : Floats)
    (h : InForce reloader start last state) (reading : Option Reading) :
    (acceptable parse floats reloader last reading = none ∧
      ∃ error, reload parse floats reloader reading state = (.error error, state)) ∨
    ∃ file runtime ignored, acceptable parse floats reloader last reading = some file ∧
      (Settings.merge reloader.flags reloader.cliSet file).validate = .ok runtime ∧
      ((Settings.merge reloader.flags reloader.cliSet file).dryRun = true →
        state.current.dryRun = true) ∧
      reload parse floats reloader reading state = (.ok ignored,
        ⟨state.current.keepCold (Settings.merge reloader.flags reloader.cliSet file),
          state.store.publish runtime,
          state.loggerCalls ++ [((Settings.merge reloader.flags reloader.cliSet file).logFormat,
            (Settings.merge reloader.flags reloader.cliSet file).logLevel)]⟩) := by
  have hlast : (Settings.merge reloader.flags reloader.cliSet last).dryRun =
      state.current.dryRun := by
    rw [h.settings]
    rfl
  cases reading with
  | none => exact .inl ⟨rfl, .canceled, rfl⟩
  | some reading =>
    unfold reload acceptable fileOf
    dsimp only [Option.bind_some]
    cases hload : loadFile parse floats reloader.path reading with
    | error source => exact .inl ⟨rfl, .load source, rfl⟩
    | ok file =>
      rw [Except.toOption, Option.filter_some, hlast]
      have hfile : Action.mapErr ReloadError.load (Action.ofExcept (.ok file)) state =
          (.ok file, state) := rfl
      rw [Action.bind_of_ok hfile]
      cases hvalid : (Settings.merge reloader.flags reloader.cliSet file).validate with
      | error failures => exact .inl ⟨rfl, .invalid failures, rfl⟩
      | ok runtime =>
        have hruntime : Action.mapErr ReloadError.invalid (Action.ofExcept (.ok runtime)) state =
          (.ok runtime, state) := rfl
        have hget : (Action.get : Action ReloadState ReloadError ReloadState) state =
            (.ok state, state) := rfl
        rw [Action.bind_of_ok hruntime, Action.bind_of_ok hget]
        by_cases hdry : (Settings.merge reloader.flags reloader.cliSet file).dryRun &&
          !state.current.dryRun
        · rw [if_pos hdry]
          refine .inl ⟨?_, .dryRunEnable, rfl⟩
          obtain ⟨hon, hoff⟩ := Bool.and_eq_true_iff.mp hdry
          simp [hon, (Bool.not_eq_true' _).mp hoff, Except.isOk, Except.toBool]
        · rw [if_neg hdry]
          have hkept : (Settings.merge reloader.flags reloader.cliSet file).dryRun = true →
              state.current.dryRun = true := fun hon => by simpa [hon] using hdry
          refine .inr ⟨file, runtime, _, if_pos ?_, hvalid, hkept, rfl⟩
          cases hon : (Settings.merge reloader.flags reloader.cliSet file).dryRun with
          | false => rfl
          | true => rw [hkept hon]; rfl

/-- The settings of a startup are in force. -/
theorem startup_inForce {first : Reading}
    (h : startup parse floats reloader first = .ok (state, last)) :
    InForce reloader state.current last state := by
  unfold startup at h
  cases hload : loadFile parse floats reloader.path first with
  | error source =>
    rw [hload] at h
    cases h
  | ok accepted =>
    simp only [hload, Except.mapError, bind, Except.bind] at h
    cases hvalid : (Settings.merge reloader.flags reloader.cliSet accepted).validate with
    | error failures =>
      rw [hvalid] at h
      cases h
    | ok runtime =>
      rw [hvalid] at h
      cases h
      obtain ⟨hdry, hpolicy⟩ := Settings.validate_ok hvalid
      exact ⟨rfl, hdry, hpolicy⟩

/-- One reload keeps it so. -/
theorem InForce.reload (h : InForce reloader start last state) {file : FileSchema}
    {runtime : Runtime} {calls : List (List Char × List Char)}
    (hvalid : (Settings.merge reloader.flags reloader.cliSet file).validate = .ok runtime) :
    InForce reloader start file
      ⟨state.current.keepCold (Settings.merge reloader.flags reloader.cliSet file),
        state.store.publish runtime, calls⟩ where
  settings := by rw [h.settings]; rfl
  dryRun := (Settings.validate_ok hvalid).1
  policy := (Settings.validate_ok hvalid).2

theorem reloadAll_inForce (readings : List (Option Reading))
    (h : InForce reloader start last state) :
    InForce reloader start (lastAcceptable parse floats reloader readings last)
      (reloadAll parse floats reloader readings state) := by
  induction readings generalizing last state with
  | nil => exact h
  | cons reading readings ih =>
    rw [lastAcceptable, reloadAll, List.foldl_cons, List.foldl_cons]
    rcases reload_cases parse floats h reading with
      ⟨hnone, error, hreload⟩ | ⟨file, runtime, ignored, hfile, hvalid, -, hreload⟩
    · rw [hnone, hreload]
      exact ih h
    · rw [hfile, hreload]
      exact ih (h.reload hvalid)

end Reload

/-- **Reloads compose.** After a startup and any reloads, of files that can be read or not, what is
in force is the startup's restart-only settings and, for the rest, the flags merged with the last
file that was acceptable; the runtime last published is that of the settings in force. The next
reload accepts exactly an acceptable file and does not turn dry-run on, and if it is rejected it
publishes nothing, does not touch the logger and leaves the settings in force as they are. -/
theorem reloads_compose (parse : Bytes → Except SyntaxError Document) (floats : Floats)
    (reloader : Reloader) (first : Reading) (start : ReloadState) (file : FileSchema)
    (hstart : startup parse floats reloader first = .ok (start, file))
    (readings : List (Option Reading)) :
    let after := reloadAll parse floats reloader readings start
    let last := lastAcceptable parse floats reloader readings file
    InForce reloader start.current last after ∧
    ∀ reading,
      ((Cli.reload parse floats reloader reading after).1.isOk = true ↔
        ∃ next, acceptable parse floats reloader last reading = some next) ∧
      ((Cli.reload parse floats reloader reading after).2.current.dryRun = true →
        after.current.dryRun = true) ∧
      ∀ error, (Cli.reload parse floats reloader reading after).1 = .error error →
        (Cli.reload parse floats reloader reading after).2 = after := by
  intro after last
  have hafter : InForce reloader start.current last after :=
    reloadAll_inForce readings (startup_inForce hstart)
  refine ⟨hafter, fun reading => ?_⟩
  rcases reload_cases parse floats hafter reading with
    ⟨hnone, error, hreload⟩ | ⟨next, runtime, ignored, hnext, -, hdry, hreload⟩
  · rw [hreload, hnone]
    exact ⟨by simp [Except.isOk, Except.toBool], fun h => h, fun _ _ => rfl⟩
  · rw [hreload]
    refine ⟨⟨fun _ => ⟨next, hnext⟩, fun _ => rfl⟩, hdry, fun error herror => ?_⟩
    cases herror

/-! A daemon that was started with dry-run off, and four files: one says nothing, one sets what can
be reloaded and what cannot, one turns dry-run on, and one has an unknown policy mode. -/

def sampleReloader : Reloader where
  path := "config.yaml".toList
  flags := ⟨"text".toList, "info".toList, true, "docker.sock".toList, [], [], false,
    "opt-in".toList, none, none⟩
  cliSet := []

/-- `log-format: json`, `log-level: debug` and `docker-socket: other.sock`. -/
def debugDocument : Tree 7 where
  nodes := List.get
    [{ kind := .mapping, tag := some .map, content := [1, 2, 3, 4, 5, 6] },
      Tree.leaf .str "log-format" false, Tree.leaf .str "json" false,
      Tree.leaf .str "log-level" false, Tree.leaf .str "debug" false,
      Tree.leaf .str "docker-socket" false, Tree.leaf .str "other.sock" false]
  root := some 0
  anchored := by decide

def debugSettings : FileSchema where
  logFormat := "json".toList
  logLevel := "debug".toList
  dockerSocket := "other.sock".toList

/-- `dry-run: true`. -/
def dryDocument : Tree 3 where
  nodes := List.get
    [{ kind := .mapping, tag := some .map, content := [1, 2] },
      Tree.leaf .str "dry-run" false, Tree.leaf .bool "true" false]
  root := some 0
  anchored := by decide

/-- `policy-mode: never`. -/
def oddDocument : Tree 3 where
  nodes := List.get
    [{ kind := .mapping, tag := some .map, content := [1, 2] },
      Tree.leaf .str "policy-mode" false, Tree.leaf .str "never" false]
  root := some 0
  anchored := by decide

def sampleParse : Bytes → Except SyntaxError Document
  | [1] => .ok ⟨7, debugDocument, .ok true⟩
  | [2] => .ok ⟨3, dryDocument, .ok true⟩
  | [3] => .ok ⟨3, oddDocument, .ok true⟩
  | _ => .ok ⟨0, ⟨Fin.elim0, none, nofun⟩, .ok true⟩

def sampleState : ReloadState :=
  ⟨sampleReloader.flags,
    newStore ⟨⟨.optIn, none, none, Policy.validateGlobs_none, Policy.validateGlobs_none⟩, false⟩,
    []⟩

/-- The first reading is accepted; then a file that turns dry-run on, one that is not valid and one
that is missing are refused. -/
def sampleReadings : List (Option Reading) :=
  [some (.ok [1]), some (.ok [2]), some (.ok [3]), some (.error ("open", Errno.noent))]

/-- What the accepted file set stays in force, and a file that drops it again is accepted. -/
theorem reloads_compose_sample :
    InForce sampleReloader sampleReloader.flags debugSettings
        (reloadAll sampleParse Tree.noFloats sampleReloader sampleReadings sampleState) ∧
      (reload sampleParse Tree.noFloats sampleReloader (some (.ok []))
        (reloadAll sampleParse Tree.noFloats sampleReloader sampleReadings sampleState)).1.isOk =
          true ∧
      InForce sampleReloader sampleReloader.flags {}
        (reloadAll sampleParse Tree.noFloats sampleReloader (sampleReadings ++ [some (.ok [])])
          sampleState) := by
  have hlast : lastAcceptable sampleParse Tree.noFloats sampleReloader sampleReadings {} =
      debugSettings := by decide +kernel
  have hdropped : lastAcceptable sampleParse Tree.noFloats sampleReloader
      (sampleReadings ++ [some (.ok [])]) {} = {} := by
    decide +kernel
  have hset := reloads_compose sampleParse Tree.noFloats sampleReloader (.ok []) sampleState {}
    (by rfl) sampleReadings
  have hdrop := reloads_compose sampleParse Tree.noFloats sampleReloader (.ok []) sampleState {}
    (by rfl) (sampleReadings ++ [some (.ok [])])
  rw [hlast] at hset
  rw [hdropped] at hdrop
  exact ⟨hset.1, ((hset.2 (some (.ok []))).1).mpr ⟨{}, by decide +kernel⟩, hdrop.1⟩

end Cli
end Sda
