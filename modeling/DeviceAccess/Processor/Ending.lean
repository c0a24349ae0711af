import DeviceAccess.Processor.OnRecord

/-!
# What is left of a run that has ended

From the end of a run on, no inspect reports it as running. Its record then names the directory it
named, and it is marked as revoked only after the empty set was applied there (`Tracked`). Every
operation spares it in that sense (`op_sparing`), whatever the host does meanwhile.
-/

namespace Sda
namespace Processor

open V2 (Identity)

/-- A run that has ended: its record's start time and directory, and what had been set before its
end. -/
structure EndedRun where
  id : ContainerId
  startedAt : String
  identity : Identity
  before : List SetCall
  dated : startedAt ≠ ""

namespace EndedRun

variable (run : EndedRun)

/-- Since the end of the run, the empty set was applied at its directory. -/
def Emptied (scene : Scene) : Prop :=
  ∃ since, scene.sets = since ++ run.before ∧
    ∃ call ∈ since, call.id = run.id ∧ call.identity = run.identity ∧ call.empties = true

/-- The record is not of the run, or names its directory. -/
def Fits (record : LifecycleRecord) : Prop :=
  record.containerId = run.id → record.startedAt = run.startedAt →
    record.identity = some run.identity

/-- The run's record names its directory, and is marked as revoked only after the empty set was
applied there. -/
structure Tracked (scene : Scene) : Prop where
  tidy : scene.history.Tidy
  since : ∃ since, scene.sets = since ++ run.before
  names : ∀ record ∈ scene.history.records run.id, record.startedAt = run.startedAt →
    record.identity = some run.identity
  emptied : ∀ record ∈ scene.history.records run.id, record.startedAt = run.startedAt →
    record.revoked = true → run.Emptied scene

/-- The act does not record the run again, and marks it as revoked only after the empty set was
applied. -/
def Spares (scene : Scene) : Act → Prop
  | .verify id startedAt _ _ => startedAt ≠ "" ∧ (id = run.id → startedAt ≠ run.startedAt)
  | .markRevoked id startedAt => id = run.id → startedAt = run.startedAt → run.Emptied scene
  | _ => True

variable {run : EndedRun}

theorem Emptied.set {scene : Scene} (h : run.Emptied scene) (call : SetCall) :
    run.Emptied { scene with sets := call :: scene.sets } := by
  obtain ⟨since, hsince, found, hfound, hempties⟩ := h
  exact ⟨call :: since, by rw [hsince, List.cons_append], found,
    List.mem_cons_of_mem _ hfound, hempties⟩

theorem Tracked.fits {scene : Scene} (h : run.Tracked scene) {other : ContainerId}
    {record : LifecycleRecord} (hrecord : record ∈ scene.history.records other) :
    run.Fits record := by
  intro hid hstart
  rw [(h.tidy other).containerId record hrecord] at hid
  subst hid
  exact h.names record hrecord hstart

theorem Fits.ended {record : LifecycleRecord} (h : run.Fits record) : run.Fits record.ended := h

/-! ## What an act keeps -/

/-- What holds of the run's records before holds after, when each is one that was there, with its
directory and its mark. -/
theorem Tracked.of_old {scene : Scene} {history : Lifecycles} (h : run.Tracked scene)
    (htidy : history.Tidy)
    (hold : ∀ record ∈ history.records run.id, record.startedAt = run.startedAt →
      ∃ old ∈ scene.history.records run.id, old.startedAt = run.startedAt ∧
        record.identity = old.identity ∧
        (record.revoked = true → old.revoked = true ∨ run.Emptied scene)) :
    run.Tracked { scene with history := history } := by
  refine ⟨htidy, h.since, fun record hrecord hstart => ?_, fun record hrecord hstart hrevoked => ?_⟩
  · obtain ⟨old, hmem, hsame, hid, -⟩ := hold record hrecord hstart
    rw [hid]
    exact h.names old hmem hsame
  · obtain ⟨old, hmem, hsame, -, hmark⟩ := hold record hrecord hstart
    rcases hmark hrevoked with hold | hemptied
    · exact h.emptied old hmem hsame hold
    · exact hemptied

/-- The records after `provisional`: those that were, refreshed, and a new one without a start time.
-/
theorem mem_provisional_dated {history : Lifecycles} {id other : ContainerId} {now : Timestamp}
    {record : LifecycleRecord} (h : record ∈ (history.provisional id now).records other)
    (hdated : record.startedAt ≠ "") :
    ∃ old ∈ history.records other, old.startedAt = record.startedAt ∧
    record.identity = old.identity ∧
      record.revoked = old.revoked := by
  have hsame (hold : record ∈ history.records other) : ∃ old ∈ history.records other,
      old.startedAt = record.startedAt ∧ record.identity = old.identity ∧
        record.revoked = old.revoked :=
    ⟨record, hold, rfl, rfl, rfl⟩
  rw [Lifecycles.provisional] at h
  by_cases hother : other = id
  · subst hother
    split at h
    · next hany =>
      obtain ⟨front, refreshed, back, hsplit, -, -, hchanged⟩ :=
        changeFirst_split ({ · with observed := now }) hany
      rw [Lifecycles.records_put_self, hchanged] at h
      rcases List.mem_append.mp h with hfront | hback
      · exact hsame (hsplit ▸ List.mem_append_left _ hfront)
      · rcases List.mem_cons.mp hback with rfl | hback
        · exact ⟨refreshed, hsplit ▸ List.mem_append_right _ List.mem_cons_self, rfl, rfl, rfl⟩
        · exact hsame (hsplit ▸ List.mem_append_right _ (List.mem_cons_of_mem _ hback))
    · rw [Lifecycles.records_put_self] at h
      rcases List.mem_append.mp ((boundRecords_sublist _ _).subset h) with hold | hnew
      · exact hsame hold
      · rw [List.mem_singleton.mp hnew] at hdated
        exact absurd rfl hdated
  · split at h
    all_goals
      rw [Lifecycles.records_put_of_ne hother] at h
      exact hsame h

theorem Tracked.apply {parse : String → Option Timestamp} {scene : Scene} {act : Act}
    (h : run.Tracked scene) (hspares : run.Spares scene act) :
    run.Tracked (act.apply parse scene) := by
  cases act with
  | dirs changes => exact ⟨h.tidy, h.since, h.names, h.emptied⟩
  | provisional id now =>
    refine h.of_old h.tidy.provisional fun record hrecord hstart => ?_
    obtain ⟨old, hold, hsame, hid, hrevoked⟩ := mem_provisional_dated hrecord (hstart ▸ run.dated)
    exact ⟨old, hold, hsame.trans hstart, hid, fun h => .inl (hrevoked ▸ h)⟩
  | verify id startedAt cgroup now =>
    refine h.of_old (h.tidy.verify hspares.1) fun record hrecord hstart => ?_
    rcases Lifecycles.mem_verify hrecord with hold | ⟨rfl, hnew, -, -⟩
    · exact ⟨record, hold, hstart, rfl, .inl⟩
    · exact absurd (hnew.symm.trans hstart) (hspares.2 rfl)
  | terminate id eventTime =>
    refine h.of_old (h.tidy.ages Lifecycles.ages_terminate) fun record hrecord hstart => ?_
    obtain ⟨records, heq, hrecords, -⟩ := Lifecycles.terminate_eq parse scene.history id eventTime
    rw [heq] at hrecord
    by_cases hother : run.id = id
    · subst hother
      rw [Lifecycles.records_put_self] at hrecord
      obtain ⟨old, hold, rfl | ⟨rfl, -⟩⟩ := forall₂_exists_left hrecords hrecord
      · exact ⟨record, hold, hstart, rfl, .inl⟩
      · exact ⟨old, hold, hstart, rfl, .inl⟩
    · rw [Lifecycles.records_put_of_ne hother] at hrecord
      exact ⟨record, hrecord, hstart, rfl, .inl⟩
  | markTerminal id startedAt =>
    refine h.of_old (h.tidy.ages Lifecycles.ages_markTerminal) fun record hrecord hstart => ?_
    obtain ⟨old, hold, rfl | ⟨-, -, rfl⟩⟩ := Lifecycles.mem_update hrecord
    · exact ⟨record, hold, hstart, rfl, .inl⟩
    · exact ⟨old, hold, hstart, rfl, .inl⟩
  | markRevoked id startedAt =>
    refine h.of_old (h.tidy.ages Lifecycles.ages_markRevoked) fun record hrecord hstart => ?_
    obtain ⟨old, hold, rfl | ⟨hother, hown, rfl⟩⟩ := Lifecycles.mem_update hrecord
    · exact ⟨record, hold, hstart, rfl, .inl⟩
    · have hsame : old.startedAt = run.startedAt := by
        split at hstart <;> exact hstart
      refine ⟨old, hold, hsame, by split <;> rfl, fun _ =>
        .inr (hspares hother.symm (hown.symm.trans hsame))⟩
  | release released =>
    refine h.of_old h.tidy.release fun record hrecord hstart => ?_
    exact ⟨record, (Lifecycles.mem_release.mp hrecord).1, hstart, rfl, .inl⟩
  | set call =>
    obtain ⟨since, hsince⟩ := h.since
    refine ⟨h.tidy, ⟨call :: since, by rw [Act.apply, hsince, List.cons_append]⟩, h.names, ?_⟩
    exact fun record hrecord hstart hrevoked => (h.emptied record hrecord hstart hrevoked).set call

/-! ## What every operation spares -/

section Operations

variable {σ ν : Type} {host : Host σ ν} {start world : World σ} {record : LifecycleRecord}

/-- The acts since `start` spare the run. -/
abbrev Sparing (host : Host σ ν) (run : EndedRun) (start : World σ) : World σ → Prop :=
  Goes host run.Spares start

theorem calm_sparing (host : Host σ ν) (run : EndedRun) (start : World σ) :
    Calm host (Sparing host run start) := Calm.goes fun _ _ => trivial

theorem tracked_of_sparing (hstart : run.Tracked start.scene) (h : Sparing host run start world) :
    run.Tracked world.scene :=
  h.invariant run.Tracked (fun _ _ ht hspares => ht.apply hspares) hstart

theorem revokeAt_sparing (hstart : run.Tracked start.scene) (hfits : run.Fits record) :
    Triple (Sparing host run start) (revokeAt host record) (fun _ => Sparing host run start)
      (fun _ => Sparing host run start) := by
  rw [revokeAt]
  cases hcgroup : record.cgroup with
  | none => exact .pure _ fun _ h => h
  | some cgroup =>
    refine (openRecorded_triple (calm_sparing host run start) record.containerId
      cgroup.identity).bind
      fun recorded => ?_
    cases recorded with
    | gone => exact perform_triple _ fun world h => h.1.perform trivial
    | «open» identity =>
      refine Triple.of_pre (fun world => identity = cgroup.identity ∧ Sparing host run start world)
        (.lift fun heq => ?_) fun world h => ?_
      · subst heq
        -- The answered call is on top of what was set, so a mark after it is earned.
        refine (setDeviceRules_triple (calm_sparing host run start)
          (fun result world => Sparing host run start world ∧
            ((SetCall.mk record.containerId cgroup.identity cgroup.version [] result).empties =
              true →
              record.containerId = run.id → record.startedAt = run.startedAt →
                run.Emptied world.scene))
          fun world result h => ⟨h.perform trivial, fun hempties hid hstart' => ?_⟩).bind
            fun result => ?_
        · obtain ⟨since, hsince⟩ := (tracked_of_sparing hstart h).since
          have hidentity : cgroup.identity = run.identity := by
            have hsome := hfits hid hstart'
            rw [LifecycleRecord.identity, hcgroup] at hsome
            exact Option.some.inj hsome
          refine ⟨_ :: since, ?_, _, List.mem_cons_self, hid, hidentity, hempties⟩
          rw [World.perform, Act.apply, hsince]
          rfl
        · cases result with
          | ok => exact perform_triple _ fun world h => h.1.perform fun hid hst => h.2 rfl hid hst
          | error error =>
            refine Triple.ite (fun hmissing => ?_) fun _ => .fail _ fun _ h => h.1
            exact perform_triple _ fun world h => h.1.perform fun hid hst => h.2 hmissing hid hst
      · rcases h.2 with ⟨heq, -⟩ | ⟨heq, -⟩
        · cases heq
          exact ⟨rfl, h.1⟩
        · cases heq

theorem revokeEach_sparing (hstart : run.Tracked start.scene) (records : List LifecycleRecord)
    (hfits : ∀ record ∈ records, run.Fits record) :
    Triple (Sparing host run start) (revokeEach host records) (fun _ => Sparing host run start)
      (fun _ => Sparing host run start) := by
  induction records with
  | nil => exact .pure _ fun _ h => h
  | cons record records ih =>
    obtain ⟨hfirst, hrest⟩ := List.forall_mem_cons.mp hfits
    refine (Triple.attempt (fun _ => Sparing host run start) (revokeAt_sparing hstart hfirst)).bind
      fun revoked => ?_
    refine (ih hrest).bind fun errors => ?_
    cases revoked with
    | ok => exact .pure _ fun _ h => h
    | error => exact .pure _ fun _ h => h

theorem sweepRecord_sparing (hstart : run.Tracked start.scene) (config : Runtime) (now : Timestamp)
    (hfits : run.Fits record) :
    Triple (Sparing host run start) (sweepRecord host config now record)
      (fun _ => Sparing host run start) (fun _ => Sparing host run start) := by
  have hrelease : Triple (Sparing host run start) (do perform host (.release record); pure true)
      (fun _ => Sparing host run start) (fun _ : Error => Sparing host run start) :=
    (perform_triple _ fun world h => h.perform trivial).bind fun _ => .pure _ fun _ h => h
  rw [sweepRecord]
  cases record.cgroup with
  | none => exact Triple.ite (fun _ => hrelease) fun _ => .pure _ fun _ h => h
  | some cgroup =>
    refine Triple.attempt_bind
      ((cgroupGone_triple (calm_sparing host run start) cgroup.identity).weaken
      (fun _ h => h) (fun _ _ h => h.1) fun _ _ h => h) (fun gone => ?_) fun _ =>
        .pure _ fun _ h => h
    cases gone with
    | true => exact hrelease
    | false =>
      refine Triple.ite (fun _ => ?_) fun _ => .pure _ fun _ h => h
      exact (Triple.attempt (fun _ => Sparing host run start) (revokeAt_sparing hstart hfits)).bind
        fun _ => .pure _ fun _ h => h

theorem sweepRecords_sparing (hstart : run.Tracked start.scene) (config : Runtime) (now : Timestamp)
    (records : List LifecycleRecord) (hfits : ∀ record ∈ records, run.Fits record) :
    Triple (Sparing host run start) (sweepRecords host config now records)
      (fun _ => Sparing host run start) (fun _ => Sparing host run start) := by
  induction records with
  | nil => exact .pure _ fun _ h => h
  | cons record records ih =>
    obtain ⟨hfirst, hrest⟩ := List.forall_mem_cons.mp hfits
    exact (sweepRecord_sparing hstart config now hfirst).bind fun _ =>
      (ih hrest).bind fun _ => .pure _ fun _ h => h

/-- What was looked at on the way still fits. -/
theorem fits_of_sparing (hstart : run.Tracked start.scene) (h : Sparing host run start world)
    {other : ContainerId} (hrecord : record ∈ world.scene.history.records other) :
    run.Fits record :=
  (tracked_of_sparing hstart h).fits hrecord

theorem sweep_sparing (hstart : run.Tracked start.scene) (config : Runtime) :
    Triple (Sparing host run start) (sweep host config) (fun _ => Sparing host run start)
      (fun _ => Sparing host run start) := by
  refine (clock_triple (calm_sparing host run start)).bind fun now => Triple.get.bind fun seen => ?_
  refine Triple.of_pre (fun world => Sparing host run start seen ∧ Sparing host run start world)
    (.lift fun hseen => ?_) fun world ⟨hseen, h⟩ => ⟨hseen ▸ h, h⟩
  refine sweepRecords_sparing hstart config now _ fun record hrecord => ?_
  obtain ⟨other, -, hother⟩ := List.mem_flatMap.mp hrecord
  exact fits_of_sparing hstart hseen hother

theorem terminate_sparing (hstart : run.Tracked start.scene) (config : Runtime) (id : ContainerId)
    (eventTime : Timestamp) :
    Triple (Sparing host run start) (terminate host config id eventTime)
      (fun _ => Sparing host run start) (fun _ => Sparing host run start) := by
  refine Triple.get.bind fun seen => ?_
  refine Triple.of_pre (fun world => Sparing host run start seen ∧ Sparing host run start world)
    (.lift fun hseen => ?_) fun world ⟨hseen, h⟩ => ⟨hseen ▸ h, h⟩
  refine (perform_triple _ fun world h => h.perform trivial).bind fun _ => ?_
  refine Triple.ite (fun _ => .pure _ fun _ h => h) fun _ => ?_
  refine (revokeEach_sparing hstart _ fun ended hended => ?_).bind
    fun errors => .ofExcept _ (fun _ _ _ h => h) fun _ _ _ h => h
  obtain ⟨-, -, -, hfrom⟩ := Lifecycles.terminate_eq host.parse seen.scene.history id eventTime
  obtain ⟨old, hold, rfl, -⟩ := hfrom ended (List.mem_of_mem_filter hended)
  exact (fits_of_sparing hstart hseen hold).ended

theorem revokeRuns_sparing (hstart : run.Tracked start.scene) (id : ContainerId) :
    Triple (Sparing host run start) (revokeRuns host id) (fun _ => Sparing host run start)
      (fun _ => Sparing host run start) := by
  refine (clock_triple (calm_sparing host run start)).bind fun now => ?_
  refine (perform_triple _ fun world h => h.perform trivial).bind fun _ =>
    Triple.get.bind fun seen => ?_
  refine Triple.of_pre (fun world => Sparing host run start seen ∧ Sparing host run start world)
    (.lift fun hseen => ?_) fun world ⟨hseen, h⟩ => ⟨hseen ▸ h, h⟩
  exact revokeEach_sparing hstart _ fun record hrecord =>
    fits_of_sparing hstart hseen (List.mem_of_mem_filter hrecord)

theorem revokeAfterInspectFailure_sparing (hstart : run.Tracked start.scene) (id : ContainerId)
    (dryRun : Bool) (inspectError : Error) :
    Triple (Sparing host run start) (revokeAfterInspectFailure host id dryRun inspectError)
      (fun _ => Sparing host run start) (fun _ => Sparing host run start) := by
  have herrors : Triple (Sparing host run start) (if dryRun then pure [] else revokeRuns host id)
      (fun _ => Sparing host run start) (fun _ => Sparing host run start) :=
    .ite (fun _ => .pure _ fun _ h => h) fun _ => revokeRuns_sparing hstart id
  exact herrors.bind fun errors => .ite (fun _ => .fail _ fun _ h => h) fun _ =>
    .fail _ fun _ h => h

theorem revokeEnded_sparing (hstart : run.Tracked start.scene) (id : ContainerId)
    (startedAt : String) :
    Triple (Sparing host run start) (revokeEnded host id startedAt)
      (fun _ => Sparing host run start) (fun _ => Sparing host run start) := by
  refine Triple.get.bind fun seen => ?_
  refine Triple.of_pre (fun world => Sparing host run start seen ∧ Sparing host run start world)
    (.lift fun hseen => ?_) fun world ⟨hseen, h⟩ => ⟨hseen ▸ h, h⟩
  cases hfound : (seen.scene.history.lookup id startedAt).filter (·.hasIdentity) with
  | none => exact .pure _ fun _ h => h
  | some found =>
    have hlookup := (Option.filter_eq_some_iff.mp hfound).1
    have hfits := fits_of_sparing hstart hseen (List.mem_of_find?_eq_some hlookup)
    exact (perform_triple _ fun world h => h.perform trivial).bind
      fun _ => revokeAt_sparing hstart hfits.ended

theorem revokeMoved_sparing (moved : LifecycleRecord) (previous : RunCgroup) :
    Triple (Sparing host run start) (revokeMoved host moved previous)
      (fun _ => Sparing host run start) (fun _ => Sparing host run start) := by
  refine (openRecorded_triple (calm_sparing host run start) moved.containerId
    previous.identity).bind
    fun recorded => ?_
  cases recorded with
  | gone => exact .pure _ fun _ h => h.1
  | «open» identity =>
    refine Triple.of_pre (Sparing host run start) ?_ fun _ h => h.1
    refine (setDeviceRules_triple (calm_sparing host run start) (fun _ => Sparing host run start)
      fun world result h => h.perform trivial).bind fun result => ?_
    cases result with
    | ok => exact .pure _ fun _ h => h
    | error error => exact Triple.ite (fun _ => .pure _ fun _ h => h) fun _ => .fail _ fun _ h => h

theorem leavePrevious_sparing (id : ContainerId) (state : Docker.ContainerState)
    (identity : Identity) :
    Triple (Sparing host run start) (leavePrevious host id state identity)
      (fun _ => Sparing host run start) (fun _ => Sparing host run start) := by
  refine Triple.get.bind fun seen => Triple.of_pre (Sparing host run start) ?_ fun _ h => h.2
  cases seen.scene.history.lookup id state.startedAt with
  | none => exact .pure _ fun _ h => h
  | some moved =>
    cases hcgroup : moved.cgroup with
    | none =>
      simp only [hcgroup]
      exact .pure _ fun _ h => h
    | some previous =>
      simp only [hcgroup]
      refine Triple.ite (fun _ => .pure _ fun _ h => h) fun _ => ?_
      exact (revokeMoved_sparing moved previous).bind fun _ =>
        verifyPinned_triple (calm_sparing host run start) id state identity true

theorem applyOpened_sparing {id : ContainerId} {state : Docker.ContainerState}
    (hdated : state.startedAt ≠ "") (hother : id = run.id → state.startedAt ≠ run.startedAt)
    (privileged : Bool) (rules : List Filter.DeviceRule) (version : CgroupVersion)
    (identity : Identity) :
    Triple (Sparing host run start) (applyOpened host id state privileged rules version identity)
      (fun _ => Sparing host run start) (fun _ => Sparing host run start) := by
  have hcalm := calm_sparing host run start
  refine (verifyPinned_triple hcalm id state identity _).bind fun _ => ?_
  refine (leavePrevious_sparing id state identity).bind fun _ => ?_
  refine (clock_triple hcalm).bind fun now => ?_
  refine (perform_triple _ fun world h => h.perform ⟨hdated, hother⟩).bind fun _ => ?_
  refine (setDeviceRules_triple hcalm (fun _ => Sparing host run start)
    fun world result h => h.perform trivial).bind fun applied => ?_
  exact .ofExcept _ (fun _ _ _ h => h) fun _ _ _ h => h

theorem applyPinned_sparing {id : ContainerId} {state : Docker.ContainerState}
    (hdated : state.startedAt ≠ "") (hother : id = run.id → state.startedAt ≠ run.startedAt)
    (privileged : Bool) (rules : List Filter.DeviceRule) :
    Triple (Sparing host run start) (applyPinned host id state privileged rules)
      (fun _ => Sparing host run start) (fun _ => Sparing host run start) := by
  have hcalm := calm_sparing host run start
  have hfrom : ∀ {α : Type} (r : Except Error α), Triple (Sparing host run start) (.ofExcept r)
      (fun _ => Sparing host run start) (fun _ => Sparing host run start) := fun r =>
    .ofExcept r (fun _ _ _ h => h) fun _ _ _ h => h
  refine (call_triple hcalm).bind fun number => (hfrom _).bind fun _ => ?_
  refine (call_triple hcalm).bind fun number => (hfrom _).bind fun (path, version) => ?_
  have hopen : Triple (Sparing host run start)
      (Action.mapErr Error.openCgroup (openHandle host path))
      (fun _ => Sparing host run start) (fun _ => Sparing host run start) :=
    Triple.mapErr
      ((openHandle_triple hcalm path).weaken (fun _ h => h) (fun _ _ h => h.1) fun _ _ h => h.1)
  exact hopen.bind (applyOpened_sparing hdated hother privileged rules version)

theorem reconcileRunning_sparing {id : ContainerId} {state : Docker.ContainerState}
    (hdated : state.startedAt ≠ "") (hother : id = run.id → state.startedAt ≠ run.startedAt)
    (config : Runtime) (info : Docker.ContainerInspect) :
    Triple (Sparing host run start) (reconcileRunning host config id info state)
      (fun _ => Sparing host run start) (fun _ => Sparing host run start) := by
  have hdesired : Triple (Sparing host run start)
      (desiredRules host config info : Action (World σ) Error Desired)
      (fun _ => Sparing host run start) (fun _ => Sparing host run start) :=
        fun world h => h.of_eq rfl rfl
  refine hdesired.bind fun desired => ?_
  refine Triple.ite (fun _ => .ofExcept _ (fun _ _ _ h => h) fun _ _ _ h => h) fun _ => ?_
  refine (Triple.attempt (fun _ => Sparing host run start)
    (applyPinned_sparing hdated hother _ _)).bind fun applied => ?_
  cases applied with
  | ok => exact .ofExcept _ (fun _ _ _ h => h) fun _ _ _ h => h
  | error => exact .ofExcept _ (fun _ _ _ h => h) fun _ _ _ h => h

theorem reconcileLocked_sparing (hstart : run.Tracked start.scene) (config : Runtime)
    {id : ContainerId} {answer : Except DockerError Docker.ContainerInspect}
    (hlive : ∀ info state, answer = .ok info → liveState info = some state →
      state.startedAt ≠ "" ∧ (id = run.id → state.startedAt ≠ run.startedAt)) :
    Triple (Sparing host run start) (reconcileLocked host config id (answer.mapError (.inspect id)))
      (fun _ => Sparing host run start) (fun _ => Sparing host run start) := by
  cases hanswer : answer with
  | error error =>
    refine Triple.get.bind fun seen => Triple.of_pre (Sparing host run start) ?_ fun _ h => h.2
    exact Triple.ite (fun _ => .fail _ fun _ h => h) fun _ =>
      revokeAfterInspectFailure_sparing hstart id _ _
  | ok info =>
    rw [Except.mapError, reconcileLocked]
    cases hstate : liveState info with
    | none =>
      exact Triple.ite (fun _ => .pure _ fun _ h => h) fun _ => revokeEnded_sparing hstart id _
    | some state =>
      obtain ⟨hdated, hother⟩ := hlive info state hanswer hstate
      exact reconcileRunning_sparing hdated hother config info

/-- No answer to the inspect of the operation reports the run as running. -/
def Unseen (host : Host σ ν) (run : EndedRun) (world : World σ) : Op → Prop
  | .reconcile _ id => id = run.id → ∀ info state, host.inspect world.calls id = .ok info →
      liveState info = some state → state.startedAt ≠ run.startedAt
  | .terminate _ _ _ | .sweep _ => True

instance (host : Host σ ν) (run : EndedRun) (world : World σ) :
    (op : Op) → Decidable (Unseen host run world op)
  | .reconcile _ id =>
    match hanswer : host.inspect world.calls id with
    | .error _ => isTrue fun _ _ _ hinfo => nomatch hanswer.symm.trans hinfo
    | .ok info =>
      decidable_of_iff
        (id = run.id → ∀ state ∈ liveState info, state.startedAt ≠ run.startedAt) <| by
        constructor
        · intro h hid info' state hinfo hlive
          cases hanswer.symm.trans hinfo
          exact h hid state hlive
        · intro h hid state hlive
          exact h hid info state hanswer hlive
  | .terminate _ _ _ | .sweep _ => isTrue trivial

/-- Every operation spares a run that Docker does not report any more. -/
theorem op_sparing (host : Host σ ν) (hstart : run.Tracked start.scene) (op : Op)
    (hunseen : Unseen host run start op) : Sparing host run start (Op.run host start op) := by
  cases op with
  | sweep config => exact (sweep_sparing hstart config).after .refl
  | terminate config id eventTime =>
    exact (terminate_sparing hstart config id eventTime).after .refl
  | reconcile config id =>
    have hfirst : Sparing host run start (inspect host id start).2 :=
      (inspect_triple (calm_sparing host run start) id).after .refl
    have hlive : ∀ info state, host.inspect start.calls id = .ok info →
      liveState info = some state →
        state.startedAt ≠ "" ∧ (id = run.id → state.startedAt ≠ run.startedAt) := by
      intro info state hanswer hstate
      obtain ⟨hsome, hrunning⟩ := Option.filter_eq_some_iff.mp hstate
      refine ⟨host.started _ id info state hanswer hsome (Bool.and_eq_true_iff.mp hrunning).1, ?_⟩
      exact fun hid => hunseen hid info state hanswer hstate
    exact (reconcileLocked_sparing hstart config hlive).after hfirst

end Operations
end EndedRun
end Processor
end Sda
