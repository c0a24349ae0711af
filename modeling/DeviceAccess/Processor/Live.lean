import DeviceAccess.Processor.OnRecord

/-!
# Cleanup and live runs

Cleanup decides by the records: `terminate` strips the directory of the run it chose, `sweep` the
directories of the records that ended. Neither looks whether another record names the same
directory, and a record that ended stays ended when its run is verified again. So a run that is live
can lose its grants to the cleanup of another run (`late_event_strips_newer_run`).

It cannot when each run is recorded in a directory that no other run's record names, and is not
recorded as ended at that time (`Alone`): then no cleanup reaches it before it ends, moves or is
reconciled to something else (`cleanup_spares_live_run`).
-/

namespace Sda
namespace Processor

open Docker
open V2 (Identity)

variable {σ ν : Type}

/-! ## What happens to a run -/

/-- The acts of an operation, the last one first. -/
def Op.acts (host : Host σ ν) (world : World σ) (op : Op) : List (Scene × Act) :=
  (op.run host world).past.take ((op.run host world).past.length - world.past.length)

theorem Op.acts_eq {host : Host σ ν} {world : World σ} {op : Op} {acts : List (Scene × Act)}
    (h : (op.run host world).past = acts ++ world.past) : op.acts host world = acts := by
  rw [Op.acts, h, List.length_append, Nat.add_sub_cancel, List.take_left]

/-- The reconcile found the container running with the start time, and the call set its non-empty
rules. -/
structure AppliedAt (host : Host σ ν) (world : World σ) (config : Runtime) (id : ContainerId)
    (startedAt : String) (call : SetCall) : Prop where
  found : ∃ info state, host.inspect world.calls id = .ok info ∧ liveState info = some state ∧
    state.startedAt = startedAt
  made : ∃ scene, (scene, Act.set call) ∈ Op.acts host world (.reconcile config id)
  rules : call.rules ≠ []
  result : call.result = .ok ()

/-- The operation calls `set_device_rules` with the empty list at the directory. -/
def Strips (host : Host σ ν) (world : World σ) (op : Op) (identity : Identity) : Prop :=
  ∃ scene call, (scene, Act.set call) ∈ op.acts host world ∧ call.identity = identity ∧
    call.rules = []

/-- The operation is about the end of the run or about another one: an event not before its start,
or a reconcile of the container that does not find it as it was. -/
def Ends (host : Host σ ν) (id : ContainerId) (startedAt : String) (call : SetCall)
    (world : World σ) : Op → Prop
  | .terminate _ other eventTime =>
    other = id ∧ ∃ started, host.parse startedAt = some started ∧ started ≤ eventTime
  | .reconcile config other =>
    other = id ∧
      match host.inspect world.calls id with
      | .error _ => True
      | .ok info => liveState info = none ∨
        (computeDesired host.openDev info config.policy world.dev).1.rules ≠ call.rules ∨
        ∃ scene startedAt' cgroup now, cgroup.identity ≠ call.identity ∧
          (scene, Act.verify id startedAt' cgroup now) ∈ Op.acts host world (.reconcile config id)
  | .sweep _ => False

/-- `terminate` and `sweep`. -/
def Op.cleans : Op → Bool
  | .terminate _ _ _ | .sweep _ => true
  | .reconcile _ _ => false

/-- A run is recorded in a directory that no other run's record names, and its record has not ended.
-/
def Alone (scene : Scene) : Act → Prop
  | .verify id startedAt cgroup _ =>
    (∀ record ∈ scene.history.all, record.identity = some cgroup.identity →
      record.containerId = id ∧ record.startedAt = startedAt) ∧
    ∀ record ∈ scene.history.records id, record.startedAt = startedAt → record.state ≠ .terminal
  | _ => True

instance (scene : Scene) (act : Act) : Decidable (Alone scene act) :=
  match act with
  | .verify _ _ _ _ => inferInstanceAs (Decidable (_ ∧ _))
  | .dirs _ | .provisional _ _ | .terminate _ _ | .markTerminal _ _ | .markRevoked _ _
  | .release _ | .set _ =>
    inferInstanceAs (Decidable True)

/-! ## A live run -/

section Live

variable {host : Host σ ν} {id : ContainerId} {startedAt : String} {identity : Identity}

/-- The directory is gone, or it is the run's: recorded for it alone, and not as ended. -/
def Live (id : ContainerId) (startedAt : String) (identity : Identity) (scene : Scene) : Prop :=
  scene.dirs.Dead identity ∨
    scene.history.Named id identity ∧
      ∀ other, ∀ record ∈ scene.history.records other, record.identity = some identity →
        other = id ∧ record.startedAt = startedAt ∧ record.state ≠ .terminal

/-- The act neither ends the run nor moves it. -/
def Spares (parse : String → Option Timestamp) (id : ContainerId) (startedAt : String)
    (identity : Identity) :
    Act → Prop
  | .terminate other eventTime =>
    other = id → ∀ started, parse startedAt = some started → eventTime < started
  | .markTerminal other _ => other ≠ id
  | .verify other _ cgroup _ => other = id → cgroup.identity = identity
  | _ => True

theorem started_eq {parse : String → Option Timestamp} {record : LifecycleRecord}
    {started : Timestamp} (h : record.started parse = some started) :
    parse record.startedAt = some started := by
  rw [LifecycleRecord.started] at h
  split at h
  · cases h
  · exact h

private theorem mem_all {history : Lifecycles} {other : ContainerId} {record : LifecycleRecord}
    (h : record ∈ history.records other) : record ∈ history.all :=
  List.mem_flatMap.mpr ⟨other, (history.mem_ids other).mpr (List.ne_nil_of_mem h), h⟩

/-- No other record names the directory the run is recorded in. -/
theorem Alone.other {scene : Scene} {cgroup : RunCgroup} {now : Timestamp} (hgood : scene.Good)
    (h : Alone scene (.verify id startedAt cgroup now)) {other : ContainerId}
    {record : LifecycleRecord} (hrecord : record ∈ scene.history.records other)
    (hid : record.identity = some cgroup.identity) :
    other = id ∧ record.startedAt = startedAt ∧ record.state ≠ .terminal := by
  obtain ⟨hother, hstart⟩ := h.1 record (mem_all hrecord) hid
  rw [(hgood.tidy other).containerId record hrecord] at hother
  subst hother
  exact ⟨rfl, hstart, h.2 record hrecord hstart⟩

/-- Right after the run is recorded it is live. -/
theorem live_verify {scene : Scene} {cgroup : RunCgroup} {now : Timestamp} (hgood : scene.Good)
    (h : Alone scene (.verify id startedAt cgroup now)) :
    (scene.history.verify id startedAt cgroup now).Named id cgroup.identity ∧
      ∀ other, ∀ record ∈ (scene.history.verify id startedAt cgroup now).records other,
        record.identity = some cgroup.identity →
          other = id ∧ record.startedAt = startedAt ∧ record.state ≠ .terminal := by
  obtain ⟨record, hrecord, -, hcgroup⟩ :=
    Lifecycles.mem_verify_self scene.history id startedAt cgroup now
  refine ⟨⟨record, hrecord, congrArg (Option.map _) hcgroup⟩, fun other record hrecord hid => ?_⟩
  rcases Lifecycles.mem_verify hrecord with hold | ⟨hother, hstart, -, hterminal⟩
  · exact h.other hgood hold hid
  · refine ⟨hother, hstart, fun hstate => ?_⟩
    obtain ⟨old, hold, hsame, hended⟩ := hterminal hstate
    exact h.2 old hold hsame hended

theorem Live.apply {scene : Scene} {act : Act} (h : Live id startedAt identity scene)
    (hgood : scene.Good) (hsafe : Safe scene act) (halone : Alone scene act)
    (hspares : Spares host.parse id startedAt identity act) :
    Live id startedAt identity (act.apply host.parse scene) := by
  rcases h with hdead | ⟨hnamed, hown⟩
  · exact .inl (dead_apply hdead act)
  cases act with
  | dirs | set => exact .inr ⟨hnamed, hown⟩
  | provisional other now =>
    refine .inr ⟨hnamed.provisional, fun other record hrecord hid => ?_⟩
    rcases Lifecycles.mem_provisional hrecord with ⟨old, hold, hage, hstate⟩ | hnone
    · rw [hage.startedAt, hstate]
      exact hown other old hold (hage.identity ▸ hid)
    · rw [LifecycleRecord.identity, hnone] at hid
      cases hid
  | verify other startedAt' cgroup now =>
    by_cases hsame : cgroup.identity = identity
    · subst hsame
      -- The directory is already recorded for this run, so the run that is recorded is this one.
      obtain ⟨record, hrecord, hid⟩ := hnamed
      obtain ⟨rfl, hstart, -⟩ := halone.other hgood hrecord hid
      rw [(hown id record hrecord hid).2.1] at hstart
      subst hstart
      exact .inr (live_verify hgood halone)
    · have hother : id ≠ other := fun heq => hsame (hspares heq.symm)
      refine .inr ⟨?_, fun one record hrecord hid => ?_⟩
      · rcases hnamed.verify hgood.tidy other startedAt' cgroup now with hnamed | ⟨heq, -⟩
        · exact hnamed
        · exact absurd heq hother
      · rcases Lifecycles.mem_verify hrecord with hold | ⟨-, -, hcgroup, -⟩
        · exact hown one record hold hid
        · rw [LifecycleRecord.identity, hcgroup] at hid
          exact absurd (Option.some.inj hid) hsame
  | terminate other eventTime =>
    refine .inr ⟨hnamed.ages Lifecycles.ages_terminate, fun one record hrecord hid => ?_⟩
    obtain ⟨old, hold, hage, hstate⟩ := Lifecycles.mem_terminate hrecord
    rw [hage.identity] at hid
    obtain ⟨rfl, hstart, hlive⟩ := hown one old hold hid
    refine ⟨rfl, hage.startedAt.trans hstart, ?_⟩
    rcases hstate with hstate | ⟨rfl, hprov | ⟨started, hstarted, hle⟩⟩
    · rwa [hstate]
    · rw [LifecycleRecord.identity, ((hgood.tidy one).provisional old hold hprov).1] at hid
      cases hid
    · exact absurd hle (not_le.mpr (hspares rfl started (hstart ▸ started_eq hstarted)))
  | markTerminal other startedAt' =>
    refine .inr ⟨hnamed.ages Lifecycles.ages_markTerminal, fun one record hrecord hid => ?_⟩
    obtain ⟨old, hold, rfl | ⟨rfl, -, rfl⟩⟩ := Lifecycles.mem_update hrecord
    · exact hown one record hold hid
    · exact absurd (hown one old hold hid).1 hspares
  | markRevoked other startedAt' =>
    refine .inr ⟨hnamed.ages Lifecycles.ages_markRevoked, fun one record hrecord hid => ?_⟩
    obtain ⟨old, hold, hage, hstate⟩ := Lifecycles.mem_markRevoked hrecord
    rw [hage.startedAt, hstate]
    exact hown one old hold (hage.identity ▸ hid)
  | release record =>
    rcases hnamed.release hsafe.1 with hkept | ⟨-, hid⟩
    · exact .inr ⟨hkept, fun one record hrecord hid => hown one record
        (Lifecycles.mem_release.mp hrecord).1 hid⟩
    · exact .inl ⟨hgood.known id identity hnamed, hsafe.2 identity hid⟩

/-- A run stays live over acts that spare it. -/
theorem live_run {P : Scene → Act → Prop} {start world : World σ} {acts : List (Scene × Act)}
    (hrun : Run (Act.apply host.parse) P start.scene acts world.scene)
    (hsafe : ∀ scene act, P scene act → Safe scene act) (hgood : start.scene.Good)
    (halone : ∀ moment ∈ acts, Alone moment.1 moment.2)
    (hspares : ∀ moment ∈ acts, P moment.1 moment.2 →
      Spares host.parse id startedAt identity moment.2)
    (hlive : Live id startedAt identity start.scene) : Live id startedAt identity world.scene := by
  have hmoments : ∀ moment ∈ acts, Alone moment.1 moment.2 ∧ Spares host.parse id startedAt
      identity moment.2 :=
    fun moment hmoment =>
      ⟨halone moment hmoment, hspares moment hmoment (hrun.allowed moment hmoment)⟩
  have hrestricted := hrun.restrict (Q := fun scene act => Alone scene act ∧
    Spares host.parse id startedAt identity act) hmoments
  refine ((hrestricted.invariant (fun scene => scene.Good ∧ Live id startedAt identity scene) ?_
    ⟨hgood, hlive⟩).1).2
  rintro scene act ⟨hgood, hlive⟩ ⟨hact, halone, hspares⟩
  exact ⟨hgood.apply (hsafe scene act hact), hlive.apply hgood (hsafe scene act hact)
    halone hspares⟩

end Live

/-! ## Operations -/

section Ops

variable {host : Host σ ν} {world : World σ} {id : ContainerId} {startedAt : String}
  {call : SetCall}

/-- An operation that does not end the run leaves it live. -/
theorem live_op (hgood : world.scene.Good) (op : Op)
    (halone : ∀ moment ∈ op.acts host world, Alone moment.1 moment.2)
    (hends : ¬ Ends host id startedAt call world op)
    (hlive : Live id startedAt call.identity world.scene) :
    Live id startedAt call.identity (op.run host world).scene := by
  cases op with
  | sweep config =>
    obtain ⟨acts, hrun, hpast⟩ := sweep_goes host hgood config
    rw [Op.acts_eq hpast] at halone
    refine live_run hrun (fun _ _ h => h.safe) hgood halone (fun moment _ h => ?_) hlive
    generalize moment.2 = act at h
    cases h <;> trivial
  | terminate config other eventTime =>
    obtain ⟨acts, hrun, hpast⟩ := terminate_goes host hgood config other eventTime
    rw [Op.acts_eq hpast] at halone
    refine live_run hrun (fun _ _ h => ?_) hgood halone (fun moment _ h => ?_) hlive
    · rcases h with rfl | h
      · trivial
      · exact h.safe
    · rcases h with h | h
      · rw [h]
        exact fun heq started hstarted => not_le.mp fun hle => hends ⟨heq, started, hstarted, hle⟩
      · generalize moment.2 = act at h
        cases h <;> trivial
  | reconcile config other =>
    have hspares : ∀ acts :
      List (Scene × Act), (∀ moment ∈ acts, moment ∈ Op.acts host world (.reconcile config other)) →
        ∀ moment ∈ acts, Reconciles world.scene other (host.inspect world.calls other)
          moment.1 moment.2 →
        Spares host.parse id startedAt call.identity moment.2 := by
      rintro acts hacts ⟨scene, act⟩ hmoment h
      cases h with
      | revokes h => cases h <;> trivial
      | provisional | empties => trivial
      | markTerminal _ answered ended =>
        rintro rfl
        refine hends ⟨rfl, ?_⟩
        rw [answered]
        exact .inl ended
      | @verify info state cgroup now answered live =>
        rintro rfl
        by_contra hmoved
        refine hends ⟨rfl, ?_⟩
        rw [answered]
        exact .inr (.inr ⟨scene, _, cgroup, now, hmoved, hacts _ hmoment⟩)
    rcases reconcile_goes host hgood config other with ⟨acts, hrun, hpast⟩ | hgranting
    · rw [Op.acts_eq hpast] at halone hspares
      exact live_run hrun (fun _ _ h => h.safe) hgood halone (hspares acts fun _ h => h) hlive
    · obtain ⟨before, last, info, state, cgroup, ⟨acts, hrun, hbefore⟩, -, -, -, -, -, hscene,
          hpast⟩ := hgranting
      rw [hbefore, ← List.cons_append] at hpast
      rw [Op.acts_eq hpast] at halone hspares
      have hlive := live_run hrun (fun _ _ h => h.safe) hgood
        (fun moment h => halone moment (.tail _ h))
        (hspares acts fun _ h => .tail _ h) hlive
      rw [hscene]
      exact hlive

/-- Cleanup that does not end the run leaves its directory alone. -/
theorem not_strips (hgood : world.scene.Good) {op : Op} (hcleans : op.cleans = true)
    (hends : ¬ Ends host id startedAt call world op)
    (hlive : Live id startedAt call.identity world.scene) :
    ¬ Strips host world op call.identity := by
  rintro ⟨scene, strip, hmem, hidentity, -⟩
  cases op with
  | reconcile => cases hcleans
  | sweep config =>
    obtain ⟨acts, hrun, hpast⟩ := sweep_goes host hgood config
    rw [Op.acts_eq hpast] at hmem
    cases hrun.allowed _ hmem with
    | @set record _ hrecord hid hrules halive =>
      rw [hidentity] at hid halive
      obtain ⟨hall, hterminal⟩ := List.mem_filter.mp hrecord
      obtain ⟨other, -, hrecord⟩ := List.mem_flatMap.mp hall
      rcases hlive with hdead | ⟨-, hown⟩
      · exact halive hdead
      · exact (hown other record hrecord hid).2.2 (of_decide_eq_true hterminal)
  | terminate config other eventTime =>
    obtain ⟨acts, hrun, hpast⟩ := terminate_goes host hgood config other eventTime
    rw [Op.acts_eq hpast] at hmem
    rcases hrun.allowed _ hmem with heq | hrevokes
    · cases heq
    · cases hrevokes with
      | @set record _ hrecord hid hrules halive =>
        rw [hidentity] at hid halive
        rcases hlive with hdead | ⟨-, hown⟩
        · exact halive hdead
        obtain ⟨-, -, -, hfrom⟩ :=
          Lifecycles.terminate_eq host.parse world.scene.history other eventTime
        obtain ⟨old, hold, rfl, hprov | ⟨started, hstarted, hle⟩⟩ := hfrom record hrecord
        · have hnone := ((hgood.tidy other).provisional old hold hprov).1
          have hid : old.identity = some call.identity := hid
          rw [LifecycleRecord.identity, hnone] at hid
          cases hid
        · obtain ⟨rfl, hstart, -⟩ := hown other old hold hid
          exact hends ⟨rfl, started, hstart ▸ started_eq hstarted, hle⟩

/-- After the reconcile that applied its rules the run is live. -/
theorem live_of_applied (hgood : world.scene.Good) {config : Runtime}
    (happlied : AppliedAt host world config id startedAt call)
    (hpasts : ∀ moment ∈ (Op.run host world (.reconcile config id)).past, moment.1.Good ∧
      Alone moment.1 moment.2) :
    Live id startedAt call.identity (Op.run host world (.reconcile config id)).scene := by
  obtain ⟨info, state, hanswer, hlive, rfl⟩ := happlied.found
  obtain ⟨scene, hmade⟩ := happlied.made
  -- Before the last act of a reconcile only the empty set is applied.
  have hempty : ∀ {acts : List (Scene × Act)} {last : Scene},
      Run (Act.apply host.parse) (Reconciles world.scene id (host.inspect world.calls id))
        world.scene acts last →
      (scene, Act.set call) ∉ acts := by
    intro acts last hrun hmem
    cases hrun.allowed _ hmem with
    | revokes h => cases h with | set _ _ hrules _ => exact happlied.rules hrules
    | empties hrules => exact happlied.rules hrules
  rcases reconcile_goes host hgood config id with ⟨acts, hrun, hpast⟩ | hgranting
  · rw [Op.acts_eq hpast] at hmade
    exact absurd hmade (hempty hrun)
  · obtain ⟨before, last, info', state', cgroup, ⟨acts, hrun, hbefore⟩, hanswer', hlive', -,
      hcgroup, hrecording, hscene, hpast⟩ := hgranting
    obtain rfl : info = info' := Except.ok.inj (hanswer.symm.trans hanswer')
    obtain rfl : state = state' := Option.some.inj (hlive.symm.trans hlive')
    have hacts := hpast
    rw [hbefore, ← List.cons_append] at hacts
    rw [Op.acts_eq hacts] at hmade
    rcases List.mem_cons.mp hmade with heq | hmade
    · cases heq
      obtain ⟨scene₀, now, hmem, hhistory⟩ := hrecording
      obtain ⟨hgood₀, halone⟩ := hpasts _ (by rw [hpast]; exact .tail _ hmem)
      rw [hscene, Live, hcgroup]
      refine .inr ?_
      show Lifecycles.Named before.scene.history _ _ ∧
        ∀ other, ∀ record ∈ before.scene.history.records other, _
      rw [hhistory]
      exact live_verify hgood₀ halone
    · exact absurd hmade (hempty hrun)

/-- A run stays live over operations none of which ends it. -/
theorem live_ops (ops : List Op) (hgood : world.scene.Good)
    (halone : ∀ moment ∈ (runOps host world ops).past, Alone moment.1 moment.2)
    (hends : ∀ front op back, ops = front ++ op :: back → ¬ Ends host id startedAt call
      (runOps host world front) op)
    (hlive : Live id startedAt call.identity world.scene) :
    Live id startedAt call.identity (runOps host world ops).scene := by
  induction ops generalizing world with
  | nil => exact hlive
  | cons op ops ih =>
    have hnext := (op_goes host hgood op).good hgood
    obtain ⟨later, -, hlater⟩ := runOps_goes host hnext ops
    have hop : ∀ moment ∈ op.acts host world, Alone moment.1 moment.2 := by
      intro moment hmoment
      refine halone moment ?_
      show moment ∈ (runOps host (op.run host world) ops).past
      rw [hlater]
      exact List.mem_append_right _ (List.mem_of_mem_take hmoment)
    refine ih hnext halone (fun front op' back heq => ?_)
      (live_op hgood op hop (hends [] op ops rfl) hlive)
    exact hends (op :: front) op' back (by rw [heq, List.cons_append])

end Ops

private theorem runOps_append (host : Host σ ν) (world : World σ) (ops later : List Op) :
    runOps host world (ops ++ later) = runOps host (runOps host world ops) later :=
  List.foldl_append

/-- **Cleanup spares a live run** when every run is recorded in a directory of its own. After a
reconcile found the container running and applied its rules at a directory, no `terminate` or
`sweep` applies the empty set there, unless in between an event ended the run, or a reconcile did
not find it as it was. -/
theorem cleanup_spares_live_run (host : Host σ ν) (dirs : Dirs) (dev : σ) (before : List Op)
    (config : Runtime) (id : ContainerId) (startedAt : String) (call : SetCall)
    (later : List Op) (last : Op)
    (happlied : AppliedAt host (runOps host (World.new dirs dev) before) config id startedAt call)
    (halone : ∀ moment ∈ (runOps host (World.new dirs dev)
      (before ++ .reconcile config id :: (later ++ [last]))).past, Alone moment.1 moment.2)
    (hcleans : last.cleans = true)
    (hstrips : Strips host
      (runOps host (World.new dirs dev) (before ++ .reconcile config id :: later)) last
      call.identity) :
    ∃ front op back, later ++ [last] = front ++ op :: back ∧
      Ends host id startedAt call
        (runOps host (World.new dirs dev) (before ++ .reconcile config id :: front)) op := by
  by_contra hnone
  have hafter : ∀ ops, runOps host (World.new dirs dev) (before ++ .reconcile config id :: ops) =
      runOps host (Op.run host (runOps host (World.new dirs dev) before) (.reconcile config id))
        ops := fun ops =>
    runOps_append ..
  simp only [hafter] at halone hstrips hnone
  generalize hworld : runOps host (World.new dirs dev) before = world at *
  have hgoes := runOps_goes host (good_new dirs dev) before
  rw [hworld] at hgoes
  have hgood := hgoes.good (good_new dirs dev)
  have hreconcile := op_goes host hgood (.reconcile config id)
  have hgood₁ := hreconcile.good hgood
  have hsub : ∀ front back, later ++ [last] = front ++ back →
      ∀ moment ∈ (runOps host (Op.run host world (.reconcile config id)) front).past,
        Alone moment.1 moment.2 := by
    intro front back heq moment hmoment
    refine halone moment ?_
    obtain ⟨past, -, hpast⟩ := runOps_goes host ((runOps_goes host hgood₁ front).good hgood₁) back
    rw [heq, runOps_append, hpast]
    exact List.mem_append_right _ hmoment
  have hlive : Live id startedAt call.identity
      (Op.run host world (.reconcile config id)).scene := by
    refine live_of_applied hgood happlied fun moment hmoment => ⟨?_, hsub [] _ rfl moment hmoment⟩
    obtain ⟨past, hrun, hpast⟩ := hgoes.trans hreconcile
    rw [hpast, World.new, List.append_nil] at hmoment
    exact (hrun.invariant Scene.Good (fun _ _ hg hsafe => hg.apply hsafe) (good_new dirs dev)).2
      moment hmoment
  have hlater := live_ops later hgood₁ (hsub later [last] rfl)
    (fun front op back heq hends => hnone ⟨front, op, back ++ [last], by rw [heq]; simp, hends⟩)
      hlive
  refine not_strips ((runOps_goes host hgood₁ later).good hgood₁) hcleans (fun hends => ?_)
    hlater hstrips
  exact hnone ⟨later, last, [], rfl, hends⟩

/-! ## A restart in the same directory -/

/-- The successful call at the one directory there is, with or without rules. -/
def isSet (empty : Bool) (act : Act) : Bool :=
  match act with
  | .set call =>
    call.identity = ⟨"/sys/fs/cgroup/app", 7⟩ && call.rules.isEmpty == empty && call.result.isOk
  | _ => false

theorem exists_set (acts : List (Scene × Act)) (empty : Bool)
    (h : acts.any (fun moment => isSet empty moment.2) = true) :
    ∃ scene call, (scene, Act.set call) ∈ acts ∧ call.identity = ⟨"/sys/fs/cgroup/app", 7⟩ ∧
      call.rules.isEmpty = empty ∧ call.result = .ok () := by
  obtain ⟨⟨scene, act⟩, hmem, htest⟩ := List.any_eq_true.mp h
  cases act with
  | set call =>
    simp only [isSet, Bool.and_eq_true, decide_eq_true_eq, beq_iff_eq] at htest
    obtain ⟨⟨hidentity, hempty⟩, hok⟩ := htest
    refine ⟨scene, call, hmem, hidentity, hempty, ?_⟩
    cases hresult : call.result with
    | ok => rfl
    | error => rw [hresult] at hok; cases hok
  | _ => cases htest

/-- The sample container's reconcile that found it running since `startedAt`. -/
theorem appliedAt_sample (host : Host Unit Unit) (world : World Unit)
    (startedAt : String) (pid : Int)
    (hfound : ∃ info, host.inspect world.calls "app" = .ok info ∧
      liveState info = some ⟨true, pid, startedAt⟩)
    (hset : (Op.acts host world (.reconcile sampleConfig "app")).any
      (fun moment => isSet false moment.2) = true) :
    ∃ call, AppliedAt host world sampleConfig "app" startedAt call ∧
      call.identity = ⟨"/sys/fs/cgroup/app", 7⟩ := by
  obtain ⟨info, hinfo, hlive⟩ := hfound
  obtain ⟨scene, call, hmem, hidentity, hrules, hresult⟩ := exists_set _ _ hset
  refine ⟨call, ⟨⟨info, _, hinfo, hlive, rfl⟩, ⟨scene, hmem⟩, ?_, hresult⟩, hidentity⟩
  rintro hempty
  rw [hempty] at hrules
  cases hrules

/-- The end of the only run is handled: the run is stripped, and the event is not before its start.
-/
theorem cleanup_spares_live_run_event :
    ∃ call front op back, AppliedAt (restartHost 100)
    (World.new noDirs ()) sampleConfig "app" "1" call ∧
      [Op.terminate sampleConfig "app" 3] = front ++ op :: back ∧
      Ends (restartHost 100) "app" "1" call
        (runOps (restartHost 100) (World.new noDirs ()) (.reconcile sampleConfig "app" :: front))
        op := by
  obtain ⟨call, happlied, hidentity⟩ :=
    appliedAt_sample (restartHost 100) (World.new noDirs ()) "1" 11
    ⟨_, rfl, by decide +kernel⟩ (by decide +kernel)
  have halone : ∀ moment ∈ (runOps (restartHost 100) (World.new noDirs ())
      [.reconcile sampleConfig "app", .terminate sampleConfig "app" 3]).past,
        Alone moment.1 moment.2 := by
    decide +kernel
  have hstrips : Strips (restartHost 100) (runOps (restartHost 100) (World.new noDirs ())
      [.reconcile sampleConfig "app"]) (.terminate sampleConfig "app" 3) call.identity := by
    obtain ⟨scene, strip, hmem, hstrip, hempty, -⟩ := exists_set
      (Op.acts (restartHost 100) (runOps (restartHost 100) (World.new noDirs ())
        [.reconcile sampleConfig "app"]) (.terminate sampleConfig "app" 3)) true (by decide +kernel)
    exact ⟨scene, strip, hmem, hstrip.trans hidentity.symm, List.isEmpty_iff.mp hempty⟩
  obtain ⟨front, op, back, hsplit, hends⟩ := cleanup_spares_live_run (restartHost 100) noDirs ()
    [] sampleConfig
    "app" "1" call [] (.terminate sampleConfig "app" 3) happlied halone rfl hstrips
  exact ⟨call, front, op, back, happlied, hsplit, hends⟩

/-- A container was reconciled, restarted in the same directory and reconciled again. An event for
its first run, handled late, applies the empty set at the directory: the second run, which started
after the event, loses the grants it was just given. -/
theorem late_event_strips_newer_run :
    ∃ call strip scene,
      AppliedAt (restartHost 8) (runOps (restartHost 8) (World.new noDirs ())
        [.reconcile sampleConfig "app"])
        sampleConfig "app" "5" call ∧
      (scene, Act.set strip) ∈ Op.acts (restartHost 8) (runOps (restartHost 8) (World.new noDirs ())
        [.reconcile sampleConfig "app", .reconcile sampleConfig "app"])
        (.terminate sampleConfig "app" 3) ∧
      strip.identity = call.identity ∧ strip.rules = [] ∧ strip.result = .ok () ∧
      ¬ Ends (restartHost 8) "app" "5" call (runOps (restartHost 8) (World.new noDirs ())
        [.reconcile sampleConfig "app", .reconcile sampleConfig "app"])
        (.terminate sampleConfig "app" 3) := by
  obtain ⟨call, happlied, hidentity⟩ := appliedAt_sample (restartHost 8)
    (runOps (restartHost 8) (World.new noDirs ()) [.reconcile sampleConfig "app"]) "5" 12
      ⟨_, rfl, by decide +kernel⟩ (by decide +kernel)
  obtain ⟨scene, strip, hmem, hstrip, hempty, hresult⟩ := exists_set
    (Op.acts (restartHost 8) (runOps (restartHost 8) (World.new noDirs ())
      [.reconcile sampleConfig "app", .reconcile sampleConfig "app"])
        (.terminate sampleConfig "app" 3))
    true (by decide +kernel)
  refine ⟨call, strip, scene, happlied, hmem, hstrip.trans hidentity.symm,
    List.isEmpty_iff.mp hempty, hresult, ?_⟩
  rintro ⟨-, started, hparse, hle⟩
  have hstarted : (restartHost 8).parse "5" = some 5 := by decide +kernel
  cases hstarted.symm.trans hparse
  exact absurd hle (by decide)

end Processor
end Sda
