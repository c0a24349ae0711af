import DeviceAccess.Processor.Ending

/-!
# The cleanup after a run that has ended

* The record of the run stays until its directory is gone, and an end that is marked stays marked
  (`Remains.apply`).
* A reconcile that Docker answers with the ended run marks its record (`reconcile_marks`).
* A sweep applies the empty set at the directory of a marked record, unless it was applied before,
  the directory is gone or a cgroup call failed (`sweep_settles`).
-/

namespace Sda
namespace Processor

open V2 (Identity)

namespace EndedRun

variable {run : EndedRun}

/-! ## The record stays -/

/-- The record of the run is there, marked as ended if asked for, or its directory is gone. -/
def Remains (run : EndedRun) (marked : Bool) (scene : Scene) : Prop :=
  (∃ record ∈ scene.history.records run.id, record.startedAt = run.startedAt ∧
    (marked = true → record.state = .terminal)) ∨ scene.dirs.Dead run.identity

theorem hasIdentity_of_identity {record : LifecycleRecord} {identity : Identity}
    (h : record.identity = some identity) : record.hasIdentity = true := by
  obtain ⟨cgroup, hcgroup, -⟩ := Option.map_eq_some_iff.mp h
  rw [LifecycleRecord.hasIdentity, hcgroup]
  rfl

/-- `verify` of another run keeps a run's record. -/
theorem mem_verify_other {history : Lifecycles} {id : ContainerId} {startedAt : String}
    {cgroup : RunCgroup} {now : Timestamp} {other : ContainerId} {record : LifecycleRecord}
    (htidy : history.Tidy) (h : record ∈ history.records other) (hid : record.hasIdentity = true)
    (hstart : other = id → record.startedAt ≠ startedAt) :
    record ∈ (history.verify id startedAt cgroup now).records other := by
  by_cases hother : other = id
  swap
  · rcases Lifecycles.verify_eq history id startedAt cgroup now with
      ⟨front, old, back, -, -, -, heq⟩ | ⟨-, ⟨front, old, back, -, -, heq⟩ | heq⟩ <;>
    rwa [heq, Lifecycles.records_put_of_ne hother]
  subst hother
  have hkept : ∀ {front back : List LifecycleRecord} {old new : LifecycleRecord},
      history.records other = front ++ old :: back → record ≠ old →
        record ∈ front ++ new :: back := by
    intro front back old new hsplit hne
    rw [hsplit] at h
    simp only [List.mem_append, List.mem_cons] at h ⊢
    exact h.imp_right fun hrest => .inr (hrest.resolve_left hne)
  rcases Lifecycles.verify_eq history other startedAt cgroup now with
    ⟨front, old, back, hsplit, hown, -, heq⟩ | ⟨-, ⟨front, old, back, hsplit, hprov, heq⟩ | heq⟩
  · rw [heq, Lifecycles.records_put_self]
    refine hkept hsplit ?_
    rintro rfl
    exact hstart rfl hown
  · rw [heq, Lifecycles.records_put_self]
    refine hkept hsplit ?_
    rintro rfl
    rw [LifecycleRecord.hasIdentity, ((htidy other).provisional record h hprov).1] at hid
    cases hid
  · rw [heq, Lifecycles.records_put_self]
    exact mem_boundRecords hid _ _ (List.mem_append_left _ h)

/-- What only ages records keeps the run's. -/
theorem Remains.ages {marked : Bool} {scene : Scene} {later : Lifecycles}
    (h : run.Remains marked scene) (hages : scene.history.Ages later) :
    run.Remains marked { scene with history := later } := by
  refine h.imp_left fun ⟨record, hrecord, hstart, hended⟩ => ?_
  obtain ⟨aged, haged, hage⟩ := forall₂_exists_right (hages run.id) hrecord
  refine ⟨aged, haged, hage.startedAt.trans hstart, fun hm => ?_⟩
  rcases hage.state with hsame | hterminal
  · rw [hsame]
    exact hended hm
  · exact hterminal

theorem Remains.apply {parse : String → Option Timestamp} {marked : Bool}
    {scene : Scene} {act : Act} (h : run.Remains marked scene) (htracked : run.Tracked scene)
    (hgood : scene.Good) (hsafe : Safe scene act) (hspares : run.Spares scene act) :
    run.Remains marked (act.apply parse scene) := by
  cases act with
  | dirs changes => exact h.imp_right fun hdead => hdead.changeAll changes
  | provisional id now =>
    refine h.imp_left fun ⟨record, hrecord, hstart, hended⟩ => ?_
    obtain ⟨records, heq, hrecords⟩ := Lifecycles.provisional_eq scene.history id now
    rw [Act.apply, heq]
    by_cases hother : run.id = id
    · subst hother
      rw [Lifecycles.records_put_self]
      rcases hrecords with hages | ⟨-, rfl⟩
      · obtain ⟨new, hnew, hage, hstate⟩ := forall₂_exists_right hages hrecord
        exact ⟨new, hnew, hage.startedAt.trans hstart, fun hm => hstate.trans (hended hm)⟩
      · have hid := hasIdentity_of_identity (htracked.names record hrecord hstart)
        exact ⟨record, mem_boundRecords hid _ _ (List.mem_append_left _ hrecord), hstart, hended⟩
    · rw [Lifecycles.records_put_of_ne hother]
      exact ⟨record, hrecord, hstart, hended⟩
  | verify id startedAt cgroup now =>
    refine h.imp_left fun ⟨record, hrecord, hstart, hended⟩ => ⟨record, ?_, hstart, hended⟩
    have hid := hasIdentity_of_identity (htracked.names record hrecord hstart)
    exact mem_verify_other hgood.tidy hrecord hid fun hsame heq =>
      hspares.2 hsame.symm (heq.symm.trans hstart)
  | terminate id eventTime => exact h.ages Lifecycles.ages_terminate
  | markTerminal id startedAt => exact h.ages Lifecycles.ages_markTerminal
  | markRevoked id startedAt => exact h.ages Lifecycles.ages_markRevoked
  | release released =>
    rcases h with ⟨record, hrecord, hstart, hended⟩ | hdead
    swap
    · exact .inr hdead
    by_cases hkept : run.id = released.containerId → record.startedAt = released.startedAt →
        record.firstSeen ≠ released.firstSeen
    · exact .inl ⟨record, Lifecycles.mem_release.mpr ⟨hrecord, hkept⟩, hstart, hended⟩
    · -- A released copy of the record names its directory, which is gone then.
      push Not at hkept
      obtain ⟨hid, hsame, hseen⟩ := hkept
      have hnames := htracked.names record hrecord hstart
      have hcopy := hsafe.1 record (hid ▸ hrecord) hsame hseen
      refine .inr ⟨hgood.known run.id run.identity ⟨record, hrecord, hnames⟩,
        hsafe.2 run.identity ?_⟩
      rw [LifecycleRecord.identity, ← hcopy]
      exact hnames
  | set call => exact h

/-- What holds of the run's record at every moment since its end. -/
structure Stands (run : EndedRun) (marked : Bool) (scene : Scene) : Prop where
  good : scene.Good
  tracked : run.Tracked scene
  remains : run.Remains marked scene

/-- A run that ends is on record as verified. -/
theorem Stands.of_verified {scene : Scene} {record : LifecycleRecord} (hgood : scene.Good)
    (hbefore : run.before = scene.sets) (hrecord : record ∈ scene.history.records run.id)
    (hstart : record.startedAt = run.startedAt) (hstate : record.state = .verified)
    (hidentity : record.identity = some run.identity) : run.Stands false scene := by
  have htidy := hgood.tidy run.id
  have hsame : ∀ other ∈ scene.history.records run.id, other.startedAt = run.startedAt →
      other = record :=
    fun other hother hown =>
      htidy.eq_of_startedAt hother hrecord (hown.trans hstart.symm) (hown ▸ run.dated)
  refine ⟨hgood, ⟨hgood.tidy, ⟨[], hbefore.symm⟩, ?_, ?_⟩, .inl ⟨record, hrecord, hstart, nofun⟩⟩
  · intro other hother hown
    rw [hsame other hother hown]
    exact hidentity
  · intro other hother hown hrevoked
    rw [hsame other hother hown] at hrevoked
    exact absurd (htidy.revoked record hrecord hrevoked) (hstate ▸ nofun)

/-- The directory of the run has been there. -/
theorem Stands.born {marked : Bool} {scene : Scene} (h : run.Stands marked scene) :
    run.identity ∈ scene.dirs.born := by
  rcases h.remains with ⟨record, hrecord, hstart, -⟩ | hdead
  · exact h.good.known run.id run.identity ⟨record, hrecord, h.tracked.names record hrecord hstart⟩
  · exact hdead.1

section Operations

variable {σ ν : Type} {host : Host σ ν} {start world : World σ} {marked : Bool}

theorem Stands.perform {act : Act} (h : run.Stands marked world.scene)
    (hsafe : Safe world.scene act) (hspares : run.Spares world.scene act) :
    run.Stands marked (world.perform host act).scene :=
  ⟨h.good.apply hsafe, h.tracked.apply hspares, h.remains.apply h.tracked h.good hsafe hspares⟩

theorem Stands.of_goes (h : run.Stands marked start.scene) (hsafe : Goes host Safe start world)
    (hspares : Goes host run.Spares start world) : run.Stands marked world.scene := by
  obtain ⟨past, hrun, hpast⟩ := hsafe
  obtain ⟨past', hrun', hpast'⟩ := hspares
  obtain rfl : past = past' := List.append_cancel_right (hpast.symm.trans hpast')
  have hboth := hrun.restrict hrun'.allowed
  refine (hboth.invariant (run.Stands marked) (fun scene act hs hact => ?_) h).1
  exact ⟨hs.good.apply hact.1, hs.tracked.apply hact.2,
    hs.remains.apply hs.tracked hs.good hact.1 hact.2⟩

theorem Stands.op (h : run.Stands marked start.scene) {op : Op}
    (hunseen : Unseen host run start op) :
    run.Stands marked (Op.run host start op).scene :=
  h.of_goes (op_goes host h.good op) (op_sparing host h.tracked op hunseen)

/-! ## A reconcile marks the end -/

/-- Docker answers the inspect of a reconcile with the ended run. -/
def Notices (host : Host σ ν) (run : EndedRun) (world : World σ) : Op → Prop
  | .reconcile config id => id = run.id ∧ config.dryRun = false ∧ ∃ info,
      host.inspect world.calls id = .ok info ∧ liveState info = none ∧
        (info.state.map (·.startedAt)).getD "" = run.startedAt
  | .terminate _ _ _ | .sweep _ => False

instance (host : Host σ ν) (run : EndedRun) (world : World σ) :
    (op : Op) → Decidable (Notices host run world op)
  | .reconcile config id =>
    match hanswer : host.inspect world.calls id with
    | .error _ => isFalse fun ⟨_, _, _, hinfo, _⟩ => nomatch hanswer.symm.trans hinfo
    | .ok info =>
      decidable_of_iff (id = run.id ∧ config.dryRun = false ∧ liveState info = none ∧
          (info.state.map (·.startedAt)).getD "" = run.startedAt) <| by
        constructor
        · rintro ⟨hid, hdry, hended⟩
          exact ⟨hid, hdry, info, hanswer, hended⟩
        · rintro ⟨hid, hdry, info', hinfo, hended⟩
          cases hanswer.symm.trans hinfo
          exact ⟨hid, hdry, hended⟩
  | .terminate _ _ _ | .sweep _ => isFalse not_false

/-- The run's record, looked up. -/
theorem Stands.lookup {scene : Scene} (h : run.Stands marked scene)
    (hexists : ¬ scene.dirs.Dead run.identity) :
    ∃ record, (scene.history.lookup run.id run.startedAt).filter (·.hasIdentity) = some record := by
  obtain ⟨record, hrecord, hstart, -⟩ := h.remains.resolve_right hexists
  obtain ⟨found, hfound⟩ : ∃ found, scene.history.lookup run.id run.startedAt = some found := by
    cases hlookup : scene.history.lookup run.id run.startedAt with
    | some found => exact ⟨found, rfl⟩
    | none => exact absurd (decide_eq_true hstart) (List.find?_eq_none.mp hlookup record hrecord)
  have hstart' : found.startedAt = run.startedAt := by simpa using List.find?_some hfound
  have hnames := h.tracked.names found (List.mem_of_find?_eq_some hfound) hstart'
  exact ⟨found, Option.filter_eq_some_iff.mpr ⟨hfound, hasIdentity_of_identity hnames⟩⟩

/-- `markTerminal` marks the run's record. -/
theorem Stands.markTerminal (h : run.Stands marked world.scene) :
    run.Remains true (world.perform host (.markTerminal run.id run.startedAt)).scene := by
  refine h.remains.imp_left fun ⟨record, hrecord, hstart, _⟩ => ?_
  refine ⟨record.ended, ?_, hstart, fun _ => rfl⟩
  show record.ended ∈ (world.scene.history.update run.id run.startedAt (·.ended)).records run.id
  rw [Lifecycles.update, Lifecycles.records_put_self]
  exact List.mem_map.mpr ⟨record, hrecord, if_pos hstart⟩

/-- `revoke_ended` of the run marks its record. -/
theorem revokeEnded_marks (h : run.Stands marked start.scene) :
    run.Stands true (revokeEnded host run.id run.startedAt start).2.scene := by
  cases hfound : (start.scene.history.lookup run.id run.startedAt).filter (·.hasIdentity) with
  | none =>
    have hsame : (revokeEnded host run.id run.startedAt start).2 = start := by
      rw [revokeEnded, Action.bind_of_ok (show Action.get start = (.ok start, start) from rfl),
        hfound]
      rfl
    rw [hsame]
    refine ⟨h.good, h.tracked, .inr ?_⟩
    by_contra hexists
    obtain ⟨record, hrecord⟩ := h.lookup hexists
    rw [hfound] at hrecord
    cases hrecord
  | some record =>
    have hrevoked : (revokeEnded host run.id run.startedAt start).2 =
        (revokeAt host record.ended
          (start.perform host (.markTerminal run.id run.startedAt))).2 := by
      rw [revokeEnded, Action.bind_of_ok (show Action.get start = (.ok start, start) from rfl),
        hfound]
      rfl
    have hmem := List.mem_of_find?_eq_some (Option.filter_eq_some_iff.mp hfound).1
    have hstands : run.Stands marked
        (start.perform host (.markTerminal run.id run.startedAt)).scene :=
      h.perform trivial trivial
    have hmarked :
        run.Stands true (start.perform host (.markTerminal run.id run.startedAt)).scene :=
      ⟨hstands.good, hstands.tracked, h.markTerminal⟩
    have hcopies : (start.perform host (.markTerminal run.id run.startedAt)).scene.history.Copies
        record.ended :=
      (h.good.tidy.copies hmem).ended.ages Lifecycles.ages_markTerminal
    have hgoes : Goes host (Revokes _ [record.ended] [record.ended]) _
        (revokeAt host record.ended (start.perform host (.markTerminal run.id run.startedAt))).2 :=
      (revokeAt_triple List.mem_cons_self List.mem_cons_self hcopies).after .refl
    have hsparing : Sparing host run _
        (revokeAt host record.ended (start.perform host (.markTerminal run.id run.startedAt))).2 :=
      (revokeAt_sparing hmarked.tracked (h.tracked.fits hmem).ended).after .refl
    rw [hrevoked]
    exact hmarked.of_goes (hgoes.mono fun _ _ => Revokes.safe) hsparing

/-- A reconcile that is answered with the ended run marks its record. -/
theorem reconcile_marks (h : run.Stands marked start.scene) {op : Op}
    (hnotices : Notices host run start op) :
    run.Stands true (Op.run host start op).scene := by
  cases op with
  | terminate | sweep => exact hnotices.elim
  | reconcile config id =>
    obtain ⟨rfl, hdry, info, hanswer, hdead, hstarted⟩ := hnotices
    have hcalled : run.Stands marked
        (start.perform host (.dirs (host.changes start.calls))).scene :=
      h.perform trivial trivial
    have hrun : Op.run host start (.reconcile config run.id) =
        (revokeEnded host run.id run.startedAt (call (ε := Error) host start).2).2 := by
      have hinspect : inspect host run.id start = (.ok info, (call (ε := Error) host start).2) := by
        have hcall :
            call (ε := Error) host start = (.ok start.calls, (call (ε := Error) host start).2) :=
            rfl
        rw [inspect, Action.bind_of_ok hcall, hanswer]
        rfl
      rw [Op.run, reconcile, Action.bind_of_ok (Action.attempt_eq hinspect), reconcileLocked]
      simp only [hdead, hdry, hstarted, Bool.false_eq_true, if_false]
    rw [hrun]
    exact revokeEnded_marks hcalled

/-! ## A sweep empties the directory -/

/-- A cgroup call of this number fails. -/
def Fault (host : Host σ ν) (number : Nat) : Prop :=
  (∃ path, host.statFault number path ≠ none) ∨ (∃ path, host.openFault number path ≠ none) ∨
    ∃ version identity rules, host.setDeviceRules number version identity rules ≠ .ok ()

/-- The property stays, whatever is called or done. -/
structure Lasting (host : Host σ ν) (K : World σ → Prop) : Prop where
  call : ∀ world changes, K world → K { world.perform host (.dirs changes) with
    calls := world.calls + 1 }
  perform : ∀ world act, K world → K (world.perform host act)

/-- The sweep began with call `lo`, after the end of the run. -/
structure Sweeping (run : EndedRun) (lo : Nat) (world : World σ) : Prop where
  calls : lo ≤ world.calls
  since : ∃ since, world.scene.sets = since ++ run.before
  born : run.identity ∈ world.scene.dirs.born

/-- The empty set was applied since the end of the run, or its directory is gone, or a cgroup call
failed since call `lo`. -/
def Settled (host : Host σ ν) (run : EndedRun) (lo : Nat) (world : World σ) : Prop :=
  run.Emptied world.scene ∨ world.scene.dirs.Dead run.identity ∨
    ∃ number, lo ≤ number ∧ number < world.calls ∧ Fault host number

private theorem sets_apply (parse : String → Option Timestamp) (scene : Scene) (act : Act) :
    ∃ later, (act.apply parse scene).sets = later ++ scene.sets := by
  cases act with
  | set call => exact ⟨[call], rfl⟩
  | _ => exact ⟨[], rfl⟩

theorem Emptied.apply {parse : String → Option Timestamp} {scene : Scene} (h : run.Emptied scene)
    (act : Act) :
    run.Emptied (act.apply parse scene) := by
  cases act with
  | set call => exact h.set call
  | _ => exact h

theorem lasting_sweeping (host : Host σ ν) (run : EndedRun) (lo : Nat) :
    Lasting host (Sweeping run lo) where
  call world changes h := ⟨Nat.le_succ_of_le h.calls, h.since, Dirs.born_changeAll changes h.born⟩
  perform world act h := by
    obtain ⟨since, hsince⟩ := h.since
    obtain ⟨later, hlater⟩ := sets_apply host.parse world.scene act
    refine ⟨h.calls, ⟨later ++ since, ?_⟩, born_apply h.born act⟩
    rw [World.perform, hlater, hsince, List.append_assoc]

theorem lasting_settled (host : Host σ ν) (run : EndedRun) (lo : Nat) :
    Lasting host (Settled host run lo) where
  call world changes h := by
    rcases h with hemptied | hdead | ⟨number, hlo, hhi, hfault⟩
    · exact .inl hemptied
    · exact .inr (.inl (hdead.changeAll changes))
    · exact .inr (.inr ⟨number, hlo, Nat.lt_succ_of_lt hhi, hfault⟩)
  perform world act h := by
    rcases h with hemptied | hdead | hfault
    · exact .inl (hemptied.apply act)
    · exact .inr (.inl (dead_apply hdead act))
    · exact .inr (.inr hfault)

section Lasting

variable {K : World σ → Prop} {ε : Type} {err : ε → World σ → Prop}

theorem call_lasting (hk : Lasting host K) : Triple K (call host) (fun _ => K) err :=
  fun world h => hk.call world _ h

theorem setDeviceRules_lasting (hk : Lasting host K) (id : ContainerId) (version : CgroupVersion)
    (identity : Identity) (rules : List Filter.DeviceRule) :
    Triple K (setDeviceRules host id version identity rules) (fun _ => K) err :=
  (call_lasting hk).bind fun _ => (perform_triple K fun world h => hk.perform world _ h).bind
    fun _ => .pure _ fun _ h => h

private theorem cgroupGone_lasting (hk : Lasting host K) (identity : Identity) :
    Triple K (cgroupGone host identity) (fun _ => K) (fun _ => K) := by
  refine (call_lasting hk).bind fun number => ?_
  cases host.statFault number identity.path with
  | some errno => exact .fail _ fun _ h => h
  | none => exact Triple.get.bind fun seen => .pure _ fun world h => h.2

theorem openHandle_lasting (hk : Lasting host K) (path : String) :
    Triple K (openHandle host path) (fun _ => K) (fun _ => K) := by
  refine (call_lasting hk).bind fun number => ?_
  cases host.openFault number path with
  | some error => exact .fail _ fun _ h => h
  | none =>
    refine Triple.get.bind fun seen => ?_
    cases seen.scene.dirs.inode path with
    | none => exact .fail _ fun _ h => h.2
    | some inode => exact .pure _ fun _ h => h.2

private theorem openRecorded_lasting (hk : Lasting host K) (id : ContainerId)
    (identity : Identity) :
    Triple K (openRecorded host id identity) (fun _ => K) (fun _ => K) := by
  refine (Triple.attempt (fun _ => K) (openHandle_lasting hk identity.path)).bind fun found => ?_
  cases found with
  | ok found => exact .ite (fun _ => .pure _ fun _ h => h) fun _ => .pure _ fun _ h => h
  | error source => exact .ite (fun _ => .pure _ fun _ h => h) fun _ => .fail _ fun _ h => h

theorem revokeAt_lasting (hk : Lasting host K) (record : LifecycleRecord) :
    Triple K (revokeAt host record) (fun _ => K) (fun _ => K) := by
  have hperform : ∀ act, Triple K (perform host act) (fun _ => K) (fun _ : Error => K) := fun act =>
    perform_triple K fun world h => hk.perform world act h
  rw [revokeAt]
  cases record.cgroup with
  | none => exact .pure _ fun _ h => h
  | some cgroup =>
    refine (openRecorded_lasting hk record.containerId cgroup.identity).bind fun recorded => ?_
    cases recorded with
    | gone => exact hperform _
    | «open» identity =>
      refine (setDeviceRules_lasting hk _ _ _ _).bind fun result => ?_
      cases result with
      | ok => exact hperform _
      | error error => exact .ite (fun _ => hperform _) fun _ => .fail _ fun _ h => h

theorem sweepRecord_lasting (hk : Lasting host K) (config : Runtime) (now : Timestamp)
    (record : LifecycleRecord) {err : Error → World σ → Prop} :
    Triple K (sweepRecord host config now record) (fun _ => K) err := by
  have hrelease : Triple K (do perform host (.release record); pure true) (fun _ => K) err :=
    (perform_triple K fun world h => hk.perform world _ h).bind fun _ => .pure _ fun _ h => h
  rw [sweepRecord]
  cases record.cgroup with
  | none => exact .ite (fun _ => hrelease) fun _ => .pure _ fun _ h => h
  | some cgroup =>
    refine Triple.attempt_bind (cgroupGone_lasting hk cgroup.identity) (fun gone => ?_)
      fun _ => .pure _ fun _ h => h
    cases gone with
    | true => exact hrelease
    | false =>
      refine .ite (fun _ => ?_) fun _ => .pure _ fun _ h => h
      exact (Triple.attempt (fun _ => K) (revokeAt_lasting hk record)).bind fun _ =>
        .pure _ fun _ h => h

theorem sweepRecords_lasting (hk : Lasting host K) (config : Runtime) (now : Timestamp)
    (records : List LifecycleRecord) {err : Error → World σ → Prop} :
    Triple K (sweepRecords host config now records) (fun _ => K) err := by
  induction records with
  | nil => exact .pure _ fun _ h => h
  | cons record records ih =>
    exact (sweepRecord_lasting hk config now record).bind fun _ => ih.bind fun _ =>
      .pure _ fun _ h => h

end Lasting

variable {lo number : Nat}

/-- A call's number, and what holds of the world after it. -/
theorem Sweeping.call {ε : Type} {err : ε → World σ → Prop} :
    Triple (Sweeping run lo) (call host)
      (fun number world => lo ≤ number ∧ number < world.calls ∧ Sweeping run lo world) err :=
  fun world h => ⟨h.calls, Nat.lt_succ_self _, (lasting_sweeping host run lo).call world _ h⟩

theorem Sweeping.dead (h : Sweeping run lo world) (hgone : ¬ world.scene.dirs.Exists run.identity) :
    Settled host run lo world := .inr (.inl ⟨h.born, hgone⟩)

theorem Sweeping.fault (h : lo ≤ number ∧ number < world.calls ∧ Sweeping run lo world)
    (hfault : Fault host number) : Settled host run lo world :=
  .inr (.inr ⟨number, h.1, h.2.1, hfault⟩)

theorem cgroupGone_settles :
    Triple (Sweeping run lo) (cgroupGone host run.identity)
      (fun gone world => Settled host run lo world ∨ gone = false ∧ Sweeping run lo world)
      (fun _ => Settled host run lo) := by
  refine Sweeping.call.bind fun number => ?_
  cases hfault : host.statFault number run.identity.path with
  | some errno =>
    exact .fail _ fun world h => Sweeping.fault h
      (.inl ⟨_, ne_of_eq_of_ne hfault (Option.some_ne_none errno)⟩)
  | none =>
    refine Triple.get.bind fun seen => .pure _ fun world h => ?_
    by_cases hexists : seen.scene.dirs.Exists run.identity
    · exact .inr ⟨decide_eq_false (not_not_intro hexists), h.2.2.2⟩
    · exact .inl (h.2.2.2.dead (h.1 ▸ hexists))

theorem openHandle_settles :
    Triple (Sweeping run lo) (openHandle host run.identity.path)
      (fun found world => Sweeping run lo world ∧ found.path = run.identity.path ∧
        world.scene.dirs.Exists found)
      (fun _ => Settled host run lo) := by
  refine Sweeping.call.bind fun number => ?_
  cases hfault : host.openFault number run.identity.path with
  | some error =>
    exact .fail _ fun world h => Sweeping.fault h (.inr (.inl ⟨_, ne_of_eq_of_ne hfault nofun⟩))
  | none =>
    refine Triple.get.bind fun seen => ?_
    cases hinode : seen.scene.dirs.inode run.identity.path with
    | none =>
      refine .fail _ fun world ⟨hseen, _, _, h⟩ => h.dead fun hexists => ?_
      rw [Dirs.Exists, hseen, hinode] at hexists
      cases hexists
    | some inode => exact .pure _ fun world ⟨hseen, _, _, h⟩ => ⟨h, rfl, hseen ▸ hinode⟩

/-- The run's directory is opened, or it is settled. -/
theorem openRecorded_settles (id : ContainerId) :
    Triple (Sweeping run lo) (openRecorded host id run.identity)
      (fun recorded world => Settled host run lo world ∨ recorded = .open run.identity ∧
        Sweeping run lo world)
      (fun _ => Settled host run lo) := by
  refine Triple.attempt_bind openHandle_settles (fun found => ?_)
    fun _ => .ite (fun _ => .pure _ fun _ h => .inl h) fun _ => .fail _ fun _ h => h
  · refine .ite (fun heq => .pure _ fun world h => .inr ⟨by rw [heq], h.1⟩) fun hne => ?_
    refine .pure _ fun world h => .inl (h.1.dead fun hexists => hne ?_)
    obtain ⟨-, hpath, hfound⟩ := h
    rw [Dirs.Exists, hpath, hexists] at hfound
    cases found
    exact congrArg₂ Identity.mk hpath (Option.some.inj hfound).symm

theorem setDeviceRules_settles {ε : Type} {err : ε → World σ → Prop} (version : CgroupVersion) :
    Triple (Sweeping run lo) (setDeviceRules host run.id version run.identity [])
      (fun _ => Settled host run lo) err := by
  refine Sweeping.call.bind fun number => ?_
  refine (perform_triple (Settled host run lo) fun world h => ?_).bind fun _ => .pure _ fun _ h => h
  cases hanswer : host.setDeviceRules number version run.identity [] with
  | error error =>
    have hfault : Fault host number := .inr (.inr ⟨_, _, _, ne_of_eq_of_ne hanswer nofun⟩)
    exact (lasting_settled host run lo).perform _ _ (Sweeping.fault h hfault)
  | ok =>
    obtain ⟨since, hsince⟩ := h.2.2.since
    refine .inl ⟨⟨run.id, run.identity, version, [], .ok ()⟩ :: since, ?_, _, List.mem_cons_self,
      rfl, rfl, rfl⟩
    rw [World.perform, Act.apply, hsince]
    rfl

/-- At a record of the run the empty set is applied. -/
theorem revokeAt_settles {record : LifecycleRecord} (hid : record.containerId = run.id)
    (hidentity : record.identity = some run.identity) :
    Triple (Sweeping run lo) (revokeAt host record) (fun _ => Settled host run lo)
      (fun _ => Settled host run lo) := by
  have hlasting := lasting_settled host run lo
  have hperform : ∀ act, Triple (Settled host run lo) (perform host act)
      (fun _ => Settled host run lo) (fun _ : Error => Settled host run lo) := fun act =>
    perform_triple _ fun world h => hlasting.perform world act h
  obtain ⟨cgroup, hcgroup, hsame⟩ := Option.map_eq_some_iff.mp hidentity
  rw [revokeAt, hcgroup]
  simp only [hsame]
  refine (openRecorded_settles record.containerId).bind fun recorded => ?_
  cases recorded with
  | gone =>
    refine (hperform _).of_pre _ fun world h => h.resolve_right fun hopen => ?_
    cases hopen.1
  | «open» identity =>
    have hset : Triple
        (fun world => Settled host run lo world ∨ Recorded.open identity = .open run.identity ∧
          Sweeping run lo world)
        (setDeviceRules host record.containerId cgroup.version identity [])
        (fun _ => Settled host run lo)
        (fun _ : Error => Settled host run lo) := by
      refine (setDeviceRules_lasting hlasting _ _ _ _).or (.lift fun heq => ?_)
      cases heq
      rw [hid]
      exact setDeviceRules_settles cgroup.version
    refine hset.bind fun result => ?_
    cases result with
    | ok => exact hperform _
    | error error => exact .ite (fun _ => hperform _) fun _ => .fail _ fun _ h => h

/-- The sweep settles a marked record of the run. -/
theorem sweepRecord_settles {config : Runtime} (hdry : config.dryRun = false) (now : Timestamp)
    {record : LifecycleRecord} (hid : record.containerId = run.id)
    (hidentity : record.identity = some run.identity) (hended : record.state = .terminal)
    (hunmarked : record.revoked = false) {err : Error → World σ → Prop} :
    Triple (Sweeping run lo) (sweepRecord host config now record)
      (fun _ => Settled host run lo) err := by
  obtain ⟨cgroup, hcgroup, hsame⟩ := Option.map_eq_some_iff.mp hidentity
  rw [sweepRecord, hcgroup]
  simp only [hsame]
  refine Triple.attempt_bind cgroupGone_settles (fun gone => ?_) fun _ => .pure _ fun _ h => h
  cases gone with
  | true =>
    refine (perform_triple (Settled host run lo) fun world h => ?_).bind fun _ =>
      .pure _ fun _ h => h
    exact (lasting_settled host run lo).perform _ _
      (h.resolve_right fun hgone => Bool.noConfusion hgone.1)
  | false =>
    simp only [hended, hunmarked, hdry, decide_true, Bool.not_false, Bool.and_self, if_true]
    refine (Triple.attempt (fun _ => Settled host run lo) ?_).bind fun _ => .pure _ fun _ h => h
    exact (revokeAt_lasting (lasting_settled host run lo) record).or
      (.lift fun _ => revokeAt_settles hid hidentity)

theorem sweepRecords_settles {config : Runtime} (hdry : config.dryRun = false) (now : Timestamp)
    {record : LifecycleRecord} (hid : record.containerId = run.id)
    (hidentity : record.identity = some run.identity) (hended : record.state = .terminal)
    (hunmarked : record.revoked = false) {records : List LifecycleRecord} (hmem : record ∈ records)
    {err : Error → World σ → Prop} :
    Triple (Sweeping run lo) (sweepRecords host config now records)
      (fun _ => Settled host run lo) err := by
  induction records with
  | nil => cases hmem
  | cons first records ih =>
    rcases List.mem_cons.mp hmem with rfl | hmem
    · exact (sweepRecord_settles hdry now hid hidentity hended hunmarked).bind fun _ =>
        (sweepRecords_lasting (lasting_settled host run lo) config now records).bind fun _ =>
          .pure _ fun _ h => h
    · exact (sweepRecord_lasting (lasting_sweeping host run lo) config now first).bind fun _ =>
        (ih hmem).bind fun _ => .pure _ fun _ h => h

/-- A sweep settles a run that is marked as ended. -/
theorem sweep_settles (h : run.Stands true start.scene) {config : Runtime}
    (hdry : config.dryRun = false) :
    Settled host run start.calls (Op.run host start (.sweep config)) := by
  have hclock : Triple (fun world => world = start) (clock (ε := Error) host)
      (fun _ world => run.Stands true world.scene ∧ Sweeping run start.calls world)
      (fun _ => Settled host run start.calls) := by
    intro world heq
    subst heq
    have hdirs : run.Stands true (world.perform host (.dirs (host.changes world.calls))).scene :=
      h.perform trivial trivial
    exact ⟨hdirs, (lasting_sweeping host run _).call _ _ ⟨le_rfl, h.tracked.since, h.born⟩⟩
  have hsweep : Triple (fun world => world = start) (sweep host config)
      (fun _ => Settled host run start.calls) (fun _ => Settled host run start.calls) := by
    refine hclock.bind fun now => Triple.get.bind fun seen => ?_
    refine Triple.of_pre (fun world => run.Stands true seen.scene ∧ world = seen ∧
      Sweeping run start.calls world)
      (.lift fun hseen => ?_) fun world ⟨heq, hs, h⟩ => ⟨heq ▸ hs, heq, h⟩
    rcases hseen.remains with ⟨record, hrecord, hstart, hended⟩ | hdead
    swap
    · refine (sweepRecords_lasting (lasting_settled host run _) config now _).of_pre _
        fun world h => ?_
      exact .inr (.inl (h.1 ▸ hdead))
    cases hrevoked : record.revoked with
    | true =>
      have hemptied := hseen.tracked.emptied record hrecord hstart hrevoked
      refine (sweepRecords_lasting (lasting_settled host run _) config now _).of_pre _
        fun world h => ?_
      exact .inl (h.1 ▸ hemptied)
    | false =>
      have hid := (hseen.good.tidy run.id).containerId record hrecord
      have hnames := hseen.tracked.names record hrecord hstart
      refine (sweepRecords_settles hdry now hid hnames (hended rfl) hrevoked ?_).of_pre _
        fun world h => h.2
      have hids := (seen.scene.history.mem_ids run.id).mpr (List.ne_nil_of_mem hrecord)
      exact List.mem_flatMap.mpr ⟨run.id, hids, hrecord⟩
  exact hsweep.after rfl

end Operations
end EndedRun
end Processor
end Sda
