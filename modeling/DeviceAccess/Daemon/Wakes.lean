import DeviceAccess.Daemon.Loop
import DeviceAccess.Daemon.Stamps

/-!
# No work is forgotten while the coordinator sleeps

The run loop computes its deadlines before it waits, and the state changes behind them. `Awake` says
that a request that is not yet served is on its way to a pass: dirty with a wake on its way, or
behind the list retry, or in the pass. `Covers` says that no pending container is due before the
deadline the loop waits for, or a wake is on its way. The result is `sleep_forgets_nothing`.
-/

namespace Sda
namespace Daemon

open Processor (ContainerId Timestamp)

/-! ## Requests -/

/-- The loop has seen no request and goes to sleep. -/
def RunPc.rests : RunPc → Prop
  | .idle | .armed _ | .waiting _ => True
  | _ => False

/-- A request that is not served is on its way to a pass. -/
structure Loop.Awake (loop : Loop) : Prop where
  pass : ∀ key, loop.pc.key = some key → key = loop.latest ∨ loop.dirty = true
  owed : loop.incomplete = true → loop.dirty = true ∨ loop.listRetry.isSome = true ∨
    loop.pc.key = some loop.latest ∨ loop.canceled = true ∧ (loop.pc = .top ∨ loop.pc = .stopped)
  wakes : loop.dirty = true → loop.pc.rests → loop.permit = true ∨ 0 < loop.requesting

theorem awake_turns {loop loop' : Loop} (h : loop.Awake) (hturn : Turns loop loop') :
    loop'.Awake := by
  -- A loop that is in no pass and not asleep owes what it owed before.
  have howed : ∀ {pc : RunPc}, loop.pc = pc → pc.key = none → pc ≠ .top → pc ≠ .stopped →
      loop.incomplete = true → loop.dirty = true ∨ loop.listRetry.isSome = true := by
    intro pc hpc hkey htop hstopped hincomplete
    rcases h.owed hincomplete with hdirty | hretry | hpass | ⟨-, h | h⟩
    · exact .inl hdirty
    · exact .inr hretry
    · rw [hpc, hkey] at hpass
      cases hpass
    · exact absurd (hpc.symm.trans h) htop
    · exact absurd (hpc.symm.trans h) hstopped
  cases hturn with
  | other kept stays calls =>
    refine ⟨h.pass, fun hincomplete => ?_, fun hdirty hrests =>
      (h.wakes hdirty hrests).imp_left kept⟩
    exact (h.owed hincomplete).imp_right
      (.imp_right (.imp_right fun ⟨hcanceled, hpc⟩ => ⟨stays hcanceled, hpc⟩))
  | request => exact ⟨fun _ _ => .inr rfl, fun _ => .inl rfl, fun _ _ => .inr (Nat.succ_pos _)⟩
  | notify => exact ⟨h.pass, h.owed, fun _ _ => .inl rfl⟩
  | check pc =>
    by_cases hcanceled : loop.canceled = true
    · simp only [if_pos hcanceled]
      exact ⟨nofun, fun _ => .inr (.inr (.inr ⟨hcanceled, .inr rfl⟩)), fun _ h => h.elim⟩
    · simp only [if_neg hcanceled]
      refine ⟨nofun, fun hincomplete => ?_, fun _ h => h.elim⟩
      rcases h.owed hincomplete with hdirty | hretry | hpass | ⟨h, -⟩
      · exact .inl hdirty
      · exact .inr (.inl hretry)
      · rw [pc] at hpass
        cases hpass
      · exact absurd h hcanceled
  | take pc dirty =>
    refine ⟨?_, fun _ => .inr (.inr (.inl rfl)), nofun⟩
    rintro key ⟨⟩
    exact .inl rfl
  | rest pc clean =>
    refine ⟨nofun, fun hincomplete => ?_, fun hdirty => absurd (clean.symm.trans hdirty) nofun⟩
    exact (howed pc rfl nofun nofun hincomplete).imp_right .inl
  | arm retry pc =>
    refine ⟨nofun, fun hincomplete => ?_, fun hdirty _ => h.wakes hdirty (by rw [pc]; trivial)⟩
    exact (howed pc rfl nofun nofun hincomplete).imp_right .inl
  | sleep pc =>
    refine ⟨nofun, fun hincomplete => ?_, fun hdirty _ => h.wakes hdirty (by rw [pc]; trivial)⟩
    exact (howed pc rfl nofun nofun hincomplete).imp_right .inl
  | wake pc =>
    exact ⟨nofun, fun hincomplete => (howed pc rfl nofun nofun hincomplete).imp_right .inl,
      fun _ h => h.elim⟩
  | redo pc => exact ⟨nofun, fun _ => .inl rfl, fun _ h => h.elim⟩
  | leave next pc target =>
    have hnext : next.key = none ∧ ¬ next.rests := by
      rcases target with rfl | ⟨ids, rfl⟩ | ⟨rfl, -⟩ <;> exact ⟨rfl, fun h => h⟩
    refine ⟨fun key hkey => ?_, fun hincomplete => ?_, fun _ hrests => absurd hrests hnext.2⟩
    · rw [hnext.1] at hkey
      cases hkey
    · exact (howed pc rfl nofun nofun hincomplete).imp_right .inl
  | listed ids pc =>
    refine ⟨fun key hkey => h.pass key (by rw [pc]; exact hkey), fun hincomplete =>
      ?_, fun _ h => h.elim⟩
    have := h.owed hincomplete
    rw [pc] at this
    simpa [RunPc.key] using this
  | listFailed deadline pc calls => exact ⟨nofun, fun _ => .inr (.inl rfl), fun _ h => h.elim⟩
  | @superseded key listed rest pc why =>
    refine ⟨nofun, fun hincomplete => ?_, fun _ h => h.elim⟩
    rcases why with hcanceled | hne
    · exact .inr (.inr (.inr ⟨hcanceled, .inl rfl⟩))
    · have hdirty := (h.pass key (by rw [pc]; rfl)).resolve_left (Ne.symm hne)
      exact .inl hdirty
  | visit pc =>
    refine ⟨fun key hkey => h.pass key (by rw [pc]; exact hkey), fun hincomplete =>
      ?_, fun _ h => h.elim⟩
    have := h.owed hincomplete
    rw [pc] at this
    simpa [RunPc.key] using this
  | reserve pc calls =>
    refine ⟨fun key hkey => h.pass key (by rw [pc]; exact hkey), fun hincomplete =>
      ?_, fun _ h => h.elim⟩
    have := h.owed hincomplete
    rw [pc] at this
    simpa [RunPc.key] using this
  | @finish key listed entries pc calls =>
    refine ⟨nofun, fun hincomplete => ?_, fun _ h => h.elim⟩
    by_cases hkey : key = loop.latest
    · simp [hkey] at hincomplete
    · exact .inl ((h.pass key (by rw [pc]; rfl)).resolve_left hkey)
  | @retry ids entries next pc target calls =>
    have hnext : next.key = none ∧ ¬ next.rests := by
      rcases target with rfl | ⟨ids, rfl⟩ <;> exact ⟨rfl, fun h => h⟩
    refine ⟨fun key hkey => ?_, fun hincomplete => ?_, fun _ hrests => absurd hrests hnext.2⟩
    · rw [hnext.1] at hkey
      cases hkey
    · exact (howed pc rfl nofun nofun hincomplete).imp_right .inl

theorem awake_new (store : Nat) : (System.new store).loop.Awake := ⟨nofun, nofun, nofun⟩

theorem run_awake (store : Nat) (acts : List Act) : ((System.new store).run acts).loop.Awake := by
  obtain ⟨past, hrun⟩ := run_runs (System.new store) acts
  exact (hrun.invariant (fun sys => sys.loop.Awake)
    (fun _ _ h henabled => awake_turns h (loop_step henabled))
    (awake_new store)).1

/-! ## Pending containers -/

/-- The deadline for retries that the loop waits for, or is about to. -/
def RunPc.deadline : RunPc → Option (Option Instant)
  | .armed retry | .waiting retry => some retry
  | _ => none

/-- No pending container that can be retried is due before the deadline, or a wake is on its way. -/
def System.Covers (sys : System) (retry : Option Instant) : Prop :=
  sys.permit = true ∨ ∀ id entry, sys.state.pending.get id = some entry →
    sys.state.inFlight.get id = none →
    ∃ deadline, retry = some deadline ∧ deadline ≤ entry.due

section Covers

variable {sys sys' : System} {retry : Option Instant}

theorem nextDue_covers (sys : System) : sys.Covers sys.state.nextDue := by
  refine .inr fun id entry hentry hfree => ?_
  have hmem : entry.due ∈ sys.state.pending.keys.filterMap fun id =>
      if (sys.state.inFlight.get id).isSome then none
      else (sys.state.pending.get id).map (·.due) := by
    refine List.mem_filterMap.mpr
      ⟨id, (sys.state.pending.mem_keys id).mpr (by rw [hentry]; rfl), ?_⟩
    simp [hfree, hentry]
  cases hmin : sys.state.nextDue with
  | none => exact absurd (List.min?_eq_none_iff.mp hmin) (List.ne_nil_of_mem hmem)
  | some deadline => exact ⟨deadline, rfl, (List.min?_eq_some_iff.mp hmin).2 _ hmem⟩

/-- No container became free to retry, unless with a wake, and no due time came earlier. -/
theorem System.Covers.keep (h : sys.Covers retry) (hpermit : sys.permit = true → sys'.permit = true)
    (hsame : ∀ id entry, sys'.state.pending.get id = some entry →
      sys'.state.inFlight.get id = none →
      sys'.permit = true ∨ ∃ before, sys.state.pending.get id = some before ∧
      sys.state.inFlight.get id = none ∧
        before.due = entry.due) : sys'.Covers retry := by
  rcases h with h | h
  · exact .inl (hpermit h)
  · by_cases hwake : sys'.permit = true
    · exact .inl hwake
    · refine .inr fun id entry hentry hfree => ?_
      obtain ⟨before, hbefore, hfree', hdue⟩ := (hsame id entry hentry hfree).resolve_left hwake
      obtain ⟨deadline, hretry, hle⟩ := h id before hbefore hfree'
      exact ⟨deadline, hretry, hdue ▸ hle⟩

theorem reserve_covers (h : sys.Covers retry) (id : ContainerId) (eventTime : Option Timestamp)
    (terminal : Bool) (now : Timestamp) : (sys.reserve id eventTime terminal now).Covers retry := by
  have hinsert : ∀ {held : Reservation} {sys' : System}, sys'.permit = sys.permit →
      sys'.state = { sys.state with inFlight := sys.state.inFlight.insert id held } →
        sys'.Covers retry := by
    intro held sys' hpermit hstate
    refine h.keep (fun h => hpermit.trans h) fun other entry hentry hfree => ?_
    rw [hstate] at hentry hfree
    by_cases hother : other = id
    · subst hother
      simp at hfree
    · exact .inr ⟨entry, hentry, by rwa [Table.get_insert_of_ne hother] at hfree, rfl⟩
  rw [System.reserve]
  cases sys.state.inFlight.get id with
  | none => exact hinsert rfl rfl
  | some held => exact hinsert rfl rfl

theorem advance_covers (h : sys.Covers retry) (hsingle : sys.Single) {index : Nat} {hold : Hold}
    (hget : sys.holds[index]? = some hold) (act : HoldAct) :
    (sys.advance index hold act).Covers retry := by
  have hreserved : ∃ held, sys.state.inFlight.get hold.id = some held :=
    Option.isSome_iff_exists.mp <| (hsingle.reserved hold.id).mpr
      (List.mem_map_of_mem (List.mem_of_getElem? hget))
  cases act with
  | beginTerminate | endTerminate | begin | load =>
    rw [System.advance]
    split
    · exact h
    · exact h
  | readKey => exact h
  | finish outcome =>
    rw [System.advance]
    split
    · exact h
    · exact h
    · exact h
  | settle now =>
    rw [System.advance]
    split
    next key started outcome _ =>
      obtain ⟨pending, hrest⟩ := settle_rest sys.state hold.id key outcome.good now
      have hpending := fun id => settle_pending sys.state hold.id id key outcome.good now
      rw [hrest] at hpending ⊢
      refine h.keep (fun h => h) fun id entry hentry hfree => .inr ⟨entry, ?_, hfree, rfl⟩
      have hne : id ≠ hold.id := by
        rintro rfl
        obtain ⟨held, hheld⟩ := hreserved
        exact absurd (hheld.symm.trans hfree) (Option.some_ne_none held)
      rw [← hentry]
      exact ((hpending id).trans (if_neg hne)).symm
    next => exact h
  | mark =>
    rw [System.advance]
    split
    · exact h
    · exact h
  | next now =>
    obtain ⟨held, hheld⟩ := hreserved
    simp only [System.advance, hheld]
    by_cases hqueued : held.queued = true
    · rw [if_pos hqueued]
      refine h.keep (fun h => h) fun id entry hentry hfree => .inr ⟨entry, hentry, ?_, rfl⟩
      by_cases hid : id = hold.id
      · subst hid
        simp at hfree
      · simpa [Table.get_insert_of_ne hid] using hfree
    · rw [if_neg hqueued]
      obtain ⟨announced, hrest⟩ :=
        announceLocked_rest { sys.state with inFlight := sys.state.inFlight.erase hold.id }
      refine h.keep (fun h => by simp [System.release, h]) fun id entry hentry hfree => ?_
      simp only [System.release, hrest, System.put] at hentry hfree ⊢
      by_cases hid : id = hold.id
      · subst hid
        exact .inl (by simp [hentry])
      · exact .inr ⟨entry, hentry, by rwa [Table.get_erase_of_ne hid] at hfree, rfl⟩

theorem covers_step (hsingle : sys.Single) {act : Act} (henabled : sys.enabled act = true)
    (h : ∀ retry, sys.pc.deadline = some retry → sys.Covers retry) (retry : Option Instant) :
    (sys.apply act).pc.deadline = some retry → (sys.apply act).Covers retry := by
  intro hretry
  have hreserve :
    ∀ {id eventTime terminal now},
      (sys.reserve id eventTime terminal now).pc.deadline = some retry →
      (sys.reserve id eventTime terminal now).Covers retry := by
    intro id eventTime terminal now hretry
    obtain ⟨entry, -, hloop⟩ := reserve_loop sys id eventTime terminal now
    have hpc : (sys.reserve id eventTime terminal now).pc = sys.pc := congrArg Loop.pc hloop
    exact reserve_covers (h retry (by rwa [hpc] at hretry)) id eventTime terminal now
  cases act with
  | publish | cancel | eventDrop => exact h retry hretry
  | notify | eventNotify => exact .inl rfl
  | request generation =>
    refine (h retry hretry).keep (fun h => h) fun id entry hentry hfree => .inr ?_
    obtain ⟨before, hbefore, rfl⟩ := Option.map_eq_some_iff.mp hentry
    exact ⟨before, hbefore, hfree, rfl⟩
  | start | endRun => exact hreserve hretry
  | skip id eventTime now =>
    rw [System.apply, State.skipEvent] at hretry ⊢
    cases hprocessed : sys.state.processed.get id with
    | none =>
      rw [hprocessed] at hretry
      exact h retry hretry
    | some inspected =>
      rw [hprocessed] at hretry
      exact h retry hretry
  | check =>
    rw [System.apply] at hretry
    split at hretry <;> cases hretry
  | takeRequest =>
    rw [System.apply] at hretry
    split at hretry <;> cases hretry
  | nextDue =>
    cases hretry
    exact nextDue_covers sys
  | armPrune now =>
    rw [System.apply] at hretry ⊢
    split at hretry
    next armed hpc => exact h retry (by rw [hpc]; exact hretry)
    next => exact h retry hretry
  | wake | listRetry | retryDue | prune | sweep | stop | listFailed | superseded | retryDone
  | retryCancel =>
    cases hretry
  | listed | visit =>
    rw [System.apply] at hretry ⊢
    split at hretry
    · cases hretry
    · exact h retry hretry
  | reserveVisit | finishPass | retryNext =>
    rw [System.apply] at hretry ⊢
    split at hretry
    · cases hretry
    · exact h retry hretry
  | hold index act =>
    rw [System.apply] at hretry ⊢
    cases hget : sys.holds[index]? with
    | none =>
      rw [hget] at hretry
      exact h retry hretry
    | some hold =>
      rw [hget] at hretry
      have hpc : (sys.advance index hold act).pc = sys.pc := by
        obtain ⟨permit, entries, -, -, hloop⟩ := advance_aside sys index hold act
        exact congrArg Loop.pc hloop
      exact advance_covers (h retry (by rwa [hpc] at hretry)) hsingle hget act

theorem run_covers (store : Nat) (acts : List Act) (retry : Option Instant)
    (hretry : ((System.new store).run acts).pc.deadline = some retry) :
    ((System.new store).run acts).Covers retry := by
  obtain ⟨past, hrun⟩ := run_runs (System.new store) acts
  have hinv := (hrun.invariant
    (fun sys => sys.Single ∧ ∀ retry, sys.pc.deadline = some retry → sys.Covers retry)
    (fun sys act h henabled => ⟨h.1.apply act, covers_step h.1 henabled h.2⟩)
      ⟨single_new store, nofun⟩).1
  exact hinv.2 retry hretry

end Covers

/-! ## The theorem -/

/-- One act removes a pending entry only by settling a reconcile that began when the entry's request
was the latest, and that succeeded or found the container gone. -/
theorem pending_removed {id : ContainerId} {place place' : Place} (hstamped : Stamped id place)
    (hfew : FewRequests place.log) (h : Does id place place') {entry : PendingEntry}
    (hentry : place.pending = some entry) (hgone : place'.pending = none) :
    ∃ entries outcome generation, outcome.good = true ∧
    place'.log = entries ++ .settled id outcome :: place.log ∧
      Ended id entry.key generation outcome place.log := by
  have hmove : ∀ {place'}, Moves id place place' → place'.pending = none →
      ∃ entries outcome generation, outcome.good = true ∧
        place'.log = entries ++ .settled id outcome :: place.log ∧ Ended id entry.key generation
          outcome place.log := by
    intro place' hmove hgone
    cases hmove with
    | @settle hold key started outcome now holds pc =>
      simp only [hentry, settleEntry] at hgone
      by_cases hgood : outcome.good = true
      · by_cases hkey : entry.key = key
        · have hstands := hstamped.stands hfew hold holds
          rw [pc] at hstands
          obtain ⟨begun, generation, hbegun, hlatest, -, hended⟩ := hstands hgood
          have htagged := hstamped.tagged entry hentry
          rw [← hkey, htagged] at hbegun
          rw [hbegun.eq_of_older hlatest, ← htagged] at hended
          exact ⟨[], outcome, generation, hgood, rfl, hended⟩
        · simp [hgood, hkey] at hgone
      · simp [hgood] at hgone
    | request =>
      rw [hentry] at hgone
      cases hgone
    | _ => exact absurd (hentry.symm.trans hgone) (Option.some_ne_none entry)
  cases h with
  | once move => exact hmove move hgone
  | logged entries move note =>
    obtain ⟨before, outcome, generation, hgood, hlog, hended⟩ := hmove move hgone
    exact ⟨entries ++ before, outcome, generation, hgood, by rw [hlog, List.append_assoc], hended⟩

/-- Whatever the order of the acts: where the run loop waits and no `request` is about to wake it, a
request that no pass has served is marked and a wake is on its way, or a list retry is armed; and no
pending container that can be retried is due before the deadline it waits for, or a wake is on its
way. A pending entry carries the latest request, and, as long as fewer than `2 ^ 64` requests were
made, only a reconcile begun under the entry's request that ended well takes it away. -/
theorem sleep_forgets_nothing (store : Nat) (acts : List Act) :
    (∀ retry, ((System.new store).run acts).pc = .waiting retry →
      ((System.new store).run acts).requesting = 0 →
      (((System.new store).run acts).state.incomplete = true →
        (((System.new store).run acts).state.dirty = true ∧
          ((System.new store).run acts).permit = true) ∨
          ((System.new store).run acts).listRetry.isSome = true) ∧
      ((System.new store).run acts).Covers retry) ∧
    (∀ id entry, ((System.new store).run acts).state.pending.get id = some entry →
      entry.key = ((System.new store).run acts).state.latest) ∧
    (FewRequests ((System.new store).run acts).log →
      ∀ act id entry, ((System.new store).run acts).state.pending.get id = some entry →
      (((System.new store).run acts).step act).state.pending.get id = none →
      ∃ entries outcome generation, outcome.good = true ∧
        (((System.new store).run acts).step act).log =
          entries ++ .settled id outcome :: ((System.new store).run acts).log ∧
        Ended id entry.key generation outcome ((System.new store).run acts).log) := by
  refine ⟨fun retry hpc hrequesting => ⟨fun hincomplete => ?_, ?_⟩, fun id => ?_,
    fun hfew act id entry hentry hgone => ?_⟩
  · have hawake := run_awake store acts
    have hdirty : ((System.new store).run acts).state.dirty = true →
        ((System.new store).run acts).permit = true := by
      intro hdirty
      refine (hawake.wakes hdirty ?_).resolve_right (by simp [System.loop, hrequesting])
      simp only [System.loop, hpc]
      trivial
    rcases hawake.owed hincomplete with h | h | h | ⟨-, h | h⟩
    · exact .inl ⟨h, hdirty h⟩
    · exact .inr h
    · simp [System.loop, hpc, RunPc.key] at h
    · simp [System.loop, hpc] at h
    · simp [System.loop, hpc] at h
  · exact run_covers store acts retry (by rw [hpc]; rfl)
  · exact (run_stamped store acts id).tagged
  · by_cases henabled : ((System.new store).run acts).enabled act = true
    · rw [System.step, if_pos henabled] at hgone ⊢
      have hdoes := place_step (run_single store acts) henabled id
      exact pending_removed (run_stamped store acts id) hfew hdoes hentry hgone
    · rw [System.step, if_neg henabled, hentry] at hgone
      cases hgone

end Daemon
end Sda
