import DeviceAccess.Daemon.Stamps

/-!
# A dropped start event is covered

A start event is dropped if an enumeration inspected the container at or after the event
(`skipped`), or if the reconcile of the hold started at or after it (`asked`). Both times are read
before the inspect they stand for, so on a clock that does not go back the inspect sees the event's
run: `start_covered`. The reservation takes its time before the hold inspects, so the event can be
dropped with the inspect still to come: `start_dropped_before_inspect`.

Tasks read the clock before they take the lock. So the times in the log need not be in order; what a
clock gives is that a time read before an inspect began is not after it (`Clocked`).
-/

namespace Sda
namespace Daemon

open Processor (ContainerId Timestamp)

/-! ## Clock -/

/-- The time that a task had read. -/
def Entry.reading : Entry → Option Timestamp
  | .claimed _ _ _ now | .resumed _ _ _ now => some now
  | .keyed _ wall => some wall
  | _ => none

/-- A time that was read. -/
def ReadBefore (time : Timestamp) (log : List Entry) : Prop :=
  ∃ entry ∈ log, entry.reading = some time

/-- The clock does not go back: no time that was read before an inspect began is after its
beginning. -/
def Clocked : List Entry → Prop :=
  Orderly fun entry earlier => ∀ id latest wall, entry = .began id latest wall →
    ∀ time, ReadBefore time earlier → time ≤ wall

/-! ## Reconciles by time -/

/-- The last reconcile of the container began at this time or later. -/
def Inspects (id : ContainerId) (time : Timestamp) : List Entry → Prop :=
  Since (Entry.begins id) fun entry _ => ∃ latest wall, entry = .began id latest wall ∧ time ≤ wall

/-- It has ended. -/
def EndsAfter (id : ContainerId) (time : Timestamp) (outcome : Outcome) : List Entry → Prop :=
  Since (Entry.begins id) fun entry earlier => entry = .ended id outcome ∧ Inspects id time earlier

/-- A reconcile of the container that began at this time or later was settled. -/
def SettledAfter (id : ContainerId) (time : Timestamp) (outcome : Outcome) : List Entry → Prop :=
  Since (fun _ => False) fun entry earlier => entry = .settled id outcome ∧
    EndsAfter id time outcome earlier

/-- How far the reconcile of the iteration that counts from this time has come. -/
def HoldPc.Keeps (id : ContainerId) (time : Timestamp) (log : List Entry) : HoldPc → Prop
  | .work _ _ | .terminating _ _ | .cleaned | .keyed _ _ => ReadBefore time log
  | .reconciling _ _ | .loaded _ _ => Inspects id time log
  | .reconciled _ _ outcome => EndsAfter id time outcome log
  | .settled _ outcome => SettledAfter id time outcome log
  | .done => ∃ outcome, SettledAfter id time outcome log

/-- The time read before the reconcile. -/
def HoldPc.started : HoldPc → Option Timestamp
  | .keyed _ started | .reconciling _ started | .loaded _ started | .reconciled _ started _
  | .settled started _ =>
    some started.wall
  | _ => none

/-- A start event of this time was dropped. -/
def Entry.drops (id : ContainerId) (eventTime : Timestamp) : Entry → Prop
  | .skipped other time => other = id ∧ time = eventTime
  | .asked other time applyStart => other = id ∧ time = some eventTime ∧ ¬ Queues time applyStart
  | _ => False

/-- A start event of this time or before counts as covered by the hold. -/
def Place.Counts (place : Place) (hold : Hold) (time : Timestamp) : Prop :=
  (∃ held, place.held = some held ∧ held.applyStart = some time) ∨ hold.pc.started = some time

/-- What stands for the times that start events are compared with. -/
structure Tracked (id : ContainerId) (place : Place) : Prop where
  keeps : ∀ hold time, place.hold = some hold → place.Counts hold time →
    hold.pc.Keeps id time place.log
  processed : ∀ inspected, place.processed = some inspected →
    SettledAfter id inspected.wall .ok place.log
  dropped : ∀ eventTime, (∃ entry ∈ place.log, entry.drops id eventTime) →
    (∃ outcome, SettledAfter id eventTime outcome place.log) ∨
      ∃ held time, place.held = some held ∧ held.applyStart = some time ∧ eventTime ≤ time

section Moves

variable {id : ContainerId} {place place' : Place} {time time' : Timestamp} {outcome : Outcome}
  {entry : Entry} {log : List Entry} {pc : HoldPc}

theorem ReadBefore.append (h : ReadBefore time log) (entries : List Entry) :
    ReadBefore time (entries ++ log) := by
  obtain ⟨entry, hmem, hread⟩ := h
  exact ⟨entry, List.mem_append_right entries hmem, hread⟩

theorem SettledAfter.append (h : SettledAfter id time outcome log) (entries : List Entry) :
    SettledAfter id time outcome (entries ++ log) := Since.append h fun _ _ h => h

theorem Inspects.mono (h : Inspects id time log) (hle : time' ≤ time) : Inspects id time' log :=
  Since.mono h (fun _ h => h) fun _ _ ⟨latest, wall, heq, hwall⟩ =>
    ⟨latest, wall, heq, hle.trans hwall⟩

theorem SettledAfter.mono (h : SettledAfter id time outcome log) (hle : time' ≤ time) :
    SettledAfter id time' outcome log := by
  refine Since.mono h (fun _ h => h) fun _ _ ⟨heq, hended⟩ => ⟨heq, ?_⟩
  exact Since.mono hended (fun _ h => h) fun _ _ ⟨heq, hinspects⟩ => ⟨heq, hinspects.mono hle⟩

/-- Entries that begin no reconcile of the container leave it where it is. -/
theorem HoldPc.Keeps.append (h : pc.Keeps id time log) {entries : List Entry}
    (hentries : ∀ entry ∈ entries, ¬ entry.begins id) : pc.Keeps id time (entries ++ log) := by
  cases pc with
  | work | terminating | cleaned | keyed => exact ReadBefore.append h entries
  | reconciling | loaded => exact Since.append h hentries
  | reconciled => exact Since.append h hentries
  | settled => exact SettledAfter.append h entries
  | done =>
    obtain ⟨outcome, h⟩ := h
    exact ⟨outcome, h.append entries⟩

theorem HoldPc.Keeps.cons (h : pc.Keeps id time log) (hentry : ¬ entry.begins id) :
    pc.Keeps id time (entry :: log) :=
  @HoldPc.Keeps.append id time log pc h [entry] (List.forall_mem_singleton.mpr hentry)

theorem ReadBefore.cons (h : ReadBefore time log) : ReadBefore time (entry :: log) :=
  h.append [entry]

theorem ask_applyStart {held : Reservation} {eventTime : Option Timestamp} {terminal : Bool} :
    (held.ask eventTime terminal).applyStart = held.applyStart := by
  unfold Reservation.ask
  split
  · split
    · split <;> rfl
    · rfl
  · split
    · split <;> rfl
    · rfl

private theorem not_begins_of_foreign {entries : List Entry}
    (h : ∀ entry ∈ entries, entry.Foreign id) :
    ∀ entry ∈ entries, ¬ entry.begins id := by
  intro entry hentry hbegins
  cases entry with
  | began other latest wall => exact (h _ hentry).1 (congrArg some hbegins)
  | _ => exact hbegins

/-- A time that an iteration begins with has been read. -/
theorem begin_keeps (terminateAt : Option Timestamp) (h : ReadBefore time log) :
    (HoldPc.begin true terminateAt).Keeps id time log := by
  cases terminateAt with
  | none => exact h
  | some eventTime => exact h

private theorem begin_started (reconcile : Bool) (terminateAt : Option Timestamp) :
    (HoldPc.begin reconcile terminateAt).started = none := by
  cases terminateAt with
  | some eventTime => rfl
  | none => cases reconcile <;> rfl

theorem keeps_moves (hkept : Kept id place) (h : Tracked id place) (hclock : Clocked place'.log)
    (hmove : Moves id place place') (hold : Hold) (time : Timestamp) :
    place'.hold = some hold → place'.Counts hold time → hold.pc.Keeps id time place'.log := by
  intro hhold hcounts
  cases hmove with
  | quiet entries store foreign le =>
    exact (h.keeps hold time hhold hcounts).append (not_begins_of_foreign foreign)
  | request | visit | skip => exact (h.keeps hold time hhold hcounts).cons fun h => h
  | forget => exact h.keeps hold time hhold hcounts
  | claim eventTime terminal now free =>
    cases hhold
    rcases hcounts with ⟨held, ⟨⟩, hstart⟩ | hstarted
    · cases terminal with
      | true => cases hstart
      | false =>
        have hread : ReadBefore now (.claimed id true none now :: place.log) :=
          ⟨_, List.mem_cons_self, rfl⟩
        cases hstart
        exact begin_keeps none hread
    · exact absurd ((begin_started _ _).symm.trans hstarted) nofun
  | ask eventTime isHeld =>
    refine (h.keeps hold time hhold ?_).cons fun h => h
    refine hcounts.imp_left ?_
    rintro ⟨_, ⟨⟩, hstart⟩
    exact ⟨_, isHeld, ask_applyStart.symm.trans hstart⟩
  | askEnd eventTime isHeld =>
    refine (h.keeps hold time hhold ?_).cons fun h => h
    refine hcounts.imp_left ?_
    rintro ⟨_, ⟨⟩, hstart⟩
    exact ⟨_, isHeld, ask_applyStart.symm.trans hstart⟩
  | beginTerminate holds pc =>
    cases hhold
    have hkeeps := h.keeps _ time holds (hcounts.imp_right nofun)
    rw [pc] at hkeeps
    exact ReadBefore.cons hkeeps
  | @endTerminate hold' reconcile eventTime holds pc =>
    cases hhold
    obtain ⟨held, hheld, hstart⟩ : ∃ held, place.held = some held ∧
        held.applyStart = some time := by
      refine hcounts.resolve_right fun hstarted => ?_
      cases reconcile <;> cases hstarted
    have hkeeps := h.keeps _ time holds (.inl ⟨held, hheld, hstart⟩)
    rw [pc] at hkeeps
    obtain ⟨hruns, hreconciles⟩ := hkept.tells held hold' hheld holds
    rw [hstart, hreconciles reconcile (by rw [pc]; rfl)] at hruns
    cases reconcile with
    | true => exact ReadBefore.cons hkeeps
    | false => cases hruns
  | readKey started holds pc =>
    cases hhold
    rcases hcounts with hstart | hstarted
    · have hkeeps := h.keeps _ time holds (.inl hstart)
      rw [pc] at hkeeps
      exact ReadBefore.cons hkeeps
    · exact ⟨_, List.mem_cons_self, hstarted⟩
  | begin wall holds pc =>
    cases hhold
    have hkeeps := h.keeps _ time holds (hcounts.imp_right fun h => by rw [pc]; exact h)
    rw [pc] at hkeeps
    exact .inl ⟨place.latest, wall, rfl, hclock.1 _ _ _ rfl time hkeeps⟩
  | load holds pc =>
    cases hhold
    have hkeeps := h.keeps _ time holds (hcounts.imp_right fun h => by rw [pc]; exact h)
    rw [pc] at hkeeps
    exact .inr ⟨fun h => h, hkeeps⟩
  | finish outcome holds pc =>
    cases hhold
    rcases pc with pc | ⟨pc, -⟩
    all_goals
      have hkeeps := h.keeps _ time holds (hcounts.imp_right fun h => by rw [pc]; exact h)
      rw [pc] at hkeeps
      exact .inl ⟨rfl, hkeeps⟩
  | settle now holds pc =>
    cases hhold
    have hkeeps := h.keeps _ time holds (hcounts.imp_right fun h => by rw [pc]; exact h)
    rw [pc] at hkeeps
    exact .inl ⟨rfl, hkeeps⟩
  | mark holds pc =>
    cases hhold
    have hkeeps := h.keeps _ time holds (hcounts.imp_right nofun)
    rw [pc] at hkeeps
    exact ⟨_, hkeeps⟩
  | @resume hold' held now holds pc isHeld queued =>
    cases hhold
    rcases hcounts with ⟨_, ⟨⟩, hstart⟩ | hstarted
    · rw [Reservation.resume] at hstart
      cases hreconcile : held.reconcile with
      | true =>
        simp only [hreconcile, if_true, Option.some.injEq] at hstart
        subst hstart
        exact begin_keeps _ ⟨_, List.mem_cons_self, rfl⟩
      | false => simp [hreconcile] at hstart
    · exact absurd ((begin_started _ _).symm.trans hstarted) nofun
  | release => cases hhold

theorem processed_moves (h : Tracked id place) (hmove : Moves id place place')
    (inspected : Inspected) :
    place'.processed = some inspected → SettledAfter id inspected.wall .ok place'.log := by
  intro hprocessed
  cases hmove with
  | quiet entries => exact (h.processed inspected hprocessed).append entries
  | skip | forget => cases hprocessed
  | @mark hold started outcome holds pc =>
    by_cases hmarks : (outcome = .ok && hold.enumerated) = true
    · simp only [hmarks, if_true, Option.some.injEq] at hprocessed
      subst hprocessed
      have hkeeps := h.keeps hold started.wall holds (.inr (by rw [pc]; rfl))
      rw [pc, of_decide_eq_true (Bool.and_eq_true_iff.mp hmarks).1] at hkeeps
      exact hkeeps
    · simp only [hmarks] at hprocessed
      exact h.processed inspected hprocessed
  | _ => exact (h.processed inspected hprocessed).append [_]

/-- An iteration that is over has settled its reconcile. -/
theorem settled_of_done (h : Tracked id place) {hold : Hold} (holds : place.hold = some hold)
    (pc : hold.pc = .done) {eventTime : Timestamp}
    (hcovered : (∃ outcome, SettledAfter id eventTime outcome place.log) ∨
      ∃ held time, place.held = some held ∧ held.applyStart = some time ∧ eventTime ≤ time) :
    ∃ outcome, SettledAfter id eventTime outcome place.log := by
  rcases hcovered with hcovered | ⟨held, time, hheld, hstart, hle⟩
  · exact hcovered
  · have hkeeps := h.keeps hold time holds (.inl ⟨held, hheld, hstart⟩)
    rw [pc] at hkeeps
    obtain ⟨outcome, hsettled⟩ := hkeeps
    exact ⟨outcome, hsettled.mono hle⟩

theorem dropped_moves (h : Tracked id place) (hmove : Moves id place place')
    (eventTime : Timestamp) : (∃ entry ∈ place'.log, entry.drops id eventTime) →
      (∃ outcome, SettledAfter id eventTime outcome place'.log) ∨
        ∃ held time, place'.held = some held ∧ held.applyStart = some time ∧ eventTime ≤ time := by
  rintro ⟨entry, hmem, hdrops⟩
  -- An event that was dropped before stays covered while the reservation keeps its time.
  have hbefore : ∀ entries : List Entry, (∃ entry ∈ place.log, entry.drops id eventTime) →
      (∃ outcome, SettledAfter id eventTime outcome (entries ++ place.log)) ∨
        ∃ held time, place.held = some held ∧ held.applyStart = some time ∧ eventTime ≤ time :=
    fun entries hdropped => (h.dropped eventTime hdropped).imp_left fun ⟨outcome, hsettled⟩ =>
      ⟨outcome, hsettled.append entries⟩
  have hearlier : ∀ {other : Entry}, entry ∈ other :: place.log → ¬ other.drops id eventTime →
      ∃ entry ∈ place.log, entry.drops id eventTime := by
    intro other hmem hother
    rcases List.mem_cons.mp hmem with rfl | hmem
    · exact absurd hdrops hother
    · exact ⟨entry, hmem, hdrops⟩
  cases hmove with
  | quiet entries store foreign le =>
    rcases List.mem_append.mp hmem with hmem | hmem
    · refine absurd ?_ (foreign entry hmem).1
      cases entry with
      | skipped other time => exact congrArg some hdrops.1
      | asked other time applyStart => exact congrArg some hdrops.1
      | _ => exact hdrops.elim
    · exact hbefore entries ⟨entry, hmem, hdrops⟩
  | forget | mark => exact h.dropped eventTime ⟨entry, hmem, hdrops⟩
  | skip time covered =>
    rcases List.mem_cons.mp hmem with rfl | hmem
    · obtain ⟨-, rfl⟩ := hdrops
      exact .inl ⟨.ok, ((h.processed _ covered.1).mono covered.2).append [_]⟩
    · exact hbefore [_] ⟨entry, hmem, hdrops⟩
  | @ask held time isHeld =>
    rcases List.mem_cons.mp hmem with rfl | hmem
    · obtain ⟨-, rfl, hkeeps⟩ := hdrops
      cases hstart : held.applyStart with
      | none =>
        rw [hstart] at hkeeps
        exact absurd trivial hkeeps
      | some applyStart =>
        rw [hstart] at hkeeps
        exact .inr ⟨_, applyStart, rfl, ask_applyStart.trans hstart, not_lt.mp hkeeps⟩
    · refine (hbefore [_] ⟨entry, hmem, hdrops⟩).imp_right ?_
      rintro ⟨_, applyStart, hheld, hstart, hle⟩
      cases isHeld.symm.trans hheld
      exact ⟨_, applyStart, rfl, ask_applyStart.trans hstart, hle⟩
  | askEnd time isHeld =>
    refine (hbefore [_] (hearlier hmem fun h => h)).imp_right ?_
    rintro ⟨_, applyStart, hheld, hstart, hle⟩
    cases isHeld.symm.trans hheld
    exact ⟨_, applyStart, rfl, ask_applyStart.trans hstart, hle⟩
  | claim time terminal now free =>
    refine (hbefore [_] (hearlier hmem fun h => h)).imp_right ?_
    rintro ⟨_, applyStart, hheld, -⟩
    exact absurd (free.symm.trans hheld) nofun
  | resume now holds pc isHeld queued =>
    obtain ⟨outcome, hsettled⟩ :=
      settled_of_done h holds pc (h.dropped eventTime (hearlier hmem fun h => h))
    exact .inl ⟨outcome, hsettled.append [_]⟩
  | release holds pc isHeld queued =>
    obtain ⟨outcome, hsettled⟩ :=
      settled_of_done h holds pc (h.dropped eventTime (hearlier hmem fun h => h))
    exact .inl ⟨outcome, hsettled.append [_]⟩
  | _ => exact hbefore [_] (hearlier hmem fun h => h)

theorem clocked_moves (hmove : Moves id place place') (hclock : Clocked place'.log) :
    Clocked place.log := by
  cases hmove with
  | quiet entries => exact Orderly.of_append hclock
  | forget | mark => exact hclock
  | _ => exact hclock.2

theorem tracked_moves (hkept : Kept id place) (h : Tracked id place) (hclock : Clocked place'.log)
    (hmove : Moves id place place') : Tracked id place' :=
  ⟨keeps_moves hkept h hclock hmove, processed_moves h hmove, dropped_moves h hmove⟩

end Moves

/-! ## Failed reconciles -/

/-- The last settled reconcile of the container failed. -/
def Failed (id : ContainerId) : List Entry → Prop :=
  Since (fun entry => ∃ outcome : Outcome, outcome.good = true ∧ entry = .settled id outcome)
    fun entry _ => entry = .settled id .failed

/-- A container whose last reconcile failed is pending. -/
theorem failed_moves {id : ContainerId} {place place' : Place} (hmove : Moves id place place')
    (h : Failed id place.log → place.pending.isSome = true) :
    Failed id place'.log → place'.pending.isSome = true := by
  intro hfailed
  have htail : ∀ {entry : Entry}, Failed id (entry :: place.log) → entry ≠ .settled id .failed →
      place.pending.isSome = true := fun hfailed hne => h (Since.tail hfailed hne)
  cases hmove with
  | quiet entries store foreign le =>
    refine h
      ((since_foreign (fun entry _ hentry => ?_) (fun entry hentry => ?_) foreign).mp hfailed)
    · rw [hentry]
      rfl
    · obtain ⟨outcome, -, rfl⟩ := hentry
      rfl
  | request =>
    rw [Option.isSome_map]
    exact htail hfailed nofun
  | forget | mark => exact h hfailed
  | @settle hold key started outcome now holds pc =>
    by_cases hgood : outcome.good = true
    · refine absurd hfailed (not_since_cons ⟨outcome, hgood, rfl⟩ ?_)
      rintro ⟨⟩
      cases hgood
    · rw [Bool.not_eq_true] at hgood
      rw [hgood]
      cases place.pending with
      | none => rfl
      | some before => rfl
  | _ => exact htail hfailed nofun

/-! ## The theorem -/

/-- The hold is in its reconcile. -/
def HoldPc.inReconcile : HoldPc → Prop
  | .reconciling _ _ | .loaded _ _ | .reconciled _ _ _ => True
  | _ => False

/-- A reconcile of the container that began at the event or later was settled, or runs, or is what
the hold does next: it begins after a time that is not before the event. -/
inductive Covered (id : ContainerId) (eventTime : Timestamp) (place : Place) : Prop
  | settled {outcome : Outcome} (h : SettledAfter id eventTime outcome place.log)
  | running {hold : Hold} (holds : place.hold = some hold) (inside : hold.pc.inReconcile)
    (h : Inspects id eventTime place.log)
  | waiting {hold : Hold} {time : Timestamp} (holds : place.hold = some hold)
    (h : hold.pc.willReconcile) (read : ReadBefore time place.log) (le : eventTime ≤ time)

theorem EndsAfter.inspects {id : ContainerId} {time : Timestamp} {outcome : Outcome}
    {log : List Entry} (h : EndsAfter id time outcome log) : Inspects id time log := by
  obtain ⟨later, _, earlier, rfl, ⟨rfl, hinspects⟩, hlater⟩ := since_iff.mp h
  have hended : Inspects id time (.ended id outcome :: earlier) := .inr ⟨fun h => h, hinspects⟩
  exact Since.append hended hlater

theorem covered_of_tracked {id : ContainerId} {place : Place} (hkept : Kept id place)
    (h : Tracked id place) {eventTime : Timestamp}
    (hdropped : ∃ entry ∈ place.log, entry.drops id eventTime) :
    Covered id eventTime place := by
  rcases h.dropped eventTime hdropped with ⟨outcome, hsettled⟩ | ⟨held, time, hheld, hstart, hle⟩
  · exact .settled hsettled
  obtain ⟨hold, hhold⟩ := hkept.has_hold hheld
  have hkeeps := h.keeps hold time hhold (.inl ⟨held, hheld, hstart⟩)
  obtain ⟨hruns, hreconciles⟩ := hkept.tells held hold hheld hhold
  rw [hstart] at hruns
  cases hpc : hold.pc with
  | work reconcile eventTime =>
    rw [hpc] at hkeeps
    have htrue := hruns.trans (hreconciles reconcile (by rw [hpc]; rfl))
    exact .waiting hhold (by rw [hpc]; exact htrue.symm) hkeeps hle
  | terminating reconcile eventTime =>
    rw [hpc] at hkeeps
    have htrue := hruns.trans (hreconciles reconcile (by rw [hpc]; rfl))
    exact .waiting hhold (by rw [hpc]; exact htrue.symm) hkeeps hle
  | cleaned | keyed =>
    rw [hpc] at hkeeps
    exact .waiting hhold (by rw [hpc]; trivial) hkeeps hle
  | reconciling | loaded =>
    rw [hpc] at hkeeps
    exact .running hhold (by rw [hpc]; trivial) (Inspects.mono hkeeps hle)
  | reconciled =>
    rw [hpc] at hkeeps
    exact .running hhold (by rw [hpc]; trivial) ((EndsAfter.inspects hkeeps).mono hle)
  | settled =>
    rw [hpc] at hkeeps
    exact .settled (SettledAfter.mono hkeeps hle)
  | done =>
    rw [hpc] at hkeeps
    obtain ⟨outcome, hsettled⟩ := hkeeps
    exact .settled (hsettled.mono hle)

theorem tracked_new (store : Nat) (id : ContainerId) :
    Tracked id ((System.new store).place id) := by
  rw [place_new]
  refine ⟨?_, ?_, ?_⟩
  · intro hold time h
    cases h
  · intro inspected h
    cases h
  · rintro eventTime ⟨entry, hmem, -⟩
    cases hmem

/-- Whatever the order of the acts, on a clock that does not go back: a start event of the container
that was dropped is covered by a reconcile whose inspect began at the event or later, or by one that
a hold is about to begin then; and a container whose last settled reconcile failed is pending. -/
theorem start_covered (store : Nat) (acts : List Act) (id : ContainerId)
    (hclock : Clocked ((System.new store).run acts).log) :
    (∀ eventTime, (∃ entry ∈ ((System.new store).run acts).log, entry.drops id eventTime) →
      Covered id eventTime (((System.new store).run acts).place id)) ∧
    (Failed id ((System.new store).run acts).log →
      (((System.new store).run acts).state.pending.get id).isSome = true) := by
  have hinv : ∀ {place : Place}, Reaches id ((System.new store).place id) place →
      Kept id place ∧ (Failed id place.log → place.pending.isSome = true) ∧
        (Clocked place.log → Tracked id place) := by
    intro place hreaches
    induction hreaches with
    | refl => exact ⟨kept_new store id, fun h => h.elim, fun _ => tracked_new store id⟩
    | tail _ hmove ih =>
      obtain ⟨hkept, hfailed, htracked⟩ := ih
      refine ⟨hkept.moves hmove, failed_moves hmove hfailed, fun hclock => ?_⟩
      exact tracked_moves hkept (htracked (clocked_moves hmove hclock)) hclock hmove
  obtain ⟨hkept, hfailed, htracked⟩ := hinv (run_reaches store acts id)
  exact ⟨fun eventTime hdropped => covered_of_tracked hkept (htracked hclock) hdropped, hfailed⟩

/-- A pass inspects a container whose start event comes later. -/
def lateStartActs : List Act :=
  [.request 1, .notify, .check, .takeRequest, .listed ["app"], .visit, .reserveVisit 5,
    .hold 0 (.readKey ⟨6, 6⟩),
    .hold 0 (.begin 7), .hold 0 .load, .hold 0 (.finish .ok), .hold 0 (.settle 8), .hold 0 .mark,
      .skip "app" 3 9]

theorem lateStart_log : ((System.new 1).run lateStartActs).log =
    [.skipped "app" 3, .settled "app" .ok, .ended "app" .ok, .loaded "app" 1, .began "app" ⟨1, 1⟩ 7,
      .keyed "app" 6, .visited ⟨1, 1⟩ "app", .claimed "app" true none 5, .taken ⟨1, 1⟩,
      .requested ⟨1, 1⟩] := by
  decide +kernel

private theorem lateStart_clocked : Clocked ((System.new 1).run lateStartActs).log := by
  have hread : ∀ time : Timestamp, 6 = time ∨ 5 = time → time ≤ 7 := by
    rintro time (rfl | rfl) <;> decide
  rw [lateStart_log]
  simpa [Clocked, Orderly, ReadBefore, Entry.reading] using hread

theorem start_covered_late : Covered "app" 3 (((System.new 1).run lateStartActs).place "app") := by
  have hcovered := start_covered 1 lateStartActs "app" lateStart_clocked
  refine hcovered.1 3 ?_
  rw [lateStart_log]
  exact ⟨.skipped "app" 3, List.mem_cons_self, rfl, rfl⟩

/-- A pass reserves a container, and its start event comes before the hold inspects it. -/
def reservedStartActs : List Act :=
  [.request 1, .notify, .check, .takeRequest, .listed ["app"], .visit, .reserveVisit 5,
    .start "app" 3 6]

/-- The event is dropped, and no inspect of the container has begun. -/
theorem start_dropped_before_inspect :
    Clocked ((System.new 1).run reservedStartActs).log ∧
      (∃ entry ∈ ((System.new 1).run reservedStartActs).log, entry.drops "app" 3) ∧
      ∀ latest wall, .began "app" latest wall ∉ ((System.new 1).run reservedStartActs).log := by
  have hlog : ((System.new 1).run reservedStartActs).log =
      [.asked "app" (some 3) (some 5), .visited ⟨1, 1⟩ "app", .claimed "app" true none 5,
        .taken ⟨1, 1⟩, .requested ⟨1, 1⟩] := by
    decide +kernel
  rw [hlog]
  refine ⟨by simp [Clocked, Orderly], ⟨_, List.mem_cons_self, rfl, rfl, ?_⟩, by simp⟩
  exact (by decide : ¬ (5 : Timestamp) < 3)

end Daemon
end Sda
