import DeviceAccess.Daemon.Places

/-!
# One container, one holder

A container is handled by one hold at a time, and a hold makes one call at a time. Work that is
requested meanwhile is queued on the reservation, and the reservation is not released before the
hold has taken it over: `one_holder`. It is stated of the log: which entry can follow which
(`Proper`).
-/

namespace Sda
namespace Daemon

open Processor (ContainerId Timestamp)

/-! ## What must not be left open -/

/-- A reconcile asked for with this event time is queued: a pass or a retry has none, a start event
counts if it is newer than the reconcile that runs, or if none does. -/
def Queues (eventTime applyStart : Option Timestamp) : Prop :=
  match eventTime, applyStart with
  | some eventTime, some applyStart => applyStart < eventTime
  | _, _ => True

namespace Entry

variable (id : ContainerId) (eventTime : Timestamp)

/-- A call for the container began. -/
def opens : Entry → Prop
  | .terminateBegan other _ | .began other _ _ => other = id
  | _ => False

/-- A call for the container ended. -/
def closes : Entry → Prop
  | .terminateEnded other _ | .ended other _ => other = id
  | _ => False

/-- A reconcile of the container was requested. -/
def asks : Entry → Prop
  | .asked other eventTime applyStart => other = id ∧ Queues eventTime applyStart
  | .claimed other reconcile _ _ => other = id ∧ reconcile = true
  | _ => False

/-- A reconcile of the container began. -/
def begins : Entry → Prop
  | .began other _ _ => other = id
  | _ => False

/-- The end of a run of the container at this time was reported. -/
def asksEnd : Entry → Prop
  | .askedEnd other time => other = id ∧ time = eventTime
  | .claimed other _ time _ => other = id ∧ time = some eventTime
  | _ => False

/-- A terminate call for the container with a time at least as late began. -/
def beginsEnd : Entry → Prop
  | .terminateBegan other time => other = id ∧ eventTime ≤ time
  | _ => False

/-- An iteration of the hold began, with this time to clean up for. -/
def iterates : Entry → Prop
  | .claimed other _ time _ | .resumed other _ time _ => other = id ∧ time = some eventTime
  | _ => False

def endsEnd : Entry → Prop
  | .terminateEnded other time => other = id ∧ time = eventTime
  | _ => False

end Entry

/-- A call for the container is going on. -/
def CallOpen (id : ContainerId) : List Entry → Prop :=
  Since (Entry.closes id) fun entry _ => entry.opens id

/-- A reconcile was requested, and none has begun since. -/
def Unserved (id : ContainerId) : List Entry → Prop :=
  Since (Entry.begins id) fun entry _ => entry.asks id

/-- The end of a run was reported, and no terminate call that covers it has begun since. -/
def UnservedEnd (id : ContainerId) (eventTime : Timestamp) : List Entry → Prop :=
  Since (Entry.beginsEnd id eventTime) fun entry _ => entry.asksEnd id eventTime

/-- The terminate call of the iteration has not ended. -/
def Uncleaned (id : ContainerId) (eventTime : Timestamp) : List Entry → Prop :=
  Since (Entry.endsEnd id eventTime) fun entry _ => entry.iterates id eventTime

/-- What can follow a log. -/
def Proper (id : ContainerId) : Entry → List Entry → Prop
  | .began other _ _, log =>
    other = id → ¬ CallOpen id log ∧ ∀ eventTime, ¬ Uncleaned id eventTime log
  | .terminateBegan other _, log => other = id → ¬ CallOpen id log
  | .released other held, log =>
    other = id →
      held.queued = false ∧ ¬ Unserved id log ∧ ∀ eventTime, ¬ UnservedEnd id eventTime log
  | _, _ => True

/-! ## The invariant -/

/-- The hold is in a call. -/
def HoldPc.inCall : HoldPc → Prop
  | .terminating _ _ | .reconciling _ _ | .loaded _ _ => True
  | _ => False

/-- The iteration still comes to its reconcile. -/
def HoldPc.willReconcile : HoldPc → Prop
  | .work reconcile _ | .terminating reconcile _ => reconcile = true
  | .cleaned | .keyed _ _ => True
  | _ => False

/-- Whether the iteration has a reconcile, until it is over. -/
def HoldPc.reconciles : HoldPc → Option Bool
  | .work reconcile _ | .terminating reconcile _ => some reconcile
  | .cleaned | .keyed _ _ | .reconciling _ _ | .loaded _ _ | .reconciled _ _ _ | .settled _ _ =>
    some true
  | .done => none

/-- The reservation knows whether the iteration has a reconcile, and only then counts start events
as covered. -/
def Reservation.Tells (held : Reservation) (hold : Hold) : Prop :=
  held.applyStart.isSome = held.running ∧ ∀ reconcile, hold.pc.reconciles = some reconcile →
    held.running = reconcile

/-- What the log leaves open is in the hands of the container's hold. -/
structure Kept (id : ContainerId) (place : Place) : Prop where
  matched : place.held.isSome = place.hold.isSome
  tells : ∀ held hold, place.held = some held → place.hold = some hold → held.Tells hold
  calls : CallOpen id place.log → ∃ hold, place.hold = some hold ∧ hold.pc.inCall
  asks : Unserved id place.log → ∃ hold held, place.hold = some hold ∧ place.held = some held ∧
    (held.reconcile = true ∨ hold.pc.willReconcile)
  ends : ∀ eventTime, UnservedEnd id eventTime place.log → ∃ hold held, place.hold = some hold ∧
    place.held = some held ∧ ((∃ time, held.terminateAt = some time ∧ eventTime ≤ time) ∨
      ∃ reconcile time, hold.pc = .work reconcile time ∧ eventTime ≤ time)
  cleans : ∀ eventTime, Uncleaned id eventTime place.log →
    ∃ hold reconcile, place.hold = some hold ∧
    (hold.pc = .work reconcile eventTime ∨ hold.pc = .terminating reconcile eventTime)
  orderly : Orderly (Proper id) place.log

section Moves

variable {id : ContainerId} {place place' : Place} {entry : Entry} {eventTime : Timestamp}

private theorem callOpen_append {entries log : List Entry}
    (h : ∀ entry ∈ entries, entry.Foreign id) :
    CallOpen id (entries ++ log) ↔ CallOpen id log := by
  refine since_foreign (fun entry _ => ?_) (fun entry => ?_) h
  · cases entry <;> simp [Entry.opens, Entry.subject]
  · cases entry <;> simp [Entry.closes, Entry.subject]

private theorem unserved_append {entries log : List Entry}
    (h : ∀ entry ∈ entries, entry.Foreign id) :
    Unserved id (entries ++ log) ↔ Unserved id log := by
  refine since_foreign (fun entry _ => ?_) (fun entry => ?_) h
  · cases entry <;> simp [Entry.asks, Entry.subject] <;> tauto
  · cases entry <;> simp [Entry.begins, Entry.subject]

private theorem unservedEnd_append {entries log : List Entry}
    (h : ∀ entry ∈ entries, entry.Foreign id) :
    UnservedEnd id eventTime (entries ++ log) ↔ UnservedEnd id eventTime log := by
  refine since_foreign (fun entry _ => ?_) (fun entry => ?_) h
  · cases entry <;> simp [Entry.asksEnd, Entry.subject] <;> tauto
  · cases entry <;> simp [Entry.beginsEnd, Entry.subject]
    tauto

private theorem uncleaned_append {entries log : List Entry}
    (h : ∀ entry ∈ entries, entry.Foreign id) :
    Uncleaned id eventTime (entries ++ log) ↔ Uncleaned id eventTime log := by
  refine since_foreign (fun entry _ => ?_) (fun entry => ?_) h
  · cases entry <;> simp [Entry.iterates, Entry.subject] <;> tauto
  · cases entry <;> simp [Entry.endsEnd, Entry.subject]
    tauto

private theorem begin_willReconcile (terminateAt : Option Timestamp) :
    (HoldPc.begin true terminateAt).willReconcile := by
  cases terminateAt with
  | none => trivial
  | some eventTime => exact rfl

theorem ask_queues {held : Reservation} {eventTime : Option Timestamp}
    (h : Queues eventTime held.applyStart) :
    (held.ask eventTime false).reconcile = true := by
  cases eventTime with
  | none => rfl
  | some eventTime =>
    cases hstart : held.applyStart with
    | none => simp [Reservation.ask, hstart]
    | some applyStart =>
      rw [hstart] at h
      have hlt : applyStart < eventTime := h
      simp [Reservation.ask, hstart, hlt]

/-- Asking takes no queued reconcile away. -/
theorem ask_reconcile {held : Reservation} {eventTime : Option Timestamp} {terminal : Bool}
    (h : held.reconcile = true) : (held.ask eventTime terminal).reconcile = true := by
  unfold Reservation.ask
  split
  · split
    · split
      · exact h
      · exact h
    · exact h
  · split
    · split
      · rfl
      · exact h
    · rfl

theorem ask_tells {held : Reservation} {eventTime : Option Timestamp} {terminal : Bool}
    {hold : Hold} (h : held.Tells hold) : (held.ask eventTime terminal).Tells hold := by
  unfold Reservation.ask
  split
  · split
    · split
      · exact h
      · exact h
    · exact h
  · split
    · split
      · exact h
      · exact h
    · exact h

theorem begin_reconciles {reconcile expected : Bool} {terminateAt : Option Timestamp}
    (h : (HoldPc.begin reconcile terminateAt).reconciles = some expected) :
    reconcile = expected := by
  cases terminateAt with
  | some eventTime => exact Option.some.inj h
  | none =>
    cases reconcile with
    | true => exact Option.some.inj h
    | false => cases h

private theorem claim_tells (terminal : Bool) (now : Timestamp) (eventTime : Option Timestamp) :
    (Reservation.claim terminal now).Tells (.start id eventTime terminal) :=
  ⟨by cases terminal <;> rfl, fun _ h => begin_reconciles h⟩

private theorem resume_tells (held : Reservation) (now : Timestamp) (hold : Hold) :
    (held.resume now).Tells { hold with pc := .begin held.reconcile held.terminateAt } :=
  ⟨by unfold Reservation.resume; split <;> simp_all, fun _ h => begin_reconciles h⟩

/-- A hold that stays in its iteration, or ends it. -/
theorem Reservation.Tells.of_pc {held : Reservation} {hold : Hold} (h : held.Tells hold)
    {hold' : Hold} (hpc : hold'.pc.reconciles = hold.pc.reconciles ∨ hold'.pc.reconciles = none) :
    held.Tells hold' := by
  refine ⟨h.1, fun reconcile hreconciles => ?_⟩
  rcases hpc with hpc | hpc
  · exact h.2 reconcile (hpc ▸ hreconciles)
  · rw [hpc] at hreconciles
    cases hreconciles

theorem tells_moves (h : Kept id place) (hmove : Moves id place place') (held : Reservation)
    (hold : Hold) :
    place'.held = some held → place'.hold = some hold → held.Tells hold := by
  intro hheld hhold
  -- The hold moved on inside its iteration.
  have hmoved : ∀ {hold' : Hold}, place.held = some held → place.hold = some hold' →
      (hold.pc.reconciles = hold'.pc.reconciles ∨ hold.pc.reconciles = none) → held.Tells hold :=
    fun hheld hhold' hpc => (h.tells held _ hheld hhold').of_pc hpc
  cases hmove with
  | quiet | request | visit | skip | forget => exact h.tells held hold hheld hhold
  | claim eventTime terminal now free =>
    cases hheld
    cases hhold
    exact claim_tells terminal now eventTime
  | ask eventTime isHeld =>
    cases hheld
    exact ask_tells (h.tells _ hold isHeld hhold)
  | askEnd eventTime isHeld =>
    cases hheld
    exact ask_tells (h.tells _ hold isHeld hhold)
  | @endTerminate hold' reconcile time holds pc =>
    cases hhold
    refine hmoved hheld holds ?_
    rw [pc]
    cases reconcile with
    | true => exact .inl rfl
    | false => exact .inr rfl
  | beginTerminate holds pc | readKey _ holds pc | begin _ holds pc | load holds pc
  | settle _ holds pc
  | mark holds pc =>
    cases hhold
    refine hmoved hheld holds ?_
    rw [pc]
    first | exact .inl rfl | exact .inr rfl
  | finish outcome holds pc =>
    cases hhold
    refine hmoved hheld holds (.inl ?_)
    rcases pc with pc | ⟨pc, -⟩
    · rw [pc]; rfl
    · rw [pc]; rfl
  | @resume hold' held' now holds pc isHeld queued =>
    cases hheld
    cases hhold
    exact resume_tells held' now hold'
  | release => cases hheld

theorem ask_terminateAt {held : Reservation} {eventTime : Option Timestamp} :
    (held.ask eventTime false).terminateAt = held.terminateAt := by
  unfold Reservation.ask
  rw [if_neg nofun]
  split
  · split
    · rfl
    · rfl
  · rfl

/-- The latest end is kept. -/
theorem ask_end (held : Reservation) (eventTime : Timestamp) :
    ∃ last, (held.ask (some eventTime) true).terminateAt = some last ∧ eventTime ≤ last ∧
      ∀ queued, held.terminateAt = some queued → queued ≤ last := by
  cases hqueued : held.terminateAt with
  | none => exact ⟨eventTime, by simp [Reservation.ask, hqueued], le_rfl, nofun⟩
  | some queued =>
    by_cases hlt : queued < eventTime
    · refine ⟨eventTime, by simp [Reservation.ask, hqueued, hlt], le_rfl, ?_⟩
      rintro _ ⟨⟩
      exact hlt.le
    · refine ⟨queued, by simp [Reservation.ask, hqueued, hlt], not_lt.mp hlt, ?_⟩
      rintro _ ⟨⟩
      exact le_rfl

theorem Kept.not_hold (h : Kept id place) {hold : Hold} (free : place.held = none) :
    place.hold ≠ some hold := by
  intro hhold
  have hmatched := h.matched
  rw [free, hhold] at hmatched
  cases hmatched

theorem Kept.has_hold (h : Kept id place) {held : Reservation} (isHeld : place.held = some held) :
    ∃ hold, place.hold = some hold := by
  have hmatched := h.matched
  rw [isHeld] at hmatched
  exact Option.isSome_iff_exists.mp hmatched.symm

/-- A hold that is not in a call has none open. -/
theorem Kept.not_callOpen (h : Kept id place) {hold : Hold} (holds : place.hold = some hold)
    (hpc : ¬ hold.pc.inCall) : ¬ CallOpen id place.log := by
  intro hopen
  obtain ⟨other, hother, hin⟩ := h.calls hopen
  cases holds.symm.trans hother
  exact hpc hin

/-- Once the reconcile of the iteration has begun, only a queued one can be owed. -/
theorem Kept.asks_queued (h : Kept id place) (hopen : Unserved id place.log) {hold : Hold}
    (holds : place.hold = some hold) (hpc : ¬ hold.pc.willReconcile) :
    ∃ held, place.held = some held ∧ held.reconcile = true := by
  obtain ⟨other, held, hother, hheld, hwill⟩ := h.asks hopen
  cases holds.symm.trans hother
  exact ⟨held, hheld, hwill.resolve_right hpc⟩

theorem calls_moves (h : Kept id place) (hmove : Moves id place place') :
    CallOpen id place'.log → ∃ hold, place'.hold = some hold ∧ hold.pc.inCall := by
  intro hopen
  cases hmove with
  | quiet entries store foreign le => exact h.calls ((callOpen_append foreign).mp hopen)
  | request | ask | askEnd | visit | skip => exact h.calls (Since.tail hopen fun h => h)
  | forget => exact h.calls hopen
  | claim eventTime terminal now free =>
    obtain ⟨hold, hhold, -⟩ := h.calls (Since.tail hopen fun h => h)
    exact absurd hhold (h.not_hold free)
  | beginTerminate | begin | load => exact ⟨_, rfl, trivial⟩
  | endTerminate | finish => exact absurd hopen (not_since_cons rfl fun h => h)
  | readKey started holds pc =>
    exact absurd (Since.tail hopen fun h => h) (h.not_callOpen holds (by rw [pc]; exact fun h => h))
  | mark holds pc => exact absurd hopen (h.not_callOpen holds (by rw [pc]; exact fun h => h))
  | settle _ holds pc | resume _ holds pc | release holds pc =>
    exact absurd (Since.tail hopen fun h => h) (h.not_callOpen holds (by rw [pc]; exact fun h => h))

theorem asks_moves (h : Kept id place) (hmove : Moves id place place') :
    Unserved id place'.log → ∃ hold held, place'.hold = some hold ∧ place'.held = some held ∧
      (held.reconcile = true ∨ hold.pc.willReconcile) := by
  intro hopen
  cases hmove with
  | quiet entries store foreign le => exact h.asks ((unserved_append foreign).mp hopen)
  | request | visit | skip => exact h.asks (Since.tail hopen fun h => h)
  | forget => exact h.asks hopen
  | claim eventTime terminal now free =>
    rcases hopen with ⟨-, hreconcile⟩ | ⟨-, hopen⟩
    · refine ⟨_, _, rfl, rfl, .inr ?_⟩
      rw [Hold.start, hreconcile]
      exact begin_willReconcile _
    · obtain ⟨hold, held, -, hheld, -⟩ := h.asks hopen
      rw [free] at hheld
      cases hheld
  | @ask held eventTime isHeld =>
    obtain ⟨hold, hhold⟩ := h.has_hold isHeld
    rcases hopen with ⟨-, hqueues⟩ | ⟨-, hopen⟩
    · exact ⟨hold, _, hhold, rfl, .inl (ask_queues hqueues)⟩
    · obtain ⟨hold, held', hhold, hheld, hwill⟩ := h.asks hopen
      cases isHeld.symm.trans hheld
      exact ⟨hold, _, hhold, rfl, hwill.imp_left ask_reconcile⟩
  | @askEnd held eventTime isHeld =>
    obtain ⟨hold, held', hhold, hheld, hwill⟩ := h.asks (Since.tail hopen fun h => h)
    cases isHeld.symm.trans hheld
    exact ⟨hold, _, hhold, rfl, hwill.imp_left ask_reconcile⟩
  | @beginTerminate hold reconcile eventTime holds pc =>
    obtain ⟨hold', held, hhold, hheld, hwill⟩ := h.asks (Since.tail hopen fun h => h)
    cases holds.symm.trans hhold
    rw [pc] at hwill
    exact ⟨_, held, rfl, hheld, hwill⟩
  | @endTerminate hold reconcile eventTime holds pc =>
    obtain ⟨hold', held, hhold, hheld, hwill⟩ := h.asks (Since.tail hopen fun h => h)
    cases holds.symm.trans hhold
    rw [pc] at hwill
    refine ⟨_, held, rfl, hheld, hwill.imp_right fun hreconcile => ?_⟩
    have hreconcile : reconcile = true := hreconcile
    subst hreconcile
    trivial
  | @readKey hold started holds pc =>
    obtain ⟨hold', held, hhold, hheld, -⟩ := h.asks (Since.tail hopen fun h => h)
    exact ⟨_, held, rfl, hheld, .inr trivial⟩
  | begin => exact absurd hopen (not_since_cons rfl fun h => h)
  | load holds pc =>
    obtain ⟨held, hheld, hreconcile⟩ := h.asks_queued (Since.tail hopen fun h => h) holds
      (by rw [pc]; exact fun h => h)
    exact ⟨_, held, rfl, hheld, .inl hreconcile⟩
  | @finish hold key started outcome holds pc =>
    have hpc : ¬ hold.pc.willReconcile := by
      rcases pc with pc | ⟨pc, -⟩ <;> rw [pc] <;> exact fun h => h
    obtain ⟨held, hheld, hreconcile⟩ := h.asks_queued (Since.tail hopen fun h => h) holds hpc
    exact ⟨_, held, rfl, hheld, .inl hreconcile⟩
  | settle now holds pc =>
    obtain ⟨held, hheld, hreconcile⟩ := h.asks_queued (Since.tail hopen fun h => h) holds
      (by rw [pc]; exact fun h => h)
    exact ⟨_, held, rfl, hheld, .inl hreconcile⟩
  | mark holds pc =>
    obtain ⟨held, hheld, hreconcile⟩ := h.asks_queued hopen holds (by rw [pc]; exact fun h => h)
    exact ⟨_, held, rfl, hheld, .inl hreconcile⟩
  | resume now holds pc isHeld queued =>
    obtain ⟨held, hheld, hreconcile⟩ := h.asks_queued (Since.tail hopen fun h => h) holds
      (by rw [pc]; exact fun h => h)
    cases isHeld.symm.trans hheld
    refine ⟨_, _, rfl, rfl, .inr ?_⟩
    rw [hreconcile]
    exact begin_willReconcile _
  | release holds pc isHeld queued =>
    obtain ⟨held, hheld, hreconcile⟩ := h.asks_queued (Since.tail hopen fun h => h) holds
      (by rw [pc]; exact fun h => h)
    cases isHeld.symm.trans hheld
    rw [Reservation.queued, hreconcile] at queued
    cases queued

theorem ends_moves (h : Kept id place) (hmove : Moves id place place') (eventTime : Timestamp) :
    UnservedEnd id eventTime place'.log → ∃ hold held, place'.hold = some hold ∧
    place'.held = some held ∧
      ((∃ time, held.terminateAt = some time ∧ eventTime ≤ time) ∨
        ∃ reconcile time, hold.pc = .work reconcile time ∧ eventTime ≤ time) := by
  intro hopen
  -- A hold that has begun its terminate call owes only what is queued.
  have hqueued : UnservedEnd id eventTime place.log → ∀ {hold : Hold}, place.hold = some hold →
      (∀ reconcile time, hold.pc ≠ .work reconcile time) →
      ∃ held time, place.held = some held ∧ held.terminateAt = some time ∧ eventTime ≤ time := by
    intro hopen hold holds hpc
    obtain ⟨other, held, hother, hheld, ⟨time, htime, hle⟩ | ⟨reconcile, time, hwork, -⟩⟩ :=
      h.ends eventTime hopen
    · exact ⟨held, time, hheld, htime, hle⟩
    · cases holds.symm.trans hother
      exact absurd hwork (hpc reconcile time)
  cases hmove with
  | quiet entries store foreign le => exact h.ends eventTime ((unservedEnd_append foreign).mp hopen)
  | request | visit | skip => exact h.ends eventTime (Since.tail hopen fun h => h)
  | forget => exact h.ends eventTime hopen
  | claim time terminal now free =>
    rcases hopen with ⟨-, htime⟩ | ⟨-, hopen⟩
    · refine ⟨_, _, rfl, rfl, .inr ⟨!terminal, eventTime, ?_, le_rfl⟩⟩
      rw [Hold.start, htime]
      rfl
    · obtain ⟨hold, held, -, hheld, -⟩ := h.ends eventTime hopen
      rw [free] at hheld
      cases hheld
  | @ask held time isHeld =>
    obtain ⟨hold, held', hhold, hheld, howed⟩ := h.ends eventTime (Since.tail hopen fun h => h)
    cases isHeld.symm.trans hheld
    refine ⟨hold, _, hhold, rfl, howed.imp_left ?_⟩
    rintro ⟨time', htime, hle⟩
    exact ⟨time', by rw [ask_terminateAt, htime], hle⟩
  | @askEnd held time isHeld =>
    obtain ⟨hold, hhold⟩ := h.has_hold isHeld
    obtain ⟨last, hlast, hle, hold'⟩ := ask_end held time
    rcases hopen with ⟨-, rfl⟩ | ⟨-, hopen⟩
    · exact ⟨hold, _, hhold, rfl, .inl ⟨last, hlast, hle⟩⟩
    · obtain ⟨hold, held', hhold, hheld, howed⟩ := h.ends eventTime hopen
      cases isHeld.symm.trans hheld
      refine ⟨hold, _, hhold, rfl, howed.imp_left ?_⟩
      rintro ⟨queued, hqueued, hle'⟩
      exact ⟨last, hlast, hle'.trans (hold' queued hqueued)⟩
  | @beginTerminate hold reconcile time holds pc =>
    rcases hopen with hmark | ⟨hclear, hopen⟩
    · exact absurd hmark fun h => h
    · obtain ⟨other, held, hother, hheld, howed⟩ := h.ends eventTime hopen
      cases holds.symm.trans hother
      refine ⟨_, held, rfl, hheld, .inl (howed.resolve_right ?_)⟩
      rintro ⟨reconcile', time', hwork, hle⟩
      cases pc.symm.trans hwork
      exact hclear ⟨rfl, hle⟩
  | endTerminate holds pc =>
    obtain ⟨held, time, hheld, howed⟩ := hqueued (Since.tail hopen fun h => h) holds (by simp [pc])
    exact ⟨_, held, rfl, hheld, .inl ⟨time, howed⟩⟩
  | readKey started holds pc =>
    obtain ⟨held, time, hheld, howed⟩ := hqueued (Since.tail hopen fun h => h) holds (by simp [pc])
    exact ⟨_, held, rfl, hheld, .inl ⟨time, howed⟩⟩
  | begin wall holds pc =>
    obtain ⟨held, time, hheld, howed⟩ := hqueued (Since.tail hopen fun h => h) holds (by simp [pc])
    exact ⟨_, held, rfl, hheld, .inl ⟨time, howed⟩⟩
  | load holds pc =>
    obtain ⟨held, time, hheld, howed⟩ := hqueued (Since.tail hopen fun h => h) holds (by simp [pc])
    exact ⟨_, held, rfl, hheld, .inl ⟨time, howed⟩⟩
  | finish outcome holds pc =>
    obtain ⟨held, time, hheld, howed⟩ := hqueued (Since.tail hopen fun h => h) holds
      (by rcases pc with pc | ⟨pc, -⟩ <;> simp [pc])
    exact ⟨_, held, rfl, hheld, .inl ⟨time, howed⟩⟩
  | settle now holds pc =>
    obtain ⟨held, time, hheld, howed⟩ := hqueued (Since.tail hopen fun h => h) holds (by simp [pc])
    exact ⟨_, held, rfl, hheld, .inl ⟨time, howed⟩⟩
  | mark holds pc =>
    obtain ⟨held, time, hheld, howed⟩ := hqueued hopen holds (by simp [pc])
    exact ⟨_, held, rfl, hheld, .inl ⟨time, howed⟩⟩
  | resume now holds pc isHeld queued =>
    obtain ⟨held, time, hheld, htime, hle⟩ := hqueued (Since.tail hopen fun h => h) holds
      (by simp [pc])
    cases isHeld.symm.trans hheld
    exact ⟨_, _, rfl, rfl, .inr ⟨_, time, by rw [htime]; rfl, hle⟩⟩
  | release holds pc isHeld queued =>
    obtain ⟨held, time, hheld, htime, hle⟩ := hqueued (Since.tail hopen fun h => h) holds
      (by simp [pc])
    cases isHeld.symm.trans hheld
    simp [Reservation.queued, htime] at queued

theorem cleans_moves (h : Kept id place) (hmove : Moves id place place') (eventTime : Timestamp) :
    Uncleaned id eventTime place'.log → ∃ hold reconcile, place'.hold = some hold ∧
      (hold.pc = .work reconcile eventTime ∨ hold.pc = .terminating reconcile eventTime) := by
  intro hopen
  -- A hold past its terminate call owes none.
  have hpast : Uncleaned id eventTime place.log → ∀ {hold : Hold}, place.hold = some hold →
      (∀ reconcile time, hold.pc ≠ .work reconcile time ∧ hold.pc ≠ .terminating reconcile time) →
        False := by
    intro hopen hold holds hpc
    obtain ⟨other, reconcile, hother, hwork⟩ := h.cleans eventTime hopen
    cases holds.symm.trans hother
    exact hwork.elim (hpc reconcile eventTime).1 (hpc reconcile eventTime).2
  cases hmove with
  | quiet entries store foreign le => exact h.cleans eventTime ((uncleaned_append foreign).mp hopen)
  | request | ask | askEnd | visit | skip => exact h.cleans eventTime (Since.tail hopen fun h => h)
  | forget => exact h.cleans eventTime hopen
  | claim time terminal now free =>
    rcases hopen with ⟨-, htime⟩ | ⟨-, hopen⟩
    · refine ⟨_, !terminal, rfl, .inl ?_⟩
      rw [Hold.start, htime]
      rfl
    · obtain ⟨hold, -, hhold, -⟩ := h.cleans eventTime hopen
      exact absurd hhold (h.not_hold free)
  | @beginTerminate hold reconcile time holds pc =>
    obtain ⟨other, reconcile', hother, hwork⟩ := h.cleans eventTime (Since.tail hopen fun h => h)
    cases holds.symm.trans hother
    rw [pc] at hwork
    rcases hwork with hwork | hwork
    · cases hwork
      exact ⟨_, reconcile, rfl, .inr rfl⟩
    · cases hwork
  | @endTerminate hold reconcile time holds pc =>
    rcases hopen with hmark | ⟨hclear, hopen⟩
    · exact absurd hmark fun h => h
    · obtain ⟨other, reconcile', hother, hwork⟩ := h.cleans eventTime hopen
      cases holds.symm.trans hother
      rw [pc] at hwork
      rcases hwork with hwork | hwork
      · cases hwork
      · cases hwork
        exact absurd ⟨rfl, rfl⟩ hclear
  | readKey started holds pc =>
    exact (hpast (Since.tail hopen fun h => h) holds (by simp [pc])).elim
  | mark holds pc => exact (hpast hopen holds (by simp [pc])).elim
  | begin _ holds pc | load holds pc | settle _ holds pc | release holds pc =>
    exact (hpast (Since.tail hopen fun h => h) holds (by simp [pc])).elim
  | finish outcome holds pc =>
    exact (hpast (Since.tail hopen fun h => h) holds
      (by rcases pc with pc | ⟨pc, -⟩ <;> simp [pc])).elim
  | @resume hold held now holds pc isHeld queued =>
    rcases hopen with ⟨-, htime⟩ | ⟨-, hopen⟩
    · exact ⟨_, held.reconcile, rfl, .inl (by rw [htime]; rfl)⟩
    · exact (hpast hopen holds (by simp [pc])).elim

theorem orderly_moves (h : Kept id place) (hmove : Moves id place place') :
    Orderly (Proper id) place'.log := by
  cases hmove with
  | quiet entries store foreign le =>
    refine h.orderly.append fun entry hentry earlier => ?_
    have hforeign := (foreign entry hentry).1
    cases entry <;> first | trivial | exact fun heq => absurd (congrArg some heq) hforeign
  | forget | mark => exact h.orderly
  | request | claim | ask | askEnd | visit | skip | endTerminate | readKey | load | finish
  | settle | resume =>
    exact ⟨trivial, h.orderly⟩
  | beginTerminate holds pc =>
    exact ⟨fun _ => h.not_callOpen holds (by rw [pc]; exact fun h => h), h.orderly⟩
  | begin wall holds pc =>
    refine ⟨fun _ => ⟨h.not_callOpen holds (by rw [pc]; exact fun h => h), fun eventTime hopen =>
      ?_⟩, h.orderly⟩
    obtain ⟨other, reconcile, hother, hwork⟩ := h.cleans eventTime hopen
    cases holds.symm.trans hother
    simp [pc] at hwork
  | release holds pc isHeld queued =>
    simp only [Reservation.queued, Bool.or_eq_false_iff, Option.isSome_eq_false_iff,
      Option.isNone_iff_eq_none] at queued
    refine ⟨fun _ => ⟨by simp [Reservation.queued, queued], fun hopen => ?_, fun eventTime hopen =>
      ?_⟩, h.orderly⟩
    · obtain ⟨held, hheld, hreconcile⟩ := h.asks_queued hopen holds (by rw [pc]; exact fun h => h)
      cases isHeld.symm.trans hheld
      rw [queued.1] at hreconcile
      cases hreconcile
    · obtain ⟨other, held, hother, hheld, ⟨time, htime, -⟩ | ⟨reconcile, time, hwork, -⟩⟩ :=
        h.ends eventTime hopen
      · cases isHeld.symm.trans hheld
        rw [queued.2] at htime
        cases htime
      · cases holds.symm.trans hother
        rw [pc] at hwork
        cases hwork

theorem Kept.moves (h : Kept id place) (hmove : Moves id place place') : Kept id place' where
  matched := by
    have hheld := h.matched
    cases hmove with
    | quiet | request | visit | skip | forget => exact hheld
    | claim | resume | release => rfl
    | ask _ isHeld | askEnd _ isHeld =>
      rw [isHeld] at hheld
      exact hheld
    | beginTerminate holds | endTerminate holds | readKey _ holds | begin _ holds | load holds
    | finish _ holds
    | settle _ holds | mark holds =>
      rw [holds] at hheld
      exact hheld
  tells := tells_moves h hmove
  calls := calls_moves h hmove
  asks := asks_moves h hmove
  ends := ends_moves h hmove
  cleans := cleans_moves h hmove
  orderly := orderly_moves h hmove

theorem kept_new (store : Nat) (id : ContainerId) : Kept id ((System.new store).place id) := by
  rw [place_new]
  refine ⟨rfl, ?_, fun h => h.elim, fun h => h.elim, fun _ h => h.elim, fun _ h => h.elim, trivial⟩
  intro held hold h
  cases h

theorem Kept.reaches (h : Kept id place) (hreaches : Reaches id place place') : Kept id place' := by
  induction hreaches with
  | refl => exact h
  | tail _ hmove ih => exact ih.moves hmove


/-- One act takes a reservation away only if nothing is queued on it. -/
theorem removed_queued (h : Does id place place') {held : Reservation}
    (hheld : place.held = some held) (hgone : place'.held = none) :
    held.queued = false ∧ .released id held ∈ place'.log := by
  have hmove : ∀ {place'}, Moves id place place' → place'.held = none →
      held.queued = false ∧ .released id held ∈ place'.log := by
    intro place' hmove hgone
    cases hmove with
    | claim | ask | askEnd | resume => cases hgone
    | release _ _ isHeld queued =>
      cases isHeld.symm.trans hheld
      exact ⟨queued, List.mem_cons_self⟩
    | quiet | request | visit | skip | forget | beginTerminate | endTerminate | readKey | begin
    | load | finish
    | settle | mark => exact absurd (hheld.symm.trans hgone) nofun
  cases h with
  | once move => exact hmove move hgone
  | logged entries move note =>
    obtain ⟨hqueued, hmem⟩ := hmove move hgone
    exact ⟨hqueued, List.mem_append_right entries hmem⟩

end Moves

/-! ## The theorem -/

theorem run_kept (store : Nat) (acts : List Act) (id : ContainerId) :
    Kept id (((System.new store).run acts).place id) :=
  (kept_new store id).reaches (run_reaches store acts id)

/-- Whatever the order of the acts, a container has one hold at most, its calls do not overlap and
come in the order of an iteration, and a reservation that is released or that an act takes away has
nothing left to do: no reconcile and no end of a run that was requested is still to be served. -/
theorem one_holder (store : Nat) (acts : List Act) :
    (((System.new store).run acts).holds.map Hold.id).Nodup ∧
      (∀ id held hold, ((System.new store).run acts).state.inFlight.get id = some held →
        ((System.new store).run acts).holdOf id = some hold → held.Tells hold) ∧
      (∀ id later entry earlier, ((System.new store).run acts).log = later ++ entry :: earlier →
        Proper id entry earlier) ∧
      ∀ act id held, ((System.new store).run acts).state.inFlight.get id = some held →
        (((System.new store).run acts).step act).state.inFlight.get id = none →
        held.queued = false ∧ .released id held ∈ (((System.new store).run acts).step act).log := by
  refine ⟨(run_single store acts).nodup, fun id => (run_kept store acts id).tells, fun id => ?_,
    fun act id held hheld hgone => ?_⟩
  · exact orderly_iff.mp (run_kept store acts id).orderly
  · by_cases henabled : ((System.new store).run acts).enabled act = true
    · rw [System.step, if_pos henabled] at hgone ⊢
      exact removed_queued (place_step (run_single store acts) henabled id) hheld hgone
    · rw [System.step, if_neg henabled, hheld] at hgone
      cases hgone

end Daemon
end Sda
