import Mathlib.Logic.Relation
import DeviceAccess.Daemon.Coordinator
import DeviceAccess.Lib.Since
import DeviceAccess.Lib.Trace

/-!
# One container in the coordinator

What happens to one container does not depend on the others. `System.place` is what the system shows
of one container: its pending and processed entries, its reservation and its hold. Whatever act is
made anywhere, the place of a container changes by a few moves (`place_step`), and what a run does
to it is a sequence of those (`run_reaches`).
-/

namespace Sda
namespace Daemon

open Processor (ContainerId Timestamp)

/-- A run of the coordinator: acts of its tasks in any order. -/
def Runs : System → List (System × Act) → System → Prop :=
  Run System.apply fun sys act => sys.enabled act = true

/-! ## Holds -/

namespace System

variable {sys : System} {id : ContainerId} {hold hold' : Hold} {index : Nat}

/-- The hold of a container. -/
def holdOf (sys : System) (id : ContainerId) : Option Hold := sys.holds.find? (·.id = id)

/-- Each reserved container has one hold, and no other container has one. -/
structure Single (sys : System) : Prop where
  nodup : (sys.holds.map Hold.id).Nodup
  reserved : ∀ id, (sys.state.inFlight.get id).isSome = true ↔ id ∈ sys.holds.map Hold.id

end System

section Holds

variable {holds : List Hold} {id : ContainerId} {hold hold' : Hold} {index : Nat}

theorem find_hold (hnodup : (holds.map Hold.id).Nodup) (hmem : hold ∈ holds) :
    holds.find? (·.id = hold.id) = some hold := by
  obtain ⟨front, back, rfl⟩ := List.append_of_mem hmem
  rw [List.find?_append, List.find?_cons_of_pos (by simp), Option.or_eq_right_of_none]
  rw [List.find?_eq_none]
  intro other hother
  rw [List.map_append, List.map_cons, List.nodup_append] at hnodup
  have hne := hnodup.2.2 other.id (List.mem_map_of_mem hother) hold.id List.mem_cons_self
  simpa using hne

theorem split_at (h : holds[index]? = some hold) :
    ∃ front back, holds = front ++ hold :: back ∧ holds.eraseIdx index = front ++ back ∧
      ∀ hold', holds.set index hold' = front ++ hold' :: back := by
  obtain ⟨hlt, rfl⟩ := List.getElem?_eq_some_iff.mp h
  refine ⟨holds.take index, holds.drop (index + 1), ?_, List.eraseIdx_eq_take_drop_succ ..,
    fun hold' => ?_⟩
  · rw [← List.drop_eq_getElem_cons hlt, List.take_append_drop]
  · rw [List.set_eq_take_append_cons_drop, if_pos hlt]

theorem find_set_self (hnodup : (holds.map Hold.id).Nodup) (h : holds[index]? = some hold)
    (hid : hold'.id = hold.id) : (holds.set index hold').find? (·.id = hold.id) = some hold' := by
  obtain ⟨front, back, rfl, -, hset⟩ := split_at h
  rw [hset, ← hid]
  refine find_hold ?_ (by simp)
  rw [List.map_append, List.map_cons, hid, ← List.map_cons, ← List.map_append]
  exact hnodup

theorem find_set_of_ne (h : holds[index]? = some hold) (hid : hold'.id = hold.id)
    (hne : id ≠ hold.id) :
    (holds.set index hold').find? (·.id = id) = holds.find? (·.id = id) := by
  obtain ⟨front, back, rfl, -, hset⟩ := split_at h
  rw [hset, List.find?_append, List.find?_append,
    List.find?_cons_of_neg (by simpa [hid] using hne.symm),
    List.find?_cons_of_neg (by simpa using hne.symm)]

theorem find_eraseIdx_self (hnodup : (holds.map Hold.id).Nodup) (h : holds[index]? = some hold) :
    (holds.eraseIdx index).find? (·.id = hold.id) = none := by
  obtain ⟨front, back, rfl, herase, -⟩ := split_at h
  rw [herase, List.find?_eq_none]
  intro other hother
  rw [List.map_append, List.map_cons] at hnodup
  have hnot := (List.nodup_middle.mp hnodup).notMem
  rw [← List.map_append] at hnot
  have hne : other.id ≠ hold.id := fun heq => hnot (heq ▸ List.mem_map_of_mem hother)
  simpa using hne

private theorem find_eraseIdx_of_ne (h : holds[index]? = some hold) (hne : id ≠ hold.id) :
    (holds.eraseIdx index).find? (·.id = id) = holds.find? (·.id = id) := by
  obtain ⟨front, back, rfl, herase, -⟩ := split_at h
  rw [herase, List.find?_append, List.find?_append,
    List.find?_cons_of_neg (by simpa using hne.symm)]

end Holds

/-! ## Places -/

/-- What the system shows of one container. -/
structure Place where
  latest : PassKey
  store : Nat
  pending : Option PendingEntry
  processed : Option Inspected
  held : Option Reservation
  hold : Option Hold
  log : List Entry

def System.place (sys : System) (id : ContainerId) : Place :=
  ⟨sys.state.latest, sys.store, sys.state.pending.get id, sys.state.processed.get id,
    sys.state.inFlight.get id, sys.holdOf id, sys.log⟩

/-- The container an entry is about. -/
def Entry.subject : Entry → Option ContainerId
  | .requested _ | .taken _ | .passed _ _ | .announced _ => none
  | .visited _ id | .claimed id _ _ _ | .asked id _ _ | .askedEnd id _ | .resumed id _ _ _
  | .terminateBegan id _ | .terminateEnded id _ | .keyed id _ | .began id _ _ | .loaded id _
  | .ended id _
  | .settled id _ | .released id _ | .skipped id _ => some id

/-- The entry is neither about the container nor a request. -/
def Entry.Foreign (id : ContainerId) (entry : Entry) : Prop :=
  entry.subject ≠ some id ∧ ∀ key, entry ≠ .requested key

theorem toNat_generationOf_le (number : Nat) : (generationOf number).toNat ≤ number := by
  rw [generationOf, BitVec.toNat_ofNat]
  exact Nat.mod_le _ _

/-- What `settle` makes of a container's pending entry. -/
def settleEntry (latest key : PassKey) (good : Bool) (now : Instant) :
    Option PendingEntry → Option PendingEntry
  | some entry =>
    if good then if entry.key = key then none else some { entry with due := now }
    else some ⟨entry.key, min (entry.backoff * 2) maxBackoff,
      now + min (entry.backoff * 2) maxBackoff⟩
  | none => if good then none else some ⟨latest, minBackoff, now + minBackoff⟩

/-- The hold that `reserve` starts. -/
def Hold.start (id : ContainerId) (eventTime : Option Timestamp) (terminal : Bool) : Hold :=
  ⟨id, eventTime.isNone, !terminal && eventTime.isSome, false,
    .begin (!terminal) (if terminal then eventTime else none)⟩

/-- How the place of a container changes. -/
inductive Moves (id : ContainerId) : Place → Place → Prop
  | quiet {place : Place} (entries : List Entry) (store : Nat)
    (foreign : ∀ entry ∈ entries, entry.Foreign id) (le : place.store ≤ store) :
    Moves id place { place with store := store, log := entries ++ place.log }
  | request {place : Place} (generation : BitVec 64) (le : generation.toNat ≤ place.store) :
    Moves id place { place with
      latest := place.latest.request generation
      pending := place.pending.map ({ · with key := place.latest.request generation })
      log := .requested (place.latest.request generation) :: place.log }
  | claim {place : Place} (eventTime : Option Timestamp) (terminal : Bool) (now : Timestamp)
    (free : place.held = none) :
    Moves id place { place with
      held := some (.claim terminal now)
      hold := some (.start id eventTime terminal)
      log := .claimed id (!terminal) (if terminal then eventTime else none) now :: place.log }
  | ask {place : Place} {held : Reservation} (eventTime : Option Timestamp)
    (isHeld : place.held = some held) :
    Moves id place { place with
      held := some (held.ask eventTime false)
      log := .asked id eventTime held.applyStart :: place.log }
  | askEnd {place : Place} {held : Reservation} (eventTime : Timestamp)
    (isHeld : place.held = some held) :
    Moves id place { place with
      held := some (held.ask (some eventTime) true)
      log := .askedEnd id eventTime :: place.log }
  | visit {place : Place} {held : Reservation} {hold : Hold} (key : PassKey)
    (isHeld : place.held = some held)
    (holds : place.hold = some hold) (waits : held.reconcile = true ∨ hold.pc = .cleaned) :
    Moves id place { place with log := .visited key id :: place.log }
  | skip {place : Place} {inspected : Inspected} (eventTime : Timestamp)
    (covered : place.processed = some inspected ∧ eventTime ≤ inspected.wall) :
    Moves id place { place with processed := none, log := .skipped id eventTime :: place.log }
  | forget {place : Place} : Moves id place { place with processed := none }
  | beginTerminate {place : Place} {hold : Hold} {reconcile : Bool} {eventTime : Timestamp}
    (holds : place.hold = some hold) (pc : hold.pc = .work reconcile eventTime) :
    Moves id place { place with
      hold := some { hold with pc := .terminating reconcile eventTime }
      log := .terminateBegan id eventTime :: place.log }
  | endTerminate {place : Place} {hold : Hold} {reconcile : Bool} {eventTime : Timestamp}
    (holds : place.hold = some hold) (pc : hold.pc = .terminating reconcile eventTime) :
    Moves id place { place with
      hold := some { hold with pc := .after reconcile }
      log := .terminateEnded id eventTime :: place.log }
  | readKey {place : Place} {hold : Hold} (started : Inspected) (holds : place.hold = some hold)
    (pc : hold.pc = .cleaned) :
    Moves id place { place with
      hold := some { hold with pc := .keyed place.latest started }
      log := .keyed id started.wall :: place.log }
  | begin {place : Place} {hold : Hold} {key : PassKey} {started : Inspected} (wall : Timestamp)
    (holds : place.hold = some hold) (pc : hold.pc = .keyed key started) :
    Moves id place { place with
      hold := some { hold with pc := .reconciling key started }
      log := .began id place.latest wall :: place.log }
  | load {place : Place} {hold : Hold} {key : PassKey} {started : Inspected}
    (holds : place.hold = some hold)
    (pc : hold.pc = .reconciling key started) :
    Moves id place { place with
      hold := some { hold with pc := .loaded key started }
      log := .loaded id (generationOf place.store) :: place.log }
  | finish {place : Place} {hold : Hold} {key : PassKey} {started : Inspected} (outcome : Outcome)
    (holds : place.hold = some hold)
    (pc : hold.pc = .loaded key started ∨ hold.pc = .reconciling key started ∧ outcome = .failed) :
    Moves id place { place with
      hold := some { hold with pc := .reconciled key started outcome }
      log := .ended id outcome :: place.log }
  | settle {place : Place} {hold : Hold} {key : PassKey} {started : Inspected} {outcome : Outcome}
    (now : Instant)
    (holds : place.hold = some hold) (pc : hold.pc = .reconciled key started outcome) :
    Moves id place { place with
      pending := settleEntry place.latest key outcome.good now place.pending
      hold := some { hold with pc := .settled started outcome, failed := outcome ≠ .ok }
      log := .settled id outcome :: place.log }
  | mark {place : Place} {hold : Hold} {started : Inspected} {outcome : Outcome}
    (holds : place.hold = some hold)
    (pc : hold.pc = .settled started outcome) :
    Moves id place { place with
      hold := some { hold with pc := .done }
      processed := if outcome = .ok && hold.enumerated then some started else place.processed }
  | resume {place : Place} {hold : Hold} {held : Reservation} (now : Timestamp)
    (holds : place.hold = some hold)
    (pc : hold.pc = .done) (isHeld : place.held = some held) (queued : held.queued = true) :
    Moves id place { place with
      hold := some { hold with pc := .begin held.reconcile held.terminateAt }
      held := some (held.resume now)
      log := .resumed id held.reconcile held.terminateAt now :: place.log }
  | release {place : Place} {hold : Hold} {held : Reservation} (holds : place.hold = some hold)
    (pc : hold.pc = .done) (isHeld : place.held = some held) (queued : held.queued = false) :
    Moves id place { place with
      hold := none
      held := none
      log := .released id held :: place.log }

/-- Entries about something else leave open what was open. -/
theorem since_foreign {clear : Entry → Prop} {mark : Entry → List Entry → Prop} {id : ContainerId}
    (hmark : ∀ entry earlier, mark entry earlier → entry.subject = some id)
    (hclear : ∀ entry : Entry, clear entry → entry.subject = some id) {entries log : List Entry}
    (h : ∀ entry ∈ entries, entry.Foreign id) : Since clear mark (entries ++ log) ↔
    Since clear mark log :=
  since_append_of_other fun entry hentry =>
    ⟨fun earlier hm => (h entry hentry).1 (hmark entry earlier hm), fun hc => (h entry hentry).1
      (hclear entry hc)⟩

/-! ## What an act does to a place -/

/-- The place came from another one by moves. -/
def Reaches (id : ContainerId) : Place → Place → Prop := Relation.ReflTransGen (Moves id)

/-- What one act does to a place: a move, and perhaps one more entry in the log. -/
inductive Does (id : ContainerId) : Place → Place → Prop
  | once {place place' : Place} (move : Moves id place place') : Does id place place'
  | logged {place place' : Place} (entries : List Entry) (move : Moves id place place')
    (note : Moves id place' { place' with log := entries ++ place'.log }) :
    Does id place { place' with log := entries ++ place'.log }

theorem Does.reaches {id : ContainerId} {place place' : Place} (h : Does id place place') :
    Reaches id place place' := by
  cases h with
  | once move => exact .single move
  | logged entries move note => exact .tail (.single move) note

theorem settle_pending (state : State) (id other : ContainerId) (key : PassKey) (good : Bool)
    (now : Instant) :
    (state.settle id key good now).pending.get other =
      if other = id then settleEntry state.latest key good now (state.pending.get id)
      else state.pending.get other := by
  by_cases hother : other = id
  · subst hother
    rw [if_pos rfl, State.settle]
    cases hpending : state.pending.get other with
    | none =>
      cases good with
      | true => simp [settleEntry, hpending]
      | false => simp [settleEntry]
    | some entry =>
      cases good with
      | true => by_cases hkey : entry.key = key <;> simp [settleEntry, hkey]
      | false => simp [settleEntry]
  · rw [if_neg hother, State.settle]
    cases state.pending.get id with
    | none => cases good <;> simp [Table.get_insert_of_ne hother]
    | some entry =>
      cases good with
      | true =>
        by_cases hkey : entry.key = key <;>
          simp [hkey, Table.get_insert_of_ne hother, Table.get_erase_of_ne hother]
      | false => simp [Table.get_insert_of_ne hother]

theorem settle_rest (state : State) (id : ContainerId) (key : PassKey) (good : Bool)
    (now : Instant) :
    ∃ pending, state.settle id key good now = { state with pending := pending } := by
  rw [State.settle]
  split
  · split
    · split
      · exact ⟨_, rfl⟩
      · exact ⟨_, rfl⟩
    · exact ⟨_, rfl⟩
  · split
    · exact ⟨_, rfl⟩
    · exact ⟨_, rfl⟩

theorem announceLocked_rest (state : State) :
    ∃ announced, state.announceLocked = { state with announced := announced } := by
  rw [State.announceLocked]
  split
  · exact ⟨_, rfl⟩
  · split
    · exact ⟨_, rfl⟩
    · exact ⟨_, rfl⟩

theorem reportLocked_rest (state : State) :
    ∃ announced, state.reportLocked = { state with announced := announced } := by
  rw [State.reportLocked]
  split
  · exact ⟨_, rfl⟩
  · exact announceLocked_rest state

theorem finishPass_rest (state : State) (key : PassKey) : ∃ announced, state.finishPass key =
    { state with incomplete := if key = state.latest then false else state.incomplete, announced :=
      announced } := by
  rw [State.finishPass]
  split
  · exact reportLocked_rest { state with incomplete := false }
  · exact reportLocked_rest state

section Step

variable {sys : System} {id target : ContainerId} {hold : Hold} {index : Nat}

/-- A system that shows the same of the container but for its log. -/
theorem moves_quiet {sys' : System} (entries : List Entry)
    (foreign : ∀ entry ∈ entries, entry.Foreign id) (hstore : sys.store ≤ sys'.store)
    (h : sys'.place id = { sys.place id with store := sys'.store, log := entries ++ sys.log }) :
    Moves id (sys.place id) (sys'.place id) := by
  rw [h]
  exact .quiet entries sys'.store foreign hstore

theorem foreign_of_subject {entry : Entry} (h : entry.subject = some target) (hne : id ≠ target) :
    entry.Foreign id := by
  refine ⟨fun heq => hne (Option.some.inj (heq.symm.trans h)), ?_⟩
  rintro key rfl
  cases h

theorem put_log (sys : System) (state : State) :
    ∃ entries, (sys.put state).log = entries ++ sys.log ∧
    ∀ id, ∀ entry ∈ entries, entry.Foreign id := by
  rw [System.put]
  by_cases h : state.announced = sys.state.announced
  · exact ⟨[], by simp [h], nofun⟩
  · refine ⟨[.announced state.announced], by simp [h], fun id => ?_⟩
    exact List.forall_mem_singleton.mpr ⟨nofun, nofun⟩

theorem reserve_moves (sys : System) (target : ContainerId) (eventTime : Option Timestamp)
    (terminal : Bool) (now : Timestamp) (hend : terminal = true → eventTime ≠ none)
    (id : ContainerId) :
    Moves id (sys.place id) ((sys.reserve target eventTime terminal now).place id) := by
  rw [System.reserve]
  by_cases hid : id = target
  · subst hid
    cases hheld : sys.state.inFlight.get id with
    | none =>
      have hmove : Moves id (sys.place id) _ := .claim eventTime terminal now hheld
      convert hmove using 1
      simp [System.place, System.holdOf, Hold.start]
    | some held =>
      cases terminal with
      | false =>
        have hmove : Moves id (sys.place id) _ := .ask eventTime hheld
        convert hmove using 1
        simp [System.place, System.holdOf]
      | true =>
        cases eventTime with
        | none => exact absurd rfl (hend rfl)
        | some eventTime =>
          have hmove : Moves id (sys.place id) _ := .askEnd eventTime hheld
          convert hmove using 1
          simp [System.place, System.holdOf]
  · have hother : ∀ entry : Entry, entry.subject = some target →
        ∀ entry' ∈ [entry], entry'.Foreign id :=
      fun entry hentry => List.forall_mem_singleton.mpr (foreign_of_subject hentry hid)
    cases hheld : sys.state.inFlight.get target with
    | none =>
      refine moves_quiet _
        (hother (.claimed target (!terminal) (if terminal then eventTime else none) now) rfl)
        le_rfl ?_
      simp [System.place, System.holdOf, Table.get_insert_of_ne hid, Ne.symm hid]
    | some held =>
      cases terminal with
      | false =>
        refine moves_quiet _ (hother (.asked target eventTime held.applyStart) rfl) le_rfl ?_
        simp [System.place, System.holdOf, Table.get_insert_of_ne hid]
      | true =>
        cases eventTime with
        | none => exact absurd rfl (hend rfl)
        | some eventTime =>
          refine moves_quiet _ (hother (.askedEnd target eventTime) rfl) le_rfl ?_
          simp [System.place, System.holdOf, Table.get_insert_of_ne hid]

theorem holdOf_self (hsingle : sys.Single) (hget : sys.holds[index]? = some hold) :
    sys.holdOf hold.id = some hold := find_hold hsingle.nodup (List.mem_of_getElem? hget)

private theorem holdOf_of_reserved (hsingle : sys.Single) {held : Reservation}
    (hheld : sys.state.inFlight.get id = some held) : ∃ hold, sys.holdOf id = some hold := by
  have hmem := (hsingle.reserved id).mp (by rw [hheld]; rfl)
  obtain ⟨hold, hhold, rfl⟩ := List.mem_map.mp hmem
  exact ⟨hold, find_hold hsingle.nodup hhold⟩

theorem moves_move (hsingle : sys.Single) (hget : sys.holds[index]? = some hold) {hold' : Hold}
    {entries : List Entry} (hid : hold'.id = hold.id)
    (h : Moves hold.id (sys.place hold.id)
      { sys.place hold.id with hold := some hold', log := entries ++ sys.log }) :
    Moves hold.id (sys.place hold.id) ((sys.move index hold' entries).place hold.id) := by
  convert h using 1
  simp [System.place, System.move, System.holdOf, find_set_self hsingle.nodup hget hid]

private theorem place_move_other (hget : sys.holds[index]? = some hold) {hold' : Hold}
    (hid : hold'.id = hold.id) (entries : List Entry) (hne : id ≠ hold.id) :
    (sys.move index hold' entries).place id = { sys.place id with log := entries ++ sys.log } := by
  simp [System.place, System.move, System.holdOf, find_set_of_ne hget hid hne]

/-- The announcement, if there is one, comes after the release. -/
theorem release_place (sys : System) (index : Nat) (hold : Hold) (held : Reservation) :
    ∃ entries, (∀ id, ∀ entry ∈ entries, entry.Foreign id) ∧ ∀ id,
      (sys.release index hold held).place id =
        { sys.place id with
          held := (sys.state.inFlight.erase hold.id).get id
          hold := (sys.holds.eraseIdx index).find? (·.id = id)
          log := entries ++ .released hold.id held :: sys.log } := by
  obtain ⟨announced, hrest⟩ :=
      announceLocked_rest { sys.state with inFlight := sys.state.inFlight.erase hold.id }
  obtain ⟨entries, hlog, hforeign⟩ := put_log { sys with log := .released hold.id held :: sys.log }
    { sys.state with inFlight := sys.state.inFlight.erase hold.id, announced := announced }
  refine ⟨entries, hforeign, fun id => ?_⟩
  simp only [System.release, hrest, System.place, hlog]
  rfl

theorem release_does (hsingle : sys.Single) (hget : sys.holds[index]? = some hold)
    (hpc : hold.pc = .done) {held : Reservation}
    (hheld : sys.state.inFlight.get hold.id = some held) (hqueued : held.queued = false) :
    Does hold.id (sys.place hold.id) ((sys.release index hold held).place hold.id) := by
  obtain ⟨entries, hforeign, hplace⟩ := release_place sys index hold held
  have hrelease : Moves hold.id (sys.place hold.id) _ :=
    .release (holdOf_self hsingle hget) hpc hheld hqueued
  have hquiet : Moves hold.id
      { sys.place hold.id with
        hold := none, held := none, log := .released hold.id held :: sys.log } _ :=
    .quiet entries sys.store (hforeign hold.id) le_rfl
  have hlast : (sys.release index hold held).place hold.id =
      { sys.place hold.id with
        hold := none, held := none, log := entries ++ .released hold.id held :: sys.log } := by
    rw [hplace, find_eraseIdx_self hsingle.nodup hget, Table.get_erase_self]
  rw [hlast]
  exact .logged entries hrelease hquiet

/-- What a hold does is a move of its own container. -/
theorem advance_does_self (hsingle : sys.Single) (hget : sys.holds[index]? = some hold)
    {act : HoldAct} (hready : hold.ready act = true) :
    Does hold.id (sys.place hold.id) ((sys.advance index hold act).place hold.id) := by
  have hhold : (sys.place hold.id).hold = some hold := holdOf_self hsingle hget
  cases act with
  | beginTerminate =>
    cases hpc : hold.pc with
    | work reconcile eventTime =>
      simp only [System.advance, hpc]
      exact .once (moves_move hsingle hget rfl <| .beginTerminate hhold hpc)
    | _ => simp [Hold.ready, hpc] at hready
  | endTerminate =>
    cases hpc : hold.pc with
    | terminating reconcile eventTime =>
      simp only [System.advance, hpc]
      exact .once (moves_move hsingle hget rfl <| .endTerminate hhold hpc)
    | _ => simp [Hold.ready, hpc] at hready
  | readKey started =>
    simp only [System.advance]
    exact .once
      (moves_move hsingle hget rfl <| .readKey started hhold (by simpa [Hold.ready] using hready))
  | begin wall =>
    cases hpc : hold.pc with
    | keyed key started =>
      simp only [System.advance, hpc]
      exact .once (moves_move hsingle hget rfl <| .begin wall hhold hpc)
    | _ => simp [Hold.ready, hpc] at hready
  | load =>
    cases hpc : hold.pc with
    | reconciling key started =>
      simp only [System.advance, hpc]
      exact .once (moves_move hsingle hget rfl <| .load hhold hpc)
    | _ => simp [Hold.ready, hpc] at hready
  | finish outcome =>
    cases hpc : hold.pc with
    | reconciling key started =>
      simp only [System.advance, hpc]
      have hfailed : outcome = .failed := by simpa [Hold.ready, hpc] using hready
      exact .once (moves_move hsingle hget rfl <| .finish outcome hhold (.inr ⟨hpc, hfailed⟩))
    | loaded key started =>
      simp only [System.advance, hpc]
      exact .once (moves_move hsingle hget rfl <| .finish outcome hhold (.inl hpc))
    | _ => simp [Hold.ready, hpc] at hready
  | settle now =>
    cases hpc : hold.pc with
    | reconciled key started outcome =>
      have h : Moves hold.id (sys.place hold.id) _ := .settle now hhold hpc
      refine .once ?_
      convert h using 1
      obtain ⟨pending, hrest⟩ := settle_rest sys.state hold.id key outcome.good now
      have hpending := settle_pending sys.state hold.id hold.id key outcome.good now
      rw [if_pos rfl, hrest] at hpending
      simp only [System.advance, hpc, hrest, System.move, System.place, System.holdOf]
      rw [find_set_self hsingle.nodup hget (by rfl)]
      simp only [← hpending]
      rfl
    | _ => simp [Hold.ready, hpc] at hready
  | mark =>
    cases hpc : hold.pc with
    | settled started outcome =>
      have h : Moves hold.id (sys.place hold.id) _ := .mark hhold hpc
      refine .once ?_
      convert h using 1
      simp only [System.advance, hpc, System.move, System.place, System.holdOf]
      rw [find_set_self hsingle.nodup hget (by rfl)]
      split <;> simp
    | _ => simp [Hold.ready, hpc] at hready
  | next now =>
    have hpc : hold.pc = .done := by simpa [Hold.ready] using hready
    have hsome := (hsingle.reserved hold.id).mpr (List.mem_map_of_mem (List.mem_of_getElem? hget))
    obtain ⟨held, hheld⟩ := Option.isSome_iff_exists.mp hsome
    simp only [System.advance, hheld]
    by_cases hqueued : held.queued = true
    · have h : Moves hold.id (sys.place hold.id) _ := .resume now hhold hpc hheld hqueued
      refine .once ?_
      convert h using 1
      simp only [hqueued, if_true, System.move, System.place, System.holdOf]
      rw [find_set_self hsingle.nodup hget (by rfl)]
      simp
    · rw [if_neg hqueued]
      exact release_does hsingle hget hpc hheld (by simpa using hqueued)

/-- What a hold does is nothing to another container. -/
theorem advance_moves_other (hget : sys.holds[index]? = some hold) {act : HoldAct}
    (hne : id ≠ hold.id) :
    Moves id (sys.place id) ((sys.advance index hold act).place id) := by
  have hsame : Moves id (sys.place id) (sys.place id) := .quiet [] sys.store nofun le_rfl
  have hmove : ∀ (hold' : Hold) (entries : List Entry), hold'.id = hold.id →
      (∀ entry ∈ entries, entry.subject = some hold.id) →
      Moves id (sys.place id) ((sys.move index hold' entries).place id) := by
    intro hold' entries hid hentries
    rw [place_move_other hget hid entries hne]
    exact .quiet entries sys.store (fun entry h => foreign_of_subject (hentries entry h) hne) le_rfl
  have hone : ∀ entry : Entry, entry.subject = some hold.id →
      ∀ entry' ∈ [entry], entry'.subject = some hold.id :=
    fun entry hentry => List.forall_mem_singleton.mpr hentry
  cases act with
  | beginTerminate =>
    rw [System.advance]
    split
    · exact hmove _ _ rfl (hone _ rfl)
    · exact hsame
  | endTerminate =>
    rw [System.advance]
    split
    · exact hmove _ _ rfl (hone _ rfl)
    · exact hsame
  | readKey started => exact hmove _ _ rfl (hone _ rfl)
  | begin wall =>
    rw [System.advance]
    split
    · exact hmove _ _ rfl (hone _ rfl)
    · exact hsame
  | load =>
    rw [System.advance]
    split
    · exact hmove _ _ rfl (hone _ rfl)
    · exact hsame
  | finish outcome =>
    rw [System.advance]
    split
    · exact hmove _ _ rfl (hone _ rfl)
    · exact hmove _ _ rfl (hone _ rfl)
    · exact hsame
  | settle now =>
    rw [System.advance]
    split
    next key started outcome _ =>
      have h := hmove { hold with pc := .settled started outcome, failed := outcome ≠ .ok }
        [.settled hold.id outcome] rfl (hone _ rfl)
      convert h using 1
      obtain ⟨pending, hrest⟩ := settle_rest sys.state hold.id key outcome.good now
      have hpending := settle_pending sys.state hold.id id key outcome.good now
      rw [if_neg hne, hrest] at hpending
      simp only [System.place, hrest, System.move, System.holdOf]
      rw [show pending.get id = sys.state.pending.get id from hpending]
    next => exact hsame
  | mark =>
    rw [System.advance]
    split
    next started outcome _ =>
      have h := hmove { hold with pc := .done } [] rfl nofun
      convert h using 1
      simp only [System.place, System.move, System.holdOf]
      split
      · rw [Table.get_insert_of_ne hne]
      · rfl
    next => exact hsame
  | next now =>
    rw [System.advance]
    cases hheld : sys.state.inFlight.get hold.id with
    | none =>
      convert hsame using 1
      simp only [System.place, System.holdOf]
      rw [find_eraseIdx_of_ne hget hne]
    | some held =>
      by_cases hqueued : held.queued = true
      · have h := hmove { hold with pc := .begin held.reconcile held.terminateAt }
          [.resumed hold.id held.reconcile held.terminateAt now] rfl (hone _ rfl)
        convert h using 1
        simp only [hqueued, if_true, System.place, System.move, System.holdOf]
        rw [Table.get_insert_of_ne hne]
      · obtain ⟨entries, hforeign, hplace⟩ := release_place sys index hold held
        simp only [hqueued, Bool.false_eq_true, if_false]
        refine moves_quiet (entries ++ [.released hold.id held]) ?_ le_rfl ?_
        · refine List.forall_mem_append.mpr ⟨hforeign id, ?_⟩
          exact List.forall_mem_singleton.mpr (foreign_of_subject rfl hne)
        · rw [hplace, find_eraseIdx_of_ne hget hne, Table.get_erase_of_ne hne, List.append_assoc]
          rfl

theorem skip_moves (sys : System) (target : ContainerId) (eventTime : Timestamp) (now : Instant)
    (id : ContainerId) :
    Moves id (sys.place id) ((sys.apply (.skip target eventTime now)).place id) := by
  have hsame : Moves id (sys.place id) (sys.place id) := .quiet [] sys.store nofun le_rfl
  rw [System.apply, State.skipEvent]
  cases hprocessed : sys.state.processed.get target with
  | none => exact hsame
  | some inspected =>
    by_cases hcovered : (!State.expired now inspected && decide (eventTime ≤ inspected.wall)) = true
    · by_cases hid : id = target
      · subst hid
        have hle : eventTime ≤ inspected.wall :=
          of_decide_eq_true (Bool.and_eq_true_iff.mp hcovered).2
        have h : Moves id (sys.place id) _ := .skip eventTime ⟨hprocessed, hle⟩
        convert h using 1
        simp [System.place, System.holdOf, hcovered]
      · refine moves_quiet [.skipped target eventTime]
          (List.forall_mem_singleton.mpr (foreign_of_subject rfl hid)) le_rfl ?_
        simp [System.place, System.holdOf, hcovered, Table.get_erase_of_ne hid]
    · by_cases hid : id = target
      · subst hid
        have h : Moves id (sys.place id) _ := .forget
        convert h using 1
        simp [System.place, System.holdOf, hcovered]
      · convert hsame using 1
        simp [System.place, System.holdOf, hcovered, Table.get_erase_of_ne hid]

/-- A visit leaves the container's work to its hold, or starts one. -/
theorem visit_does (hsingle : sys.Single) (key : PassKey) (listed rest : List ContainerId)
    (target : ContainerId) (now : Timestamp) (id : ContainerId) :
    Does id (sys.place id)
      (System.place { sys.reserve target none false now with
        pc := .visiting key listed rest
        log := .visited key target :: (sys.reserve target none false now).log } id) := by
  refine .logged [.visited key target] (reserve_moves sys target none false now nofun id) ?_
  by_cases hid : id = target
  · subst hid
    cases hheld : sys.state.inFlight.get id with
    | none =>
      refine Moves.visit key (?_ : _ = some (.claim false now))
        (?_ : _ = some (.start id none false)) (.inr rfl)
      · simp [System.place, System.reserve, hheld]
      · simp [System.place, System.reserve, System.holdOf, Hold.start, hheld]
    | some held =>
      obtain ⟨hold, hhold⟩ := holdOf_of_reserved hsingle hheld
      refine Moves.visit key (?_ : _ = some (held.ask none false)) (?_ : _ = some hold) (.inl rfl)
      · simp [System.place, System.reserve, hheld]
      · simpa [System.place, System.reserve, System.holdOf, hheld] using hhold
  · exact .quiet [.visited key target] (sys.reserve target none false now).store
      (List.forall_mem_singleton.mpr (foreign_of_subject rfl hid)) le_rfl

/-- Whatever is done anywhere, the place of a container changes by moves. -/
theorem place_step (hsingle : sys.Single) {act : Act} (henabled : sys.enabled act = true)
    (id : ContainerId) :
    Does id (sys.place id) ((sys.apply act).place id) := by
  -- Most acts of the run loop and of the callers do not touch a container, or only log an
  -- announcement.
  have hquiet : ∀ {sys' : System} (entries : List Entry), sys.store ≤ sys'.store →
      (∀ entry ∈ entries, entry.Foreign id) →
      sys'.place id = { sys.place id with store := sys'.store, log := entries ++ sys.log } →
      Does id (sys.place id) (sys'.place id) :=
    fun entries hstore hforeign h => .once (moves_quiet entries hforeign hstore h)
  have hreport : ∀ {sys' : System} (state : State), sys'.place id =
      { sys.place id with log := (sys.put state).log } →
        Does id (sys.place id) (sys'.place id) := by
    intro sys' state h
    obtain ⟨entries, hentries, hforeign⟩ := put_log sys state
    rw [h, hentries]
    exact .once (.quiet entries sys.store (hforeign id) le_rfl)
  cases act with
  | publish => exact hquiet [] (Nat.le_succ _) nofun rfl
  | request number =>
    exact .once (.request (generationOf number)
      ((toNat_generationOf_le number).trans (of_decide_eq_true henabled)))
  | start target eventTime now =>
    exact .once (reserve_moves sys target (some eventTime) false now nofun id)
  | endRun target eventTime now =>
    exact .once (reserve_moves sys target (some eventTime) true now (fun _ => nofun) id)
  | notify | cancel | eventNotify | eventDrop | check | nextDue | wake | listRetry | retryDue
  | sweep | stop
  | superseded | retryCancel => exact hquiet [] le_rfl nofun rfl
  | skip target eventTime now => exact .once (skip_moves sys target eventTime now id)
  | prune now =>
    cases hprocessed : (sys.state.processed.get id).filter fun inspected =>
      !State.expired now inspected with
    | none =>
      have h : Moves id (sys.place id) _ := .forget
      refine .once ?_
      convert h using 1
      exact congrArg (fun processed => { sys.place id with processed := processed }) hprocessed
    | some inspected =>
      refine hquiet [] le_rfl nofun ?_
      have hkept := (Option.filter_eq_some_iff.mp hprocessed).1
      exact congrArg (fun processed => { sys.place id with processed := processed })
        (hprocessed.trans hkept.symm)
  | takeRequest =>
    rw [System.apply]
    split
    · exact hquiet [.taken _] le_rfl (List.forall_mem_singleton.mpr ⟨nofun, nofun⟩) rfl
    · exact hquiet [] le_rfl nofun rfl
  | armPrune | listed | visit =>
    rw [System.apply]
    split
    · exact hquiet [] le_rfl nofun rfl
    · exact hquiet [] le_rfl nofun rfl
  | listFailed now =>
    obtain ⟨announced, hrest⟩ := reportLocked_rest sys.state
    refine hreport sys.state.reportLocked ?_
    rw [System.apply, hrest]
    rfl
  | retryDone =>
    obtain ⟨announced, hrest⟩ := reportLocked_rest sys.state
    refine hreport sys.state.reportLocked ?_
    rw [System.apply, hrest]
    rfl
  | reserveVisit now =>
    rw [System.apply]
    split
    next key listed target rest _ => exact visit_does hsingle key listed rest target now id
    next => exact hquiet [] le_rfl nofun rfl
  | finishPass =>
    rw [System.apply]
    split
    next key listed rest _ =>
      obtain ⟨announced, hrest⟩ := finishPass_rest sys.state key
      obtain ⟨entries, hentries, hforeign⟩ :=
          put_log { sys with log := .passed key listed :: sys.log }
        { sys.state with
          incomplete := if key = sys.state.latest then false else sys.state.incomplete
          announced := announced }
      refine hquiet (entries ++ [.passed key listed]) le_rfl ?_ ?_
      · exact List.forall_mem_append.mpr ⟨hforeign id, List.forall_mem_singleton.mpr ⟨nofun, nofun⟩⟩
      · rw [List.append_assoc]
        simp only [hrest, System.place, hentries]
        rfl
    next => exact hquiet [] le_rfl nofun rfl
  | retryNext now =>
    rw [System.apply]
    split
    next target rest _ => exact .once (reserve_moves sys target none false now nofun id)
    next => exact hquiet [] le_rfl nofun rfl
  | hold index act =>
    rw [System.apply]
    cases hget : sys.holds[index]? with
    | none => exact hquiet [] le_rfl nofun rfl
    | some hold =>
      by_cases hid : id = hold.id
      · subst hid
        exact advance_does_self hsingle hget (by simpa [System.enabled, hget] using henabled)
      · exact .once (advance_moves_other hget hid)

end Step

/-! ## Runs -/

section Runs

variable {sys sys' : System} {act : Act} {past : List (System × Act)}

theorem single_new (store : Nat) : (System.new store).Single :=
  ⟨.nil, fun _ => iff_of_false nofun nofun⟩

theorem place_new (store : Nat) (id : ContainerId) :
    (System.new store).place id = ⟨⟨0, 0⟩, store, none, none, none, none, []⟩ := rfl

theorem System.Single.of_eq (h : sys.Single) (hholds : sys'.holds = sys.holds)
    (hheld : sys'.state.inFlight = sys.state.inFlight) : sys'.Single :=
  ⟨hholds ▸ h.nodup, by rw [hholds, hheld]; exact h.reserved⟩

private theorem map_id_set {holds : List Hold} {index : Nat} {hold hold' : Hold}
    (hget : holds[index]? = some hold) (hid : hold'.id = hold.id) :
    (holds.set index hold').map Hold.id = holds.map Hold.id := by
  obtain ⟨front, back, rfl, -, hset⟩ := split_at hget
  rw [hset, List.map_append, List.map_append, List.map_cons, List.map_cons, hid]

theorem System.Single.insert (h : sys.Single) {id : ContainerId} {held held' : Reservation}
    (hheld : sys.state.inFlight.get id = some held)
    (hholds : sys'.holds.map Hold.id = sys.holds.map Hold.id)
    (hinsert : sys'.state.inFlight = sys.state.inFlight.insert id held') : sys'.Single := by
  refine ⟨hholds ▸ h.nodup, fun other => ?_⟩
  rw [hholds, hinsert, ← h.reserved other]
  by_cases hother : other = id
  · subst hother
    rw [Table.get_insert_self, hheld]
    exact Iff.rfl
  · rw [Table.get_insert_of_ne hother]

theorem System.Single.reserve (h : sys.Single) (id : ContainerId) (eventTime : Option Timestamp)
    (terminal : Bool) (now : Timestamp) : (sys.reserve id eventTime terminal now).Single := by
  rw [System.reserve]
  cases hheld : sys.state.inFlight.get id with
  | some held => exact h.insert hheld rfl rfl
  | none =>
    have hnot : id ∉ sys.holds.map Hold.id := fun hmem => by
      have := (h.reserved id).mpr hmem
      rw [hheld] at this
      cases this
    refine ⟨List.nodup_cons.mpr ⟨hnot, h.nodup⟩, fun other => ?_⟩
    by_cases hother : other = id
    · subst hother
      simp
    · simp only [Table.get_insert_of_ne hother, List.map_cons, List.mem_cons, hother, false_or]
      exact h.reserved other

theorem System.Single.advance (h : sys.Single) {index : Nat} {hold : Hold}
    (hget : sys.holds[index]? = some hold) (act : HoldAct) :
    (sys.advance index hold act).Single := by
  have hmove : ∀ {sys' : System} {hold' : Hold}, sys'.holds = sys.holds.set index hold' →
    hold'.id = hold.id →
      sys'.state.inFlight = sys.state.inFlight → sys'.Single := by
    intro sys' hold' hholds hid hheld
    have hids : sys'.holds.map Hold.id = sys.holds.map Hold.id := by
      rw [hholds, map_id_set hget hid]
    exact ⟨hids ▸ h.nodup, by rw [hids, hheld]; exact h.reserved⟩
  cases act with
  | beginTerminate | endTerminate | begin | load =>
    rw [System.advance]
    split
    · exact hmove rfl rfl rfl
    · exact h
  | readKey => exact hmove rfl rfl rfl
  | finish outcome =>
    rw [System.advance]
    split
    · exact hmove rfl rfl rfl
    · exact hmove rfl rfl rfl
    · exact h
  | settle now =>
    rw [System.advance]
    split
    next key started outcome _ =>
      obtain ⟨pending, hrest⟩ := settle_rest sys.state hold.id key outcome.good now
      exact hmove rfl rfl (by simp only [hrest])
    next => exact h
  | mark =>
    rw [System.advance]
    split
    · exact hmove rfl rfl rfl
    · exact h
  | next now =>
    rw [System.advance]
    have hsome := (h.reserved hold.id).mpr (List.mem_map_of_mem (List.mem_of_getElem? hget))
    obtain ⟨held, hheld⟩ := Option.isSome_iff_exists.mp hsome
    simp only [hheld]
    by_cases hqueued : held.queued = true
    · rw [if_pos hqueued]
      exact h.insert hheld (map_id_set hget rfl) rfl
    · rw [if_neg hqueued]
      obtain ⟨entries, -, hplace⟩ := release_place sys index hold held
      obtain ⟨front, back, hsplit, herase, -⟩ := split_at hget
      have hnodup : (hold.id :: (front ++ back).map Hold.id).Nodup := by
        have := h.nodup
        rw [hsplit, List.map_append, List.map_cons, List.nodup_middle, ← List.map_append] at this
        exact this
      have hholds : (sys.release index hold held).holds = front ++ back := herase
      refine ⟨hholds ▸ (List.nodup_cons.mp hnodup).2, fun other => ?_⟩
      have hget' : (sys.release index hold held).state.inFlight.get other =
          (sys.state.inFlight.erase hold.id).get other := congrArg Place.held (hplace other)
      rw [hget', hholds]
      by_cases hother : other = hold.id
      · subst hother
        rw [Table.get_erase_self]
        exact iff_of_false nofun (List.nodup_cons.mp hnodup).1
      · rw [Table.get_erase_of_ne hother, h.reserved other, hsplit]
        simp [hother]

theorem System.Single.apply (h : sys.Single) (act : Act) : (sys.apply act).Single := by
  cases act with
  | publish | request | notify | cancel | eventNotify | eventDrop | check | nextDue | wake
  | listRetry | retryDue
  | prune | sweep | stop | superseded | retryCancel => exact h.of_eq rfl rfl
  | start id eventTime now => exact h.reserve id (some eventTime) false now
  | endRun id eventTime now => exact h.reserve id (some eventTime) true now
  | skip id eventTime now =>
    rw [System.apply, State.skipEvent]
    cases sys.state.processed.get id with
    | none => exact h.of_eq rfl rfl
    | some inspected => exact h.of_eq rfl rfl
  | takeRequest | armPrune | listed | visit =>
    rw [System.apply]
    split
    · exact h.of_eq rfl rfl
    · exact h.of_eq rfl rfl
  | listFailed | retryDone =>
    obtain ⟨announced, hrest⟩ := reportLocked_rest sys.state
    rw [System.apply, hrest]
    exact h.of_eq rfl rfl
  | reserveVisit now =>
    rw [System.apply]
    split
    next key listed id rest _ => exact (h.reserve id none false now).of_eq rfl rfl
    next => exact h
  | retryNext now =>
    rw [System.apply]
    split
    next id rest _ => exact (h.reserve id none false now).of_eq rfl rfl
    next => exact h
  | finishPass =>
    rw [System.apply]
    split
    next key listed rest _ =>
      obtain ⟨announced, hrest⟩ := finishPass_rest sys.state key
      rw [hrest]
      exact h.of_eq rfl rfl
    next => exact h
  | hold index act =>
    rw [System.apply]
    cases hget : sys.holds[index]? with
    | none => exact h
    | some hold => exact h.advance hget act

theorem Runs.single (h : Runs sys past sys') (hs : sys.Single) : sys'.Single :=
  (h.invariant System.Single (fun _ act hi _ => System.Single.apply hi act) hs).1

/-- Over a run the place of a container changes by moves. -/
theorem Runs.reaches (h : Runs sys past sys') (hs : sys.Single) (id : ContainerId) :
    Reaches id (sys.place id) (sys'.place id) := by
  induction h with
  | nil => exact .refl
  | cons run enabled ih => exact ih.trans (place_step (Runs.single run hs) enabled id).reaches

end Runs

/-! ## Interleavings -/

/-- An act that cannot happen is left out. -/
def System.step (sys : System) (act : Act) : System :=
  if sys.enabled act then sys.apply act else sys

/-- The system after acts in this order. -/
def System.run (sys : System) (acts : List Act) : System := acts.foldl System.step sys

theorem run_step (sys : System) (acts : List Act) (act : Act) :
    (sys.run acts).step act = sys.run (acts ++ [act]) := by
  rw [System.run, System.run, List.foldl_append]
  rfl

theorem run_runs (sys : System) (acts : List Act) : ∃ past, Runs sys past (sys.run acts) := by
  induction acts generalizing sys with
  | nil => exact ⟨[], .nil sys⟩
  | cons act acts ih =>
    obtain ⟨past, hrun⟩ := ih (sys.step act)
    by_cases henabled : sys.enabled act = true
    · have hfirst : Runs sys [(sys, act)] (sys.step act) := by
        rw [System.step, if_pos henabled]
        exact Run.single henabled
      exact ⟨_, hfirst.append hrun⟩
    · have hstep : sys.run (act :: acts) = sys.run acts := by
        rw [System.run, List.foldl_cons, System.step, if_neg henabled]
        rfl
      rw [hstep]
      exact ih sys

theorem run_single (store : Nat) (acts : List Act) : ((System.new store).run acts).Single := by
  obtain ⟨past, hrun⟩ := run_runs (System.new store) acts
  exact hrun.single (single_new store)

theorem run_reaches (store : Nat) (acts : List Act) (id : ContainerId) :
    Reaches id ((System.new store).place id) (((System.new store).run acts).place id) := by
  obtain ⟨past, hrun⟩ := run_runs (System.new store) acts
  exact hrun.reaches (single_new store) id

end Daemon
end Sda
