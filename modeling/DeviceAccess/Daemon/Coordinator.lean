import DeviceAccess.Lib.Table
import DeviceAccess.Processor.Lifecycle

/-!
# The coordinator (`src/daemon/coordinator.rs`)

One task runs passes and retries (`RunPc`), tasks of their own do the work for a reserved container
(`Hold`), and events and requests come in between. Each section under the coordinator's lock is a
function on `State`; `System` adds the tasks with their positions, the wake permit, and what the
callers still owe. An `Act` is one section or one call of one of the tasks, so that a run of acts is
an interleaving.

The wait of `reconcile_container` for its hold is left out: a pass or a retry goes on as soon as the
hold is started. That allows more interleavings than the code has.

`log` records what was done, the last entry first. Nothing reads it.

Trigger epochs and generations have 64 bits and wrap. `store` counts the published configs without
wrapping, so that it can be said that a run does not publish too many.
-/

namespace Sda
namespace Daemon

open Processor (ContainerId Timestamp)

/-- Nanoseconds of the monotonic clock. -/
abbrev Instant := Int

/-- Nanoseconds. -/
abbrev Duration := Int

def second : Duration := 1000000000

def minBackoff : Duration := second

def maxBackoff : Duration := 30 * second

/-- How long an enumerated container's entry suppresses a start event. -/
def processedTtl : Duration := 60 * second

/-! ## State -/

/-- The generation of the config that was published as this number. -/
def generationOf (number : Nat) : BitVec 64 := BitVec.ofNat 64 number

/-- What a pass reconciles for. -/
structure PassKey where
  generation : BitVec 64
  epoch : BitVec 64
  deriving DecidableEq, Repr

/-- The key of a request after `latest`. The higher generation is kept. -/
def PassKey.request (latest : PassKey) (generation : BitVec 64) : PassKey :=
  ⟨if latest.generation ≤ generation then generation else latest.generation, latest.epoch + 1⟩

/-- A container whose last reconcile failed. -/
structure PendingEntry where
  key : PassKey
  backoff : Duration
  due : Instant
  deriving DecidableEq, Repr

/-- When an enumeration inspected a container, on both clocks. -/
structure Inspected where
  wall : Timestamp
  monotonic : Instant
  deriving DecidableEq, Repr

/-- Marks a container as being handled and collects the work requested for it meanwhile. -/
structure Reservation where
  /-- When the current reconcile began; nothing while the holder only cleans up. -/
  applyStart : Option Timestamp
  /-- The holder's work includes a reconcile. -/
  running : Bool
  /-- Another reconcile is asked for. -/
  reconcile : Bool
  /-- The latest end of a run received meanwhile. -/
  terminateAt : Option Timestamp
  deriving DecidableEq, Repr

/-- What the coordinator lock guards. -/
structure State where
  latest : PassKey
  /-- No pass has started for `latest`. -/
  dirty : Bool
  /-- From a request until a pass for the latest request has visited every listed container. -/
  incomplete : Bool
  /-- The request whose completion was last logged. -/
  announced : PassKey
  pending : Table ContainerId PendingEntry
  processed : Table ContainerId Inspected
  inFlight : Table ContainerId Reservation

namespace Reservation

/-- What `reserve` makes of a container that is not handled. -/
def claim (terminal : Bool) (now : Timestamp) : Reservation :=
  ⟨if terminal then none else some now, !terminal, false, none⟩

/-- What `reserve` leaves to the holder. -/
def ask (held : Reservation) (eventTime : Option Timestamp) (terminal : Bool) : Reservation :=
  if terminal then
    match eventTime with
    | some eventTime =>
      if held.terminateAt.all (· < eventTime) then { held with terminateAt := some eventTime }
      else held
    | none => held
  else
    match eventTime, held.applyStart with
    | some eventTime, some applyStart =>
      if applyStart < eventTime then { held with reconcile := true } else held
    | _, _ => { held with reconcile := true }

def queued (held : Reservation) : Bool := held.reconcile || held.terminateAt.isSome

/-- The reservation once the holder took what was queued. -/
def resume (held : Reservation) (now : Timestamp) : Reservation :=
  ⟨if held.reconcile then some now else none, held.reconcile, false, none⟩

end Reservation

namespace State

variable (state : State)

/-- No request yet. -/
def new : State := ⟨⟨0, 0⟩, false, false, ⟨0, 0⟩, .empty, .empty, .empty⟩

def request (generation : BitVec 64) : State :=
  let latest := state.latest.request generation
  { state with
    latest := latest
    dirty := true
    incomplete := true
    pending := state.pending.map ({ · with key := latest }) }

/-- `announce_locked`: logs completion once per request, when nothing is left for it. -/
def announceLocked : State :=
  if state.incomplete || !state.pending.isEmpty || state.announced = state.latest then state
  else if state.inFlight.any fun held => held.reconcile || held.running then state
  else { state with announced := state.latest }

def reportLocked : State :=
  if state.incomplete || !state.pending.isEmpty then state else state.announceLocked

/-- `settle`: records a reconcile that started under `key`. `good` is success or that the container
is gone. -/
def settle (id : ContainerId) (key : PassKey) (good : Bool) (now : Instant) : State :=
  match state.pending.get id with
  | some entry =>
    if good then
      if entry.key = key then { state with pending := state.pending.erase id }
      else { state with pending := state.pending.insert id { entry with due := now } }
    else
      let backoff := min (entry.backoff * 2) maxBackoff
      { state with pending := state.pending.insert id ⟨entry.key, backoff, now + backoff⟩ }
  | none =>
    if good then state
    else
      { state with
        pending := state.pending.insert id ⟨state.latest, minBackoff, now + minBackoff⟩ }

def finishPass (key : PassKey) : State :=
  if key = state.latest then reportLocked { state with incomplete := false } else state.reportLocked

/-- `next_due`: when the next pending container that is not reserved is due. -/
def nextDue : Option Instant :=
  let dues := state.pending.keys.filterMap fun id =>
    if (state.inFlight.get id).isSome then none else (state.pending.get id).map (·.due)
  dues.min?

/-- `due_ids`: the pending containers that are due and not reserved. -/
def dueIds (now : Instant) : List ContainerId :=
  state.pending.keys.filter fun id =>
    (state.inFlight.get id).isNone && (state.pending.get id).any fun entry => entry.due ≤ now

/-- Whether an entry is older than the time it counts for. -/
def expired (now : Instant) (inspected : Inspected) : Bool :=
  processedTtl < max 0 (now - inspected.monotonic)

/-- `skip_event`: whether an enumeration already covered the event. The entry is consumed. -/
def skipEvent (id : ContainerId) (eventTime : Timestamp) (now : Instant) : Bool × State :=
  match state.processed.get id with
  | none => (false, state)
  | some inspected =>
    (!expired now inspected && eventTime ≤ inspected.wall,
      { state with processed := state.processed.erase id })

end State

/-! ## Tasks -/

/-- How a reconcile ended. -/
inductive Outcome where
  | ok
  /-- Docker no longer knows the container. -/
  | gone
  | failed
  deriving DecidableEq, Repr

def Outcome.good : Outcome → Bool
  | .ok | .gone => true
  | .failed => false

/-- Where a hold is in its loop. -/
inductive HoldPc where
  /-- Before the terminate call. -/
  | work (reconcile : Bool) (eventTime : Timestamp)
  | terminating (reconcile : Bool) (eventTime : Timestamp)
  /-- Before the reconcile. -/
  | cleaned
  | keyed (key : PassKey) (started : Inspected)
  | reconciling (key : PassKey) (started : Inspected)
  /-- The config is loaded, under the processor's lock. -/
  | loaded (key : PassKey) (started : Inspected)
  | reconciled (key : PassKey) (started : Inspected) (outcome : Outcome)
  | settled (started : Inspected) (outcome : Outcome)
  /-- Before `next`. -/
  | done
  deriving DecidableEq, Repr

/-- Where an iteration continues after its cleanup. -/
def HoldPc.after (reconcile : Bool) : HoldPc := if reconcile then .cleaned else .done

/-- Where an iteration begins. -/
def HoldPc.begin (reconcile : Bool) (terminateAt : Option Timestamp) : HoldPc :=
  match terminateAt with
  | some eventTime => .work reconcile eventTime
  | none => .after reconcile

/-- The work for a reserved container. -/
structure Hold where
  id : ContainerId
  /-- The reconcile comes from an enumeration. -/
  enumerated : Bool
  /-- A start event waits for the hold. -/
  byEvent : Bool
  /-- The last reconcile failed. -/
  failed : Bool
  pc : HoldPc
  deriving DecidableEq, Repr

/-- Where the run loop is. -/
inductive RunPc where
  | top
  /-- The context was not done. -/
  | ready
  | idle
  | armed (retry : Option Instant)
  /-- In the select, with the retry deadline. -/
  | waiting (retry : Option Instant)
  | listing (key : PassKey)
  | visiting (key : PassKey) (listed rest : List ContainerId)
  /-- The pass was not superseded before this container. -/
  | reserving (key : PassKey) (listed : List ContainerId) (id : ContainerId)
    (rest : List ContainerId)
  | retrying (ids : List ContainerId)
  | stopped
  deriving DecidableEq, Repr

/-- What was done. -/
inductive Entry where
  | requested (key : PassKey)
  | taken (key : PassKey)
  | visited (key : PassKey) (id : ContainerId)
  | passed (key : PassKey) (ids : List ContainerId)
  | announced (key : PassKey)
  /-- A container that was not handled is reserved for work, with the time read before. -/
  | claimed (id : ContainerId) (reconcile : Bool) (terminateAt : Option Timestamp) (now : Timestamp)
  /-- A reconcile was requested for a container that is held. -/
  | asked (id : ContainerId) (eventTime applyStart : Option Timestamp)
  /-- A termination was requested for a container that is held. -/
  | askedEnd (id : ContainerId) (eventTime : Timestamp)
  /-- `next` gave more work, with the time read before. -/
  | resumed (id : ContainerId) (reconcile : Bool) (terminateAt : Option Timestamp) (now : Timestamp)
  | terminateBegan (id : ContainerId) (eventTime : Timestamp)
  | terminateEnded (id : ContainerId) (eventTime : Timestamp)
  /-- The time before a reconcile was read. -/
  | keyed (id : ContainerId) (wall : Timestamp)
  /-- A reconcile began when `latest` was the newest request and the wall clock showed `wall`. -/
  | began (id : ContainerId) (latest : PassKey) (wall : Timestamp)
  | loaded (id : ContainerId) (generation : BitVec 64)
  | ended (id : ContainerId) (outcome : Outcome)
  | settled (id : ContainerId) (outcome : Outcome)
  | released (id : ContainerId) (held : Reservation)
  /-- A start event was dropped: an enumeration covered it. -/
  | skipped (id : ContainerId) (eventTime : Timestamp)
  deriving DecidableEq, Repr

/-- The coordinator with its tasks and callers. -/
structure System where
  state : State
  /-- A wake notification is outstanding. -/
  permit : Bool
  /-- The number of the config in force. -/
  store : Nat
  canceled : Bool
  holds : List Hold
  pc : RunPc
  listBackoff : Duration
  listRetry : Option Instant
  prune : Option Instant
  /-- Calls of `request` between the change of the state and the notification. -/
  requesting : Nat
  /-- Calls of `handle_event` whose hold failed and that have not notified yet. -/
  failing : Nat
  log : List Entry

/-- A section or a call of a hold. -/
inductive HoldAct where
  | beginTerminate
  | endTerminate
  | readKey (started : Inspected)
  /-- The code reads no clock here; `wall` is what it would show. -/
  | begin (wall : Timestamp)
  | load
  | finish (outcome : Outcome)
  | settle (now : Instant)
  | mark
  | next (now : Timestamp)
  deriving DecidableEq, Repr

/-- A section or a call of one of the tasks. The times are what its clock reads. -/
inductive Act where
  | publish
  /-- For the generation of the config of this number, or for 0. -/
  | request (number : Nat)
  | notify
  | cancel
  | start (id : ContainerId) (eventTime now : Timestamp)
  | endRun (id : ContainerId) (eventTime now : Timestamp)
  | skip (id : ContainerId) (eventTime : Timestamp) (now : Instant)
  | eventNotify
  | eventDrop
  | check
  | takeRequest
  | nextDue
  | armPrune (now : Instant)
  | wake
  | listRetry (now : Instant)
  | retryDue (now : Instant)
  | prune (now : Instant)
  | sweep
  | stop
  | listed (ids : List ContainerId)
  | listFailed (now : Instant)
  | superseded
  | visit
  | reserveVisit (now : Timestamp)
  | finishPass
  | retryNext (now : Timestamp)
  | retryDone
  | retryCancel
  | hold (index : Nat) (act : HoldAct)
  deriving DecidableEq, Repr

/-! ## What an act does -/

namespace System

variable (sys : System)

def new (store : Nat) : System :=
  ⟨.new, false, store, false, [], .top, minBackoff, none, none, 0, 0, []⟩

/-- A new state, and the log of the completion if it was announced. -/
def put (state : State) : System :=
  { sys with
    state := state
    log :=
      if state.announced = sys.state.announced then sys.log
      else .announced state.announced :: sys.log }

/-- `reserve`, and the start of the hold if the container was not handled. -/
def reserve (id : ContainerId) (eventTime : Option Timestamp) (terminal : Bool) (now : Timestamp) :
    System :=
  match sys.state.inFlight.get id with
  | none =>
    { sys with
      state := { sys.state with inFlight := sys.state.inFlight.insert id (.claim terminal now) }
      holds := ⟨id, eventTime.isNone, !terminal && eventTime.isSome, false,
        .begin (!terminal) (if terminal then eventTime else none)⟩ :: sys.holds
      log := .claimed id (!terminal) (if terminal then eventTime else none) now :: sys.log }
  | some held =>
    { sys with
      state := { sys.state with
        inFlight := sys.state.inFlight.insert id (held.ask eventTime terminal) }
      log := (match terminal, eventTime with
        | true, some eventTime => .askedEnd id eventTime
        | _, _ => .asked id eventTime held.applyStart) :: sys.log }

/-- A hold moves on. -/
def move (index : Nat) (hold : Hold) (entries : List Entry) : System :=
  { sys with holds := sys.holds.set index hold, log := entries ++ sys.log }

/-- The section of `next` that releases the reservation. -/
def release (index : Nat) (hold : Hold) (held : Reservation) : System :=
  let state := State.announceLocked { sys.state with inFlight := sys.state.inFlight.erase hold.id }
  { ({ sys with log := .released hold.id held :: sys.log } : System).put state with
    holds := sys.holds.eraseIdx index
    permit := sys.permit || (sys.state.pending.get hold.id).isSome
    failing := if hold.byEvent && hold.failed then sys.failing + 1 else sys.failing }

/-- What a hold does. -/
def advance (index : Nat) (hold : Hold) : HoldAct → System
  | .beginTerminate =>
    match hold.pc with
    | .work reconcile eventTime =>
      sys.move index { hold with pc := .terminating reconcile eventTime }
        [.terminateBegan hold.id eventTime]
    | _ => sys
  | .endTerminate =>
    match hold.pc with
    | .terminating reconcile eventTime =>
      sys.move index { hold with pc := .after reconcile } [.terminateEnded hold.id eventTime]
    | _ => sys
  | .readKey started =>
    sys.move index { hold with pc := .keyed sys.state.latest started } [.keyed hold.id started.wall]
  | .begin wall =>
    match hold.pc with
    | .keyed key started =>
      sys.move index { hold with pc := .reconciling key started }
        [.began hold.id sys.state.latest wall]
    | _ => sys
  | .load =>
    match hold.pc with
    | .reconciling key started =>
      sys.move index { hold with pc := .loaded key started }
        [.loaded hold.id (generationOf sys.store)]
    | _ => sys
  | .finish outcome =>
    match hold.pc with
    | .reconciling key started | .loaded key started =>
      sys.move index { hold with pc := .reconciled key started outcome } [.ended hold.id outcome]
    | _ => sys
  | .settle now =>
    match hold.pc with
    | .reconciled key started outcome =>
      { sys.move index { hold with pc := .settled started outcome, failed := outcome ≠ .ok }
          [.settled hold.id outcome] with
        state := sys.state.settle hold.id key outcome.good now }
    | _ => sys
  | .mark =>
    match hold.pc with
    | .settled started outcome =>
      let processed :=
        if outcome = .ok && hold.enumerated then sys.state.processed.insert hold.id started
        else sys.state.processed
      { sys.move index { hold with pc := .done } [] with
        state := { sys.state with processed := processed } }
    | _ => sys
  | .next now =>
    match sys.state.inFlight.get hold.id with
    | none =>
      { sys with
        holds := sys.holds.eraseIdx index
        failing := if hold.byEvent && hold.failed then sys.failing + 1 else sys.failing }
    | some held =>
      if held.queued then
        { sys.move index { hold with pc := .begin held.reconcile held.terminateAt }
            [.resumed hold.id held.reconcile held.terminateAt now] with
          state := { sys.state with
            inFlight := sys.state.inFlight.insert hold.id (held.resume now) } }
      else sys.release index hold held

def apply : Act → System
  | .publish => { sys with store := sys.store + 1 }
  | .request number =>
    let state := sys.state.request (generationOf number)
    { sys with
      state := state
      requesting := sys.requesting + 1
      log := .requested state.latest :: sys.log }
  | .notify => { sys with permit := true, requesting := sys.requesting - 1 }
  | .cancel => { sys with canceled := true }
  | .start id eventTime now => sys.reserve id (some eventTime) false now
  | .endRun id eventTime now => sys.reserve id (some eventTime) true now
  | .skip id eventTime now =>
    let (covered, state) := sys.state.skipEvent id eventTime now
    { sys with
      state := state
      log := if covered then .skipped id eventTime :: sys.log else sys.log }
  | .eventNotify => { sys with permit := true, failing := sys.failing - 1 }
  | .eventDrop => { sys with failing := sys.failing - 1 }
  | .check => { sys with pc := if sys.canceled then .stopped else .ready }
  | .takeRequest =>
    if sys.state.dirty then
      { sys with
        state := { sys.state with dirty := false }
        pc := .listing sys.state.latest
        log := .taken sys.state.latest :: sys.log }
    else { sys with pc := .idle }
  | .nextDue => { sys with pc := .armed sys.state.nextDue }
  | .armPrune now =>
    match sys.pc with
    | .armed retry =>
      { sys with
        pc := .waiting retry
        prune := match sys.prune with
          | some deadline => some deadline
          | none => if sys.state.processed.isEmpty then none else some (now + processedTtl) }
    | _ => sys
  | .wake => { sys with permit := false, pc := .top }
  | .listRetry _ =>
    { sys with listRetry := none, state := { sys.state with dirty := true }, pc := .top }
  | .retryDue now => { sys with pc := .retrying (sys.state.dueIds now) }
  | .prune now =>
    { sys with
      prune := none
      pc := .top
      state := { sys.state with
        processed := sys.state.processed.retain fun _ inspected => !State.expired now inspected } }
  | .sweep => { sys with pc := .top }
  | .stop => { sys with pc := .stopped }
  | .listed ids =>
    match sys.pc with
    | .listing key => { sys with pc := .visiting key ids ids }
    | _ => sys
  | .listFailed now =>
    { sys.put sys.state.reportLocked with
      listRetry := some (now + sys.listBackoff)
      listBackoff := min (sys.listBackoff * 2) maxBackoff
      pc := .top }
  | .superseded => { sys with pc := .top }
  | .visit =>
    match sys.pc with
    | .visiting key listed (id :: rest) => { sys with pc := .reserving key listed id rest }
    | _ => sys
  | .reserveVisit now =>
    match sys.pc with
    | .reserving key listed id rest =>
      { sys.reserve id none false now with
        pc := .visiting key listed rest
        log := .visited key id :: (sys.reserve id none false now).log }
    | _ => sys
  | .finishPass =>
    match sys.pc with
    | .visiting key listed _ =>
      { ({ sys with log := .passed key listed :: sys.log } : System).put
        (sys.state.finishPass key) with
        listRetry := none
        listBackoff := minBackoff
        pc := .top }
    | _ => sys
  | .retryNext now =>
    match sys.pc with
    | .retrying (id :: ids) => { sys.reserve id none false now with pc := .retrying ids }
    | _ => sys
  | .retryDone => { sys.put sys.state.reportLocked with pc := .top }
  | .retryCancel => { sys with pc := .top }
  | .hold index act =>
    match sys.holds[index]? with
    | some hold => sys.advance index hold act
    | none => sys

end System

/-! ## When an act can happen -/

/-- The hold is where the act belongs. A reconcile that did not load the config has failed. -/
def Hold.ready (hold : Hold) : HoldAct → Bool
  | .beginTerminate => match hold.pc with | .work _ _ => true | _ => false
  | .endTerminate => match hold.pc with | .terminating _ _ => true | _ => false
  | .readKey _ => hold.pc = .cleaned
  | .begin _ => match hold.pc with | .keyed _ _ => true | _ => false
  | .load => match hold.pc with | .reconciling _ _ => true | _ => false
  | .finish outcome =>
    match hold.pc with
    | .loaded _ _ => true
    | .reconciling _ _ => outcome = .failed
    | _ => false
  | .settle _ => match hold.pc with | .reconciled _ _ _ => true | _ => false
  | .mark => match hold.pc with | .settled _ _ => true | _ => false
  | .next _ => hold.pc = .done

def RunPc.retry : RunPc → Option (Option Instant)
  | .waiting retry => some retry
  | _ => none

/-- The act can happen. A request is for a config that was published. -/
def System.enabled (sys : System) : Act → Bool
  | .publish | .cancel | .start _ _ _ | .endRun _ _ _ | .skip _ _ _ => true
  | .request number => number ≤ sys.store
  | .notify => 0 < sys.requesting
  | .eventNotify | .eventDrop => 0 < sys.failing
  | .check => sys.pc = .top
  | .takeRequest => sys.pc = .ready
  | .nextDue => sys.pc = .idle
  | .armPrune _ => match sys.pc with | .armed _ => true | _ => false
  | .wake => sys.pc.retry.isSome && sys.permit
  | .listRetry now => sys.pc.retry.isSome && sys.listRetry.any (· ≤ now)
  | .retryDue now => sys.pc.retry.any (·.any (· ≤ now))
  | .prune now => sys.pc.retry.isSome && sys.prune.any (· ≤ now)
  | .sweep => sys.pc.retry.isSome
  | .stop => sys.pc.retry.isSome && sys.canceled
  | .listed _ | .listFailed _ => match sys.pc with | .listing _ => true | _ => false
  | .superseded =>
    match sys.pc with
    | .visiting key _ (_ :: _) => sys.canceled || sys.state.latest ≠ key
    | _ => false
  | .visit => match sys.pc with | .visiting key _ (_ :: _) => sys.state.latest = key | _ => false
  | .reserveVisit _ => match sys.pc with | .reserving _ _ _ _ => true | _ => false
  | .finishPass => match sys.pc with | .visiting _ _ [] => true | _ => false
  | .retryNext _ => match sys.pc with | .retrying (_ :: _) => true | _ => false
  | .retryDone => sys.pc = .retrying []
  | .retryCancel => match sys.pc with | .retrying (_ :: _) => sys.canceled | _ => false
  | .hold index act => (sys.holds[index]?).any (·.ready act)

end Daemon
end Sda
