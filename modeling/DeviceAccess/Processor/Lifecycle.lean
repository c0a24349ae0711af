import Mathlib.Data.List.Sort
import DeviceAccess.V2.World

/-!
# The history of container runs (`src/processor/lifecycle.rs`)

One record per run of a container: when it started, the cgroup it was verified in, and whether it
has ended. A restart under the same ID adds a record. A record that names a cgroup goes only when it
is released, which the processor does once the cgroup is verified gone.

A start time is kept as Docker sent it. Reading it is a library's work, so `parse` is a parameter.
-/

namespace Sda
namespace Processor

open V2 (Identity)

/-- Nanoseconds of the wall clock. -/
abbrev Timestamp := Int

abbrev ContainerId := String

inductive CgroupVersion where
  | v1
  | v2
  deriving DecidableEq, Repr

/-- How much is known about one run of a container. -/
inductive LifecycleState where
  /-- An inspect failed; only the ID and the time of the observation are known. -/
  | provisional
  /-- The start time and the cgroup identity were verified against the pinned process. -/
  | verified
  /-- The run ended. -/
  | terminal
  deriving DecidableEq, Repr

/-- Bounds one container's history. -/
def maxRecordsPerContainer : Nat := 8

/-- The cgroup a run was verified in. -/
structure RunCgroup where
  identity : Identity
  version : CgroupVersion
  privileged : Bool
  deriving DecidableEq, Repr

/-- One run of a container. -/
structure LifecycleRecord where
  containerId : ContainerId
  /-- Docker's `State.StartedAt`, empty while unknown. -/
  startedAt : String
  cgroup : Option RunCgroup
  state : LifecycleState
  firstSeen : Timestamp
  /-- The last time an inspect failure refreshed the record. -/
  observed : Timestamp
  /-- The empty set was applied at the cgroup after the run ended. -/
  revoked : Bool
  deriving DecidableEq, Repr

namespace LifecycleRecord

variable (record : LifecycleRecord)

def hasIdentity : Bool := record.cgroup.isSome

def identity : Option Identity := record.cgroup.map (·.identity)

/-- `started`: the start time, if it is known and can be read. -/
def started (parse : String → Option Timestamp) : Option Timestamp :=
  if record.startedAt = "" then none else parse record.startedAt

end LifecycleRecord

/-! ## Lists of records -/

/-- Changes the first record that fits. -/
def changeFirst (fits : LifecycleRecord → Bool) (change : LifecycleRecord → LifecycleRecord) :
    List LifecycleRecord → List LifecycleRecord
  | [] => []
  | record :: records =>
    if fits record then change record :: records else record :: changeFirst fits change records

/-- The loop of `append`: over the bound, the oldest record without an identity goes. -/
def boundRecords : Nat → List LifecycleRecord → List LifecycleRecord
  | 0, records => records
  | fuel + 1, records =>
    if records.length ≤ maxRecordsPerContainer then records
    else if records.all (·.hasIdentity) then records
    else boundRecords fuel (records.eraseP (!·.hasIdentity))

/-- `append`. -/
def appendRecord (records : List LifecycleRecord) (record : LifecycleRecord) :
    List LifecycleRecord :=
  boundRecords (records.length + 1) (records ++ [record])

/-- The start of a run that `terminate` can choose: verified or ended, in a cgroup, and not after
the event. -/
def candidateStart (parse : String → Option Timestamp) (eventTime : Timestamp)
    (record : LifecycleRecord) :
    Option Timestamp :=
  if record.state = .provisional then none
  else
    match record.started parse with
    | none => none
    | some started => if !record.hasIdentity || eventTime < started then none else some started

/-- The loop of `terminate`: the run with the latest start, from `index` on. -/
def matchRun (parse : String → Option Timestamp) (eventTime : Timestamp) :
    Nat → List LifecycleRecord → Option (Nat × Timestamp) → Option (Nat × Timestamp)
  | _, [], found => found
  | index, record :: records, found =>
    matchRun parse eventTime (index + 1) records <|
      match candidateStart parse eventTime record with
      | none => found
      | some started =>
        if found.all fun (_, start) => start < started then some (index, started) else found

def LifecycleRecord.ended (record : LifecycleRecord) : LifecycleRecord :=
  { record with state := .terminal }

/-! ## The history -/

/-- The records of each container, oldest first. A container without records is not in the map. -/
structure Lifecycles where
  ids : List ContainerId
  records : ContainerId → List LifecycleRecord
  mem_ids : ∀ id, id ∈ ids ↔ records id ≠ []

namespace Lifecycles

/-- `new`: no records. -/
def new : Lifecycles := ⟨[], fun _ => [], fun _ => iff_of_false List.not_mem_nil fun h => h rfl⟩

/-- The container's entry of the map. An empty one is removed. -/
def put (history : Lifecycles) (id : ContainerId) (records : List LifecycleRecord) :
    Lifecycles where
  ids :=
    if records = [] then history.ids.filter (· ≠ id)
    else if id ∈ history.ids then history.ids
    else history.ids.orderedInsert (· ≤ ·) id
  records := Function.update history.records id records
  mem_ids other := by
    by_cases hother : other = id
    · subst hother
      rw [Function.update_self]
      split
      next h => simp [h]
      next h =>
        split
        next hin => exact iff_of_true hin h
        next => exact iff_of_true ((List.mem_orderedInsert _).mpr (.inl rfl)) h
    · rw [Function.update_of_ne hother, ← history.mem_ids other]
      split
      next => simp [hother]
      next =>
        split
        next => exact Iff.rfl
        next => rw [List.mem_orderedInsert, or_iff_right hother]

/-- `all`: every record. -/
def all (history : Lifecycles) : List LifecycleRecord := history.ids.flatMap history.records

/-- `provisional`: creates or refreshes the provisional record of a container an inspect could not
report on. -/
def provisional (history : Lifecycles) (id : ContainerId) (now : Timestamp) : Lifecycles :=
  let records := history.records id
  if records.any (·.state = .provisional) then
    history.put id (changeFirst (·.state = .provisional) ({ · with observed := now }) records)
  else history.put id (appendRecord records ⟨id, "", none, .provisional, now, now, false⟩)

/-- What `verify` writes into the record it upgrades. -/
def upgrade (startedAt : String) (cgroup : RunCgroup) (record : LifecycleRecord) :
    LifecycleRecord :=
  { record with
    startedAt := startedAt
    cgroup := some cgroup
    revoked := false
    state := if record.state = .terminal then .terminal else .verified }

/-- The clock's least value. -/
def minTime : Timestamp := -377705023201000000000

/-- `verify`: records the cgroup a run was verified in. It upgrades the record of the same run, else
a provisional record, else adds a record. -/
def verify (history : Lifecycles) (id : ContainerId) (startedAt : String) (cgroup : RunCgroup)
    (now : Timestamp) : Lifecycles :=
  let records := history.records id
  if records.any (·.startedAt = startedAt) then
    history.put id (changeFirst (·.startedAt = startedAt) (upgrade startedAt cgroup) records)
  else if records.any (·.state = .provisional) then
    history.put id (changeFirst (·.state = .provisional) (upgrade startedAt cgroup) records)
  else history.put id
    (appendRecord records ⟨id, startedAt, some cgroup, .verified, now, minTime, false⟩)

/-- `lookup`: the record of one run. -/
def lookup (history : Lifecycles) (id : ContainerId) (startedAt : String) :
    Option LifecycleRecord :=
  (history.records id).find? (·.startedAt = startedAt)

/-- `terminate`: an event ended a run at `eventTime`. It marks terminal the run with the latest
start not after it, and with no such run every provisional record. It returns what it marked. -/
def terminate (parse : String → Option Timestamp) (history : Lifecycles) (id : ContainerId)
    (eventTime : Timestamp) : Lifecycles × List LifecycleRecord :=
  let records := history.records id
  match matchRun parse eventTime 0 records none with
  | some (index, _) =>
    (history.put id (records.modify index (·.ended)), (records[index]?.map (·.ended)).toList)
  | none =>
    (history.put id
        (records.map fun record => if record.state = .provisional then record.ended else record),
      (records.filter (·.state = .provisional)).map (·.ended))

/-- `update`: changes every record of one run. -/
def update (history : Lifecycles) (id : ContainerId) (startedAt : String)
    (change : LifecycleRecord → LifecycleRecord) : Lifecycles :=
  history.put id
    ((history.records id).map fun record =>
      if record.startedAt = startedAt then change record else record)

/-- `mark_terminal`. -/
def markTerminal (history : Lifecycles) (id : ContainerId) (startedAt : String) : Lifecycles :=
  history.update id startedAt (·.ended)

/-- `mark_revoked`: the empty set was applied for an ended run. -/
def markRevoked (history : Lifecycles) (id : ContainerId) (startedAt : String) : Lifecycles :=
  history.update id startedAt fun record =>
    if record.state = .terminal then { record with revoked := true } else record

/-- `release`: removes the record that `released` is a copy of. Records are told apart by start time
and creation time. -/
def release (history : Lifecycles) (released : LifecycleRecord) : Lifecycles :=
  history.put released.containerId ((history.records released.containerId).filter fun record =>
    record.startedAt ≠ released.startedAt || record.firstSeen ≠ released.firstSeen)

end Lifecycles
end Processor
end Sda
