import DeviceAccess.Lib.Fair
import DeviceAccess.Lib.Trace

/-!
# Watching systemd for reloads (`watch` and `Coalescer` of `src/systemd.rs`)

`watch` receives signals; a completed reload triggers a run of `on_reload` on a thread of its own. A
trigger during a run sets a flag, and the worker that runs makes one more run for it. The two sides
share two flags under a lock, and the watcher keeps the handle of the last worker it spawned.

The acts are the points at which the two sides can interleave: the watcher receives a signal (with
the locked part of `trigger`), spawns the worker, leaves its loop, returns; a worker begins a run,
ends it, takes the lock, ends. Workers whose handle was replaced go on in between.
-/

namespace Sda
namespace Systemd

def systemdBusName : String := "org.freedesktop.systemd1"
def systemdObjectPath : String := "/org/freedesktop/systemd1"
def reloadingFullName : String := "org.freedesktop.systemd1.Manager.Reloading"
def busDaemonName : String := "org.freedesktop.DBus"
def busDaemonPath : String := "/org/freedesktop/DBus"
def nameOwnerChangedFullName : String := "org.freedesktop.DBus.NameOwnerChanged"

/-! ## Signals -/

/-- One argument of a signal, as far as the watcher reads it. -/
inductive Arg where
  | bool (value : Bool)
  | str (value : String)
  | other
  deriving DecidableEq, Repr

/-- A signal as the watcher reads it. -/
structure Signal where
  sender : String
  path : String
  /-- The interface and the member, joined by a dot. -/
  name : String
  body : List Arg
  deriving DecidableEq, Repr

/-- `from_systemd`. An empty owner matches nothing. -/
def fromSystemd (signal : Signal) (owner : String) : Bool :=
  !owner.isEmpty && signal.sender == owner && signal.path == systemdObjectPath

/-- `owner_change`: the new owner when the signal is the bus daemon's `NameOwnerChanged` for
systemd. -/
def ownerChange (signal : Signal) : Option String :=
  if signal.name ≠ nameOwnerChangedFullName ∨ signal.sender ≠ busDaemonName ∨
    signal.path ≠ busDaemonPath then
    none
  else
    match signal.body with
    | [.str name, _, .str newOwner] => if name = systemdBusName then some newOwner else none
    | _ => none

/-- `is_reload_completed`: the completion edge of a `Reloading`. -/
def isReloadCompleted (signal : Signal) : Bool :=
  signal.name == reloadingFullName && signal.body.head? == some (.bool false)

/-! ## The coalescer -/

/-- `CoalescerState`. -/
structure Flags where
  running : Bool
  pending : Bool
  deriving DecidableEq, Repr

/-- Where a worker is. -/
inductive Stage where
  /-- It is about to call the function. -/
  | queued
  | inRun
  /-- The function has returned, and the lock is not taken yet. -/
  | ended
  /-- It has cleared `running`. -/
  | leaving
  | finished
  deriving DecidableEq, Repr

/-- The next step of a worker: its loop makes one more run if one is pending. -/
def Stage.step (flags : Flags) : Stage → Stage × Flags
  | queued => (inRun, flags)
  | inRun => (ended, flags)
  | ended =>
    if flags.pending then (queued, { flags with pending := false })
    else (leaving, { flags with running := false })
  | leaving => (finished, flags)
  | finished => (finished, flags)

/-! ## The watcher -/

/-- Where `watch` is. -/
inductive Phase where
  | looping
  /-- `trigger` has set `running`, and the worker is not spawned yet. -/
  | spawning
  /-- It has left the loop and waits for the last worker. -/
  | waiting
  | returned
  deriving DecidableEq, Repr

/-- The watcher and the workers. -/
structure Watch where
  owner : String
  phase : Phase
  flags : Flags
  /-- The worker whose handle is kept. -/
  task : Option Stage
  /-- The workers whose handle was replaced. -/
  older : List Stage

/-- The watcher at its start. -/
def Watch.start (owner : String) : Watch := ⟨owner, .looping, ⟨false, false⟩, none, []⟩

inductive Act where
  | receive (signal : Signal)
  | spawn
  /-- The watch is cancelled, or the channel is closed. -/
  | stop
  | returns
  | task
  | older (index : Nat)

namespace Watch

/-- The locked part of `trigger`. -/
def trigger (watch : Watch) : Watch :=
  if watch.flags.running then { watch with flags := { watch.flags with pending := true } }
  else { watch with flags := { watch.flags with running := true }, phase := .spawning }

/-- What the loop does with a signal. -/
def receive (watch : Watch) (signal : Signal) : Watch :=
  match ownerChange signal with
  | some newOwner => { watch with owner := newOwner }
  | none =>
    if !fromSystemd signal watch.owner || !isReloadCompleted signal then watch else watch.trigger

def step (watch : Watch) : Act → Watch
  | .receive signal => watch.receive signal
  | .spawn =>
    { watch with
      phase := .looping, task := some .queued, older := watch.task.toList ++ watch.older }
  | .stop => { watch with phase := .waiting }
  | .returns => { watch with phase := .returned }
  | .task =>
    match watch.task with
    | none => watch
    | some stage =>
      { watch with task := some (stage.step watch.flags).1, flags := (stage.step watch.flags).2 }
  | .older index =>
    match watch.older[index]? with
    | none => watch
    | some stage =>
      { watch with
        older := watch.older.set index (stage.step watch.flags).1
        flags := (stage.step watch.flags).2 }

def Enabled (watch : Watch) : Act → Prop
  | .receive _ => watch.phase = .looping
  | .spawn => watch.phase = .spawning
  | .stop => watch.phase = .looping
  | .returns => watch.phase = .waiting ∧ ∀ stage ∈ watch.task, stage = .finished
  | .task => ∃ stage ∈ watch.task, stage ≠ .finished
  | .older index => ∃ stage, watch.older[index]? = some stage ∧ stage ≠ .finished

end Watch

/-! ## What happens when -/

/-- The signal triggers a run. -/
def triggers (moment : Watch × Act) : Bool :=
  match moment.2 with
  | .receive signal =>
    (ownerChange signal).isNone && fromSystemd signal moment.1.owner && isReloadCompleted signal
  | _ => false

/-- The worker that acts. -/
def worker (moment : Watch × Act) : Option Stage :=
  match moment.2 with
  | .task => moment.1.task
  | .older index => moment.1.older[index]?
  | _ => none

/-- A run begins. -/
def begins (moment : Watch × Act) : Bool := worker moment == some .queued

/-- A run ends. -/
def ends (moment : Watch × Act) : Bool := worker moment == some .inRun

/-- How many runs are in progress. -/
def Watch.inProgress (watch : Watch) : Nat := (watch.task.toList ++ watch.older).count .inRun

/-- The signals received, the last one first. -/
def received (past : List (Watch × Act)) : List Signal :=
  past.filterMap fun moment =>
    match moment.2 with
    | .receive signal => some signal
    | _ => none

/-- The bus daemon says that `org.freedesktop.systemd1` has a new owner. -/
def OwnerChanged (signal : Signal) (newOwner : String) : Prop :=
  signal.name = nameOwnerChangedFullName ∧ signal.sender = busDaemonName ∧
    signal.path = busDaemonPath ∧
    ∃ oldOwner, signal.body = [.str systemdBusName, oldOwner, .str newOwner]

/-- Who owns `org.freedesktop.systemd1` after some signals, the last one first. -/
inductive Owns (initial : String) : List Signal → String → Prop
  | initially : Owns initial [] initial
  | changed {signal : Signal} {earlier : List Signal} {newOwner : String}
    (h : OwnerChanged signal newOwner) :
      Owns initial (signal :: earlier) newOwner
  | kept {signal : Signal} {earlier : List Signal} {owner : String}
    (h : ∀ newOwner, ¬ OwnerChanged signal newOwner)
    (hearlier : Owns initial earlier owner) : Owns initial (signal :: earlier) owner

/-- The owner says from systemd's object path that a reload is completed. -/
structure CompletedReload (owner : String) (signal : Signal) : Prop where
  name : signal.name = reloadingFullName
  argument : signal.body.head? = some (.bool false)
  path : signal.path = systemdObjectPath
  sender : signal.sender = owner
  owned : owner ≠ ""

/-- A run began and ended among these moments, the last one first. -/
def CompleteRun (moments : List (Watch × Act)) : Prop :=
  ∃ after stop during start before, moments = after ++ stop :: (during ++ start :: before) ∧
    begins start = true ∧ ends stop = true ∧ ∀ moment ∈ during, begins moment = false

end Systemd
end Sda
