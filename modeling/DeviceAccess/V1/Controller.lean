import DeviceAccess.V1.Devices
import DeviceAccess.V2.World

/-!
# Setting the device rules of a cgroup v1 directory (`src/cgroup/v1set.rs`, `src/cgroup/ledger.rs`)

The exceptions of the runtime and those of the daemon are in one list. The ledger says which bits
the daemon added; the rest of the list is the baseline. A pass revokes the owned bits that are not
asked for any more, grants the bits that are asked for and not in the baseline, and reads the list
back.

`Env` says which reads and writes fail. A file call that fails changes nothing, and `World.log` has
every file call with the list right after it. Reading gives the entries of the list; the text of
`devices.list` and its parser (`parse_devices_list`) are left out.
-/

namespace Sda
namespace V1

open Sda.Filter
open V2 (Identity)

/-! ## The ledger -/

/-- The bits the daemon added, per cgroup. -/
def Ledger : Type := Identity → Finset DevBit

namespace Ledger

def owned (ledger : Ledger) (id : Identity) : Finset DevBit := ledger id

def add (ledger : Ledger) (id : Identity) (bit : DevBit) : Ledger :=
  Function.update ledger id (insert bit (ledger id))

def remove (ledger : Ledger) (id : Identity) (bit : DevBit) : Ledger :=
  Function.update ledger id ((ledger id).erase bit)

@[simp] theorem owned_add (ledger : Ledger) (id : Identity) (bit : DevBit) :
    (ledger.add id bit).owned id = insert bit (ledger.owned id) := Function.update_self ..

@[simp] theorem owned_remove (ledger : Ledger) (id : Identity) (bit : DevBit) :
    (ledger.remove id bit).owned id = (ledger.owned id).erase bit := Function.update_self ..

end Ledger

/-! ## The files -/

/-- What a call of `V1Files` was, and whether it succeeded. -/
inductive Event where
  | read (ok : Bool)
  | write (allow : Bool) (bit : DevBit) (ok : Bool)
  deriving DecidableEq, Repr

/-- A file call and the list right after it. -/
structure Moment where
  event : Event
  list : DevicesList

/-- The exceptions of the cgroup, what the daemon remembers, and their history. -/
structure World where
  list : DevicesList
  ledger : Ledger
  /-- How many file calls were made. -/
  calls : Nat
  log : List Moment

/-- What the daemon does not decide: the error file call number `n` fails with, if it does. -/
structure Env where
  fault : Nat → Option FileError

namespace World

/-- The world after a file call that leaves `list`. -/
def called (world : World) (event : Event) (list : DevicesList) : World :=
  { world with list := list, calls := world.calls + 1, log := world.log ++ [⟨event, list⟩] }

end World

variable (env : Env)

/-- `read_list`, with the list as its entries. -/
def readList : Action World Error (List ListEntry) := fun world =>
  match env.fault world.calls with
  | some error => (.error (.file error), world.called (.read false) world.list)
  | none => (.ok world.list.entries, world.called (.read true) world.list)

/-- The write of a bit's line to `devices.allow` or to `devices.deny`. -/
def writeBit (allow : Bool) (bit : DevBit) : Action World FileError Unit := fun world =>
  match env.fault world.calls with
  | some error => (.error error, world.called (.write allow bit false) world.list)
  | none => (.ok (), world.called (.write allow bit true) (world.list.apply allow bit.entry))

def editLedger (edit : Ledger → Ledger) : Action World Error Unit :=
  Action.modify fun world => { world with ledger := edit world.ledger }

/-! ## Rules -/

/-- The access mask of `rwm` letters. The first other letter is the error. -/
def parseAccess (access : List Char) : Except Char (BitVec 3) :=
  access.foldlM (fun mask letter =>
    if letter = 'r' then .ok (mask ||| Access.read.mask)
    else if letter = 'w' then .ok (mask ||| Access.write.mask)
    else if letter = 'm' then .ok (mask ||| Access.mknod.mask)
    else .error letter) 0

/-- A number as `go_struct_text` prints it. -/
def numberText : Option Int → String
  | none => "<nil>"
  | some number => toString number

/-- `go_struct_text`. -/
def goStructText (rule : DeviceRule) : String :=
  "\x7bAllow:" ++ toString rule.allow ++ " Type:" ++ rule.kind ++
    " Major:" ++ numberText rule.major ++ " Minor:" ++ numberText rule.minor ++
    " Access:" ++ rule.access ++ "\x7d"

/-- The device type of a `c` or `b` rule. -/
def ruleKind (kind : String) : Option DeviceType :=
  if kind = "c" then some .char else if kind = "b" then some .block else none

/-- The bits of one allow rule. -/
def expandRule (rule : DeviceRule) : Except Error (List DevBit) :=
  if !rule.allow then .error .denyRule
  else
    match rule.major, rule.minor with
    | some major, some minor =>
      match ruleKind rule.kind with
      | none => .error (.concreteRule (goStructText rule))
      | some kind =>
        if major < 0 || minor < 0 then .error (.concreteRule (goStructText rule))
        else do
          let access ← (parseAccess rule.access.toList).mapError .unknownAccess
          .ok ((accessBits.filter fun one => access &&& one.mask != 0).map
            (⟨kind, major.toNat, minor.toNat, ·⟩))
    | _, _ => .error (.concreteRule (goStructText rule))

/-- `expand_rules`: the allow rules as single bits. -/
def expandRules (rules : List DeviceRule) : Except Error (Finset DevBit) :=
  rules.foldlM (fun bits rule => do
    let more ← expandRule rule
    .ok (more.foldl (fun bits bit => insert bit bits) bits)) ∅

/-! ## A pass -/

/-- The revocations: an owned bit that is not owned any more is denied, or only forgotten if the
baseline covers it. The answer is the forgotten bits. The first failing write stops the pass. -/
def revokeOwned (id : Identity) (baseline : List ListEntry) (ownedNew : Finset DevBit) :
    List DevBit → Finset DevBit → Action World Error (Finset DevBit)
  | [], forgotten => pure forgotten
  | bit :: bits, forgotten =>
    if bit ∈ ownedNew then revokeOwned id baseline ownedNew bits forgotten
    else if covered baseline bit then do
      editLedger (·.remove id bit)
      revokeOwned id baseline ownedNew bits (insert bit forgotten)
    else do
      Action.mapErr (.revoke bit.line) (writeBit env false bit)
      editLedger (·.remove id bit)
      revokeOwned id baseline ownedNew bits forgotten

/-- The grants: a bit that is not effective now is written, and recorded unless that failed. The
answer is the errors. -/
def grantNew (id : Identity) (entries : List ListEntry) :
    List DevBit → List Error → Action World Error (List Error)
  | [], errors => pure errors
  | bit :: bits, errors => do
    let written ← Action.attempt
      (if covered entries bit then pure () else Action.mapErr (Error.grant bit.line)
        (writeBit env true bit))
    match written with
    | .error error => grantNew id entries bits (errors ++ [error])
    | .ok () => do
      editLedger (·.add id bit)
      grantNew id entries bits errors

/-- `verify`: among the bits owned before or now, exactly those owned now are effective. -/
def verify (ownedOld ownedNew forgotten : Finset DevBit) : Action World Error Unit := do
  let after ← Action.mapErr .verify (readList env)
  let checked := inOrder ((ownedOld \ forgotten) ∪ ownedNew)
  let mismatched := checked.filter fun bit => covered after bit != decide (bit ∈ ownedNew)
  if mismatched = [] then pure ()
  else Action.fail (.drift (mismatched.map fun bit =>
    bit.line ++ " (want " ++ toString (decide (bit ∈ ownedNew)) ++ ")"))

/-- `set_device_rules`: makes the daemon-owned exceptions of the cgroup equal exactly `rules`. -/
def setDeviceRules (id : Identity) (rules : List DeviceRule) : Action World Error Unit := do
  let desired ← Action.ofExcept (expandRules rules)
  let entries ← readList env
  let world ← Action.get
  let ownedOld := world.ledger.owned id
  let baseline := withoutOwned entries ownedOld
  let ownedNew := desired.filter fun bit => !covered baseline bit
  let forgotten ← revokeOwned env id baseline ownedNew (inOrder ownedOld) ∅
  let errors ← grantNew env id entries (inOrder ownedNew) []
  let verified ← Action.attempt (verify env ownedOld ownedNew forgotten)
  let errors := match verified with
    | .ok () => errors
    | .error error => errors ++ [error]
  if errors.isEmpty then pure () else Action.fail (.joined errors)

end V1
end Sda
