import DeviceAccess.V2.Kernel
import DeviceAccess.Filter.Innermost
import DeviceAccess.Lib.Action

/-!
# The world of a cgroup v2 pass

The kernel together with what the daemon's process remembers: the replace probe and the filter
cache (`src/cgroup/v2plan.rs`). `World.log` records everything that happens, each time with the
attached programs and the cache right after it, so that a property of all moments of a run is a
property of its log.

What the daemon does not decide is in `Env`: which kernel calls fail and how, before which ones
systemd detaches every program, and which nonces the kernel's random source gives. The operations of
`V2Ops` are here. A program that was loaded is dumped back as the instructions it was given.

A cached original is an `Original`: canonical, and not itself a wrapper of this daemon.
-/

namespace Sda
namespace V2

open Asm Sda.Filter

/-- One cgroup directory: its path and the inode of the directory. -/
structure Identity where
  path : String
  inode : BitVec 64
  deriving DecidableEq, Repr

/-! ## The filter cache -/

section Cache

variable (sha256 : Bytes → Vector Byte 32)

/-- The program of a container runtime: canonical bytes that are no wrapper of this daemon. -/
structure Original where
  raw : Bytes
  canonical : CanonicalProgram raw
  bare : parseOwned sha256 raw = .ok none

/-- One runtime original and the nonce of the wrapper lineage around it, 0 when it has never been
wrapped. -/
structure CachedLineage where
  nonce : BitVec 64
  original : Original sha256
  progMeta : ProgMeta

/-- What is known about one cgroup. Until a rebuild has completed, `rebuilding` says that lineages
absent from the cgroup were lost to a wipe. -/
structure CacheEntry where
  lineages : List (CachedLineage sha256)
  rebuilding : Bool

/-- The originals that were attached the last time the daemon looked, per cgroup. -/
def FilterCache : Type := Identity → Option (CacheEntry sha256)

variable {sha256}

namespace FilterCache

def get (cache : FilterCache sha256) (id : Identity) : CacheEntry sha256 :=
  (cache id).getD ⟨[], false⟩

def set (cache : FilterCache sha256) (id : Identity) (entry : CacheEntry sha256) :
    FilterCache sha256 :=
  fun other => if other = id then some entry else cache other

@[simp] theorem get_set (cache : FilterCache sha256) (id : Identity) (entry : CacheEntry sha256) :
    (cache.set id entry).get id = entry := by
  simp [get, set]

end FilterCache
end Cache

/-! ## The world -/

/-- What happens in a run. -/
inductive Event where
  | query
  | instructions (prog : Prog)
  | load (name : String)
  | attach (prog : Prog)
  | replace (old prog : Prog)
  | detach (prog : Prog)
  /-- Every program is detached from outside. -/
  | wipe
  /-- A pass has planned everything and recorded the lineages. -/
  | commit
  /-- A rebuild has completed and is recorded as such. -/
  | rebuilt
  /-- A pass is over. -/
  | returned (ok : Bool)
  deriving DecidableEq, Repr

/-- The kernel calls that make or remove something. -/
def Event.changes : Event → Bool
  | .load _ | .attach _ | .replace _ _ | .detach _ => true
  | _ => false

/-- An event and what holds right after it. -/
structure Point (sha256 : Bytes → Vector Byte 32) where
  event : Event
  attached : List Prog
  cache : FilterCache sha256

/-- The kernel, the process and their history. -/
structure World (sha256 : Bytes → Vector Byte 32) where
  kernel : Kernel
  replace : ReplaceProbe
  cache : FilterCache sha256
  /-- How many kernel calls were made. -/
  calls : Nat
  /-- How many nonces were drawn. -/
  drawn : Nat
  log : List (Point sha256)

/-- What the daemon does not decide. -/
structure Env where
  /-- The error kernel call number `n` fails with, if it does. -/
  fault : Nat → Option OpsError
  /-- Whether systemd detaches every program right before kernel call number `n`. -/
  wiped : Nat → Bool
  /-- The random source. -/
  nonce : Nat → Except NonceError (BitVec 64)
  /-- The most instructions the kernel takes; it counts them with 32 bits. -/
  insnLimit : Nat
  insnLimit_lt : insnLimit < u32Max

section World

variable {sha256 : Bytes → Vector Byte 32}

namespace World

/-- Records `event`. -/
def note (world : World sha256) (event : Event) : World sha256 :=
  { world with log := world.log ++ [⟨event, world.kernel.attached, world.cache⟩] }

/-- Every program is detached from outside. -/
def wipe (world : World sha256) : World sha256 :=
  { world with kernel := world.kernel.wipe }.note .wipe

end World

variable (env : Env)

/-- One kernel call: a wipe may come right before it, it may fail, and otherwise it does `effect`.
-/
def call {α : Type} (event : Event) (effect : Kernel → Except OpsError (α × Kernel)) :
    Action (World sha256) OpsError α := fun world =>
  let world := if env.wiped world.calls then world.wipe else world
  let world' := { world with calls := world.calls + 1 }
  match env.fault world.calls with
  | some error => (.error error, world'.note event)
  | none =>
    match effect world.kernel with
    | .error error => (.error error, world'.note event)
    | .ok (value, kernel) => (.ok value, { world' with kernel := kernel }.note event)

/-! ## The operations of `V2Ops` -/

private theorem decode_ne_nil {raw : Bytes} {is : List Instruction} (hne : raw ≠ [])
    (h : decode raw = .ok is) : is ≠ [] := by
  rintro rfl
  cases decode_iff.mp h
  exact hne rfl

/-- A program read back: instructions that were decoded, at least one. -/
structure Dump where
  instructions : List Instruction
  progMeta : ProgMeta
  nonempty : instructions ≠ []
  decoded : ∃ xlated, decode xlated = .ok instructions

/-- What the kernel gives for the program. -/
def Prog.dump (prog : Prog) : Except OpsError Dump :=
  if hne : prog.xlated = [] then .error (.instructions .notSupported)
  else
    match h : decode prog.xlated with
    | .error error => .error (.instructions (.decode error))
    | .ok is => .ok ⟨is, prog.progMeta, decode_ne_nil hne h, prog.xlated, h⟩

/-- The programs attached to a cgroup. -/
structure Attached where
  progs : List Prog
  total : Nat
  inaccessible : Nat
  attachFlags : BitVec 32

/-- `query`: the programs that could be opened, and how many there are. -/
def query : Action (World sha256) OpsError Attached :=
  call env .query fun kernel =>
    let progs := kernel.attached.filter (·.accessible)
    .ok (⟨progs, kernel.attached.length, kernel.attached.length - progs.length,
      kernel.attachFlags⟩, kernel)

/-- The instruction count of a load, which saturates. -/
def insnCnt (code : Bytes) : Nat := min (code.length / 8) u32Max

/-- `load`. -/
def load (name : String) (instructions : List Instruction) :
    Action (World sha256) OpsError Prog :=
  call env (.load name) fun kernel =>
    if instructions = [] then .error (.load .empty)
    else do
      let code ← encodeFrom (fun index cause => .load (.encode index cause)) 0 instructions
      if env.insnLimit < insnCnt code then .error (.load (.verifier Errno.tooBig none []))
      else .ok (kernel.load code)

/-- `attach`: a program on its own, or in place of `replace`. -/
def attach (prog : Prog) (flags : BitVec 32) (replace : Option Prog) :
    Action (World sha256) OpsError Unit :=
  match replace with
  | none => call env (.attach prog) fun kernel =>
    ((kernel.attach prog flags).mapError (.attach flags)).map ((), ·)
  | some old => call env (.replace old prog) fun kernel =>
    ((kernel.replace old prog).mapError (.attach flags)).map ((), ·)

/-- `detach`. -/
def detach (prog : Prog) : Action (World sha256) OpsError Unit :=
  call env (.detach prog) fun kernel => ((kernel.detach prog).mapError .detach).map ((), ·)

/-- `instructions`: the translated instructions and what the gate needs to know. -/
def instructions (prog : Prog) : Action (World sha256) OpsError Dump :=
  call env (.instructions prog) fun kernel => prog.dump.map (·, kernel)

end World
end V2
end Sda
