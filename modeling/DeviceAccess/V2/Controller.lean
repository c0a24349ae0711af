import DeviceAccess.V2.Plan

/-!
# The cgroup v2 controller (`src/cgroup/v2.rs`, and the part of `src/cgroup/v2plan.rs` that runs)

`setRules` makes the daemon's grants in the device filters of a cgroup equal exactly the rules. It
reads and classifies the attached programs, plans (`DeviceAccess/V2/Plan.lean`), records the
lineages in the cache, loads every new program and only then changes the cgroup, step by step.
-/

namespace Sda
namespace V2

open Asm Sda.Filter

variable {sha256 : Bytes → Vector Byte 32}

/-! ## Reading -/

/-- The part of `classify` after the program was read: wrappers are stripped to the innermost
original. -/
def classifyDump (index : Nat) (dump : Dump) : Except Error (AttachedProg sha256) :=
  match hraw : canonicalBytes dump.instructions with
  | .error error => .error (.canonical error)
  | .ok raw =>
    match hown : parseOwnedInnermost sha256 raw with
    | .error error => .error (.owned error)
    | .ok none =>
      have hcanonical : CanonicalProgram raw := by
        obtain ⟨xlated, hd⟩ := dump.decoded
        exact canonicalProgram_of_decode dump.nonempty hd hraw
      .ok ⟨index, raw, dump.progMeta, false, 0,
        ⟨raw, hcanonical, parseOwned_of_innermost_none hown⟩, fun _ => rfl⟩
    | .ok (some owned) => do
      gate owned.original dump.progMeta
      .ok ⟨index, raw, dump.progMeta, true, owned.nonce,
        ⟨owned.original, (original_of_innermost hown).1, (original_of_innermost hown).2⟩, nofun⟩

variable (env : Env)

/-- `classify`. -/
def classify (index : Nat) (prog : Prog) :
    Action (World sha256) Error (AttachedProg sha256) := do
  let dump ← (instructions env prog).mapErr .ops
  .ofExcept (classifyDump index dump)

/-- Every program classified, from `index` on. -/
def classifyFrom (index : Nat) :
    List Prog → Action (World sha256) Error (List (AttachedProg sha256))
  | [] => pure []
  | prog :: progs => do
    let first ← classify env index prog
    let rest ← classifyFrom (index + 1) progs
    pure (first :: rest)

/-! ## Changing -/

/-- `load_canonical`. -/
def loadCanonical (raw : Bytes) (name : String) : Action (World sha256) Error Prog := do
  let instructions ← .ofExcept ((decode raw).mapError .decode)
  (load env name instructions).mapErr .ops

/-- The loads of a plan, in order. -/
def loadAll : List (Bytes × String) → Action (World sha256) Error (List Prog)
  | [] => pure []
  | (raw, name) :: rest => do
    let prog ← loadCanonical env raw name
    let progs ← loadAll rest
    pure (prog :: progs)

/-- The part of `swap` without an atomic replace: `new` is attached before `old` is detached, and
detached again when that fails. -/
def swapByDetach (old new : Prog) : Action (World sha256) Error Unit := do
  (attach env new fAllowMulti none).mapErr .attachNew
  match ← (detach env old).attempt with
  | .ok () => pure ()
  | .error detachError =>
    match ← (detach env new).attempt with
    | .ok () => .fail (.detachOriginal detachError)
    | .error rollbackError =>
      .fail (.joined [.detachOriginal detachError, .rollback rollbackError])

/-- `swap`: replaces `old` with `new`, atomically when the kernel supports it. -/
def swap (old new : Prog) : Action (World sha256) Error Unit := do
  let world ← Action.get
  if world.replace.usable then do
    let outcome ← (attach env new fAllowMulti (some old)).attempt
    .modify fun world => { world with replace := world.replace.record outcome }
    match outcome with
    | .ok () => pure ()
    | .error error => do
      let world ← Action.get
      if world.replace.usable then .fail (.replace error) else swapByDetach env old new
  else swapByDetach env old new

/-- The programs a step is about. -/
def Step.edit (attached loaded : List Prog) : Step → Option (Handover.Edit Prog)
  | .attach new => do return .attach (← loaded[new]?)
  | .detach old => do return .detach (← attached[old]?)
  | .pair old new => do return .pair (← attached[old]?) (← loaded[new]?)

/-- One step of `execute`. -/
def perform : Handover.Edit Prog → Action (World sha256) Error Unit
  | .attach new => (attach env new fAllowMulti none).mapErr .ops
  | .detach old => (detach env old).mapErr .ops
  | .pair old new => swap env old new

/-- The steps of a plan from number `index` on; it stops at the first failure. -/
def executeFrom (attached loaded : List Prog) (steps index : Nat) :
    List Step → Action (World sha256) Error Unit
  | [] => pure ()
  | step :: rest => do
    match step.edit attached loaded with
    | none => .fail .outOfBounds
    | some edit => (perform env edit).mapErr (.change (index + 1) steps)
    executeFrom attached loaded steps (index + 1) rest

/-- `execute`: every new program is loaded before the first step. -/
def execute (attached : List Prog) (plan : PassPlan sha256) : Action (World sha256) Error Unit := do
  let loaded ← loadAll env (plan.loads.zip plan.names)
  executeFrom env attached loaded plan.steps.length 0 plan.steps

/-! ## Passes -/

/-- Records `entry` for `id`. -/
def remember (id : Identity) (entry : CacheEntry sha256) (event : Event) :
    Action (World sha256) Error Unit :=
  .modify fun world => ({ world with cache := world.cache.set id entry }).note event

/-- A computation that only draws nonces. -/
def drawing {α : Type} (x : Action Nat Error α) : Action (World sha256) Error α :=
  x.zoom World.drawn fun world drawn => { world with drawn := drawn }

/-- `commit`: records the plan's lineages and executes it. -/
def commit (id : Identity) (attached : List Prog) (plan : PassPlan sha256) (rebuilding : Bool) :
    Action (World sha256) Error Unit := do
  remember id ⟨plan.lineages, rebuilding⟩ .commit
  execute env attached plan
  if rebuilding then remember id ⟨plan.lineages, false⟩ .rebuilt else pure ()

/-- `rebuild`: a cgroup with no device filter at all. -/
def rebuild (id : Identity) (rules : List DeviceRule) : Action (World sha256) Error Unit := do
  let world ← Action.get
  let entry := world.cache.get id
  if entry.lineages = [] then .fail .filterMissing
  else do
    let plan ← drawing (addRebuild env.nonce PassPlan.empty entry.lineages rules)
    commit env id [] plan true

/-- The planning of `set_rules`, with the lineages a rebuild that stopped halfway has to attach
again. -/
def planPass (source : Nat → Except NonceError (BitVec 64)) (entry : CacheEntry sha256)
    (classified : List (AttachedProg sha256)) (rules : List DeviceRule) :
    Action Nat Error (PassPlan sha256) := do
  let (groups, bares) := groupWrappers classified
  let plan ← planRules source groups bares rules
  if entry.rebuilding then
    addRebuild source plan (missingLineages entry.lineages groups bares) rules
  else pure plan

/-- `set_rules`. -/
def setRules (id : Identity) (rules : List DeviceRule) : Action (World sha256) Error Unit := do
  let attached ← (query env).mapErr .query
  if 0 < attached.inaccessible then
    .fail (.filtersInaccessible attached.inaccessible attached.total)
  else if attached.total = 0 then rebuild env id rules
  else if attached.attachFlags &&& fAllowMulti = 0 then
    .fail (.unsupportedAttachMode attached.attachFlags)
  else do
    let classified ← classifyFrom env 0 attached.progs
    let world ← Action.get
    let entry := world.cache.get id
    let plan ← drawing (planPass env.nonce entry classified rules)
    commit env id attached.progs plan entry.rebuilding

end V2
end Sda
