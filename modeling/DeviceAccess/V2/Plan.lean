import DeviceAccess.V2.World

/-!
# The plan of a cgroup v2 pass (`src/cgroup/v2plan.rs`)

Everything is planned before anything changes: every attached program is classified, the wrappers
are grouped by lineage, and the plan for granting, restoring or rebuilding is a list of programs to
load and of steps. A step names an attached program by its index in the query's handles and a new
one by its index in the plan's loads.
-/

namespace Sda
namespace V2

open Asm Sda.Filter

/-- `OWNED_PROGRAM_NAME`. -/
def ownedProgramName : String := "sda_devfilter"

/-! ## Classified programs -/

section Types

variable (sha256 : Bytes → Vector Byte 32)

/-- One attached program, classified. `index` is its position in the query's handles. -/
structure AttachedProg where
  index : Nat
  raw : Bytes
  progMeta : ProgMeta
  /-- A wrapper of this daemon, with the lineage nonce and the innermost original. -/
  owned : Bool
  nonce : BitVec 64
  original : Original sha256
  bare : owned = false → original.raw = raw

/-- The wrappers of one lineage: same nonce and byte-identical original. -/
structure WrapperGroup where
  nonce : BitVec 64
  original : Original sha256
  progMeta : ProgMeta
  members : List (AttachedProg sha256)
  nonempty : members ≠ []

/-- One mutation. -/
inductive Step where
  | attach (new : Nat)
  | detach (old : Nat)
  | pair (old new : Nat)
  deriving DecidableEq, Repr

/-- The complete set of changes for one cgroup. -/
structure PassPlan where
  loads : List Bytes
  names : List String
  steps : List Step
  lineages : List (CachedLineage sha256)

end Types

variable {sha256 : Bytes → Vector Byte 32}

/-- Whether `original` may be wrapped: its instructions decode and stay in the wrappable subset. -/
def gate (original : Bytes) (progMeta : ProgMeta) : Except Error Unit := do
  let instructions ← (decode original).mapError .decode
  (checkWrappable instructions progMeta).mapError .gate

/-! ## Grouping -/

namespace WrapperGroup

/-- The lineage of the group. -/
def lineage (group : WrapperGroup sha256) : CachedLineage sha256 :=
  ⟨group.nonce, group.original, group.progMeta⟩

/-- A wrapper of the group's lineage. -/
def has (group : WrapperGroup sha256) (prog : AttachedProg sha256) : Bool :=
  group.nonce = prog.nonce && group.original.raw = prog.original.raw

def push (group : WrapperGroup sha256) (prog : AttachedProg sha256) : WrapperGroup sha256 :=
  { group with members := group.members ++ [prog], nonempty := by simp }

end WrapperGroup

/-- Adds a wrapper to the first group of its lineage, or as a new group at the end. -/
def addToGroups (prog : AttachedProg sha256) :
    List (WrapperGroup sha256) → List (WrapperGroup sha256)
  | [] => [⟨prog.nonce, prog.original, prog.progMeta, [prog], by simp⟩]
  | group :: rest =>
    if group.has prog then group.push prog :: rest else group :: addToGroups prog rest

/-- One round of `group_wrappers`. -/
def groupStep (acc : List (WrapperGroup sha256) × List (AttachedProg sha256))
    (prog : AttachedProg sha256) : List (WrapperGroup sha256) × List (AttachedProg sha256) :=
  if prog.owned then (addToGroups prog acc.1, acc.2) else (acc.1, acc.2 ++ [prog])

/-- `group_wrappers`: the wrapper lineages, in order of first appearance, and the bare programs. -/
def groupWrappers (progs : List (AttachedProg sha256)) :
    List (WrapperGroup sha256) × List (AttachedProg sha256) :=
  progs.foldl groupStep ([], [])

/-! ## Plans -/

namespace PassPlan

/-- The plan that changes nothing. -/
def empty : PassPlan sha256 := ⟨[], [], [], []⟩

/-- Adds a program to load; its index is the number of loads before it. -/
def load (plan : PassPlan sha256) (raw : Bytes) (name : String) : PassPlan sha256 :=
  { plan with loads := plan.loads ++ [raw], names := plan.names ++ [name] }

def pair (plan : PassPlan sha256) (old : Nat) (raw : Bytes) (name : String) : PassPlan sha256 :=
  { plan.load raw name with steps := plan.steps ++ [.pair old plan.loads.length] }

def detach (plan : PassPlan sha256) (old : Nat) : PassPlan sha256 :=
  { plan with steps := plan.steps ++ [.detach old] }

/-- The attach of a new program on its own, as `add_rebuild` plans it. -/
def attach (plan : PassPlan sha256) (raw : Bytes) (name : String) : PassPlan sha256 :=
  { plan.load raw name with steps := plan.steps ++ [.attach plan.loads.length] }

/-- The detaches of one lineage. -/
def detachAll (plan : PassPlan sha256) (progs : List (AttachedProg sha256)) : PassPlan sha256 :=
  progs.foldl (fun plan prog => plan.detach prog.index) plan

def remember (plan : PassPlan sha256) (lineage : CachedLineage sha256) : PassPlan sha256 :=
  { plan with lineages := plan.lineages ++ [lineage] }

end PassPlan

/-- `new_nonce`, from the random source; the state counts the nonces drawn. -/
def newNonce (source : Nat → Except NonceError (BitVec 64)) : Action Nat Error (BitVec 64) :=
  fun drawn => ((source drawn).mapError .nonce, drawn + 1)

/-- One lineage of `plan_grant`: an equal wrapper is kept, otherwise the first one is replaced, and
the others are detached. -/
def grantGroup (rules : List DeviceRule) (plan : PassPlan sha256) (group : WrapperGroup sha256) :
    Except Error (PassPlan sha256) := do
  let desired ← (emitOwned sha256 rules group.nonce group.original.raw).mapError .emit
  let (plan, keep) := match group.members.findIdx? (·.raw = desired) with
    | some position => (plan, position)
    | none => (plan.pair (group.members.head group.nonempty).index desired ownedProgramName, 0)
  .ok ((plan.detachAll (group.members.eraseIdx keep)).remember group.lineage)

/-- One bare program of `plan_grant`: wrapped under a new nonce. -/
def grantBare (source : Nat → Except NonceError (BitVec 64)) (rules : List DeviceRule)
    (plan : PassPlan sha256) (bare : AttachedProg sha256) :
    Action Nat Error (PassPlan sha256) := do
  .ofExcept (gate bare.raw bare.progMeta)
  let nonce ← newNonce source
  let wrapped ← .ofExcept ((emitOwned sha256 rules nonce bare.raw).mapError .emit)
  pure ((plan.pair bare.index wrapped ownedProgramName).remember
    ⟨nonce, bare.original, bare.progMeta⟩)

/-- `plan_grant`: a pass for non-empty rules. -/
def planGrant (source : Nat → Except NonceError (BitVec 64)) (groups : List (WrapperGroup sha256))
    (bares : List (AttachedProg sha256)) (rules : List DeviceRule) :
    Action Nat Error (PassPlan sha256) := do
  let plan ← .ofExcept (groups.foldlM (grantGroup rules) PassPlan.empty)
  bares.foldlM (grantBare source rules) plan

/-- One lineage of `plan_restore`; `available` are the bare programs that stand for no lineage yet.
-/
def restoreGroup (acc : PassPlan sha256 × List (AttachedProg sha256))
    (group : WrapperGroup sha256) :
    PassPlan sha256 × List (AttachedProg sha256) :=
  let (plan, available) := acc
  if available.any (·.raw = group.original.raw) then
    ((plan.detachAll group.members).remember group.lineage,
      available.eraseP (·.raw = group.original.raw))
  else
    (((plan.pair (group.members.head group.nonempty).index group.original.raw "").detachAll
      group.members.tail).remember group.lineage, available)

/-- `plan_restore`: a pass for empty rules. -/
def planRestore (groups : List (WrapperGroup sha256)) (bares : List (AttachedProg sha256)) :
    PassPlan sha256 :=
  let (plan, available) := groups.foldl restoreGroup (PassPlan.empty, bares)
  available.foldl (fun plan bare => plan.remember ⟨0, bare.original, bare.progMeta⟩) plan

/-- The plan for the rules, without a rebuild. -/
def planRules (source : Nat → Except NonceError (BitVec 64)) (groups : List (WrapperGroup sha256))
    (bares : List (AttachedProg sha256)) (rules : List DeviceRule) :
    Action Nat Error (PassPlan sha256) :=
  if rules = [] then pure (planRestore groups bares) else planGrant source groups bares rules

/-- `missing_lineages`: the cached lineages the cgroup does not show; each attached program accounts
for one lineage. -/
def missingLineages : List (CachedLineage sha256) → List (WrapperGroup sha256) →
    List (AttachedProg sha256) → List (CachedLineage sha256)
  | [], _, _ => []
  | lineage :: cached, groups, bares =>
    let isGroup := fun group : WrapperGroup sha256 =>
      group.nonce = lineage.nonce && group.original.raw = lineage.original.raw
    let isBare := fun bare : AttachedProg sha256 => decide (bare.raw = lineage.original.raw)
    if groups.any isGroup then missingLineages cached (groups.eraseP isGroup) bares
    else if bares.any isBare then missingLineages cached groups (bares.eraseP isBare)
    else lineage :: missingLineages cached groups bares

/-- The nonce a lineage is wrapped under again: its own, or a new one when it has none. -/
def lineageNonce (source : Nat → Except NonceError (BitVec 64)) (lineage : CachedLineage sha256) :
    Action Nat Error (BitVec 64) :=
  if lineage.nonce = 0 then newNonce source else pure lineage.nonce

/-- One lineage of `add_rebuild`: its original is attached again, bare for empty rules and wrapped
otherwise. -/
def rebuildLineage (source : Nat → Except NonceError (BitVec 64)) (rules : List DeviceRule)
    (plan : PassPlan sha256) (lineage : CachedLineage sha256) :
    Action Nat Error (PassPlan sha256) := do
  .ofExcept (gate lineage.original.raw lineage.progMeta)
  if rules = [] then pure ((plan.attach lineage.original.raw "").remember lineage)
  else do
    let nonce ← lineageNonce source lineage
    let wrapped ← .ofExcept ((emitOwned sha256 rules nonce lineage.original.raw).mapError .emit)
    pure ((plan.attach wrapped ownedProgramName).remember { lineage with nonce := nonce })

/-- `add_rebuild`. -/
def addRebuild (source : Nat → Except NonceError (BitVec 64)) (plan : PassPlan sha256)
    (cached : List (CachedLineage sha256)) (rules : List DeviceRule) :
    Action Nat Error (PassPlan sha256) :=
  cached.foldlM (rebuildLineage source rules) plan

end V2
end Sda
