import DeviceAccess.Error
import DeviceAccess.Lib.Handover

/-!
# The kernel side of the cgroup v2 controller (`src/cgroup/v2ops.rs`)

`Kernel` is the list of device filters attached to one cgroup, with the calls that change it.
Attaching appends, replacing swaps in place, detaching removes by identity, and a call that fails
changes nothing. A request is allowed when every attached program allows it, so that nothing
depends on the order of the list but what later calls do to it.

`ReplaceProbe` is what the process knows about the kernel's atomic replace.
-/

namespace Sda
namespace V2

open Asm Sda.Filter

/-- `BPF_F_ALLOW_MULTI`. -/
def fAllowMulti : BitVec 32 := 2

/-! ## Programs and attachments -/

/-- A loaded program. Programs of the same code differ in `id`. -/
structure Prog where
  id : Nat
  /-- The translated instructions, as the kernel dumps them. -/
  xlated : Bytes
  progMeta : ProgMeta
  /-- Whether the daemon may open it; an LSM label can forbid that. -/
  accessible : Bool
  deriving DecidableEq, Repr

/-- The device filters of one cgroup. -/
structure Kernel where
  attached : List Prog
  attachFlags : BitVec 32
  /-- The identity of the program that is loaded next. -/
  nextId : Nat
  distinct : attached.Nodup
  known : ∀ prog ∈ attached, prog.id < nextId

namespace Kernel

theorem known_nil : ∀ prog ∈ ([] : List Prog), prog.id < 0 := fun _ h => absurd h List.not_mem_nil

/-- `BPF_PROG_ATTACH`. The flags of the cgroup are those of its first program. -/
def attach (kernel : Kernel) (prog : Prog) (flags : BitVec 32) : Except Errno Kernel :=
  if hid : prog.id < kernel.nextId then
    if hmem : prog ∈ kernel.attached then .error Errno.inval
    else
      .ok { kernel with
        attached := kernel.attached ++ [prog]
        attachFlags := if kernel.attached = [] then flags else kernel.attachFlags
        distinct := List.nodup_append.mpr ⟨kernel.distinct, List.nodup_singleton prog,
          fun _ ha _ hb hab => hmem (List.mem_singleton.mp hb ▸ hab ▸ ha)⟩
        known := fun p hp => (List.mem_append.mp hp).elim (kernel.known p)
          fun h => List.mem_singleton.mp h ▸ hid }
  else .error Errno.badf

/-- `BPF_PROG_DETACH`. -/
def detach (kernel : Kernel) (prog : Prog) : Except Errno Kernel :=
  if prog ∈ kernel.attached then
    .ok { kernel with
      attached := kernel.attached.erase prog
      distinct := kernel.distinct.erase prog
      known := fun p hp => kernel.known p (List.mem_of_mem_erase hp) }
  else .error Errno.noent

/-- `BPF_PROG_ATTACH` with `BPF_F_REPLACE`: `prog` in place of `old`. -/
def replace (kernel : Kernel) (old prog : Prog) : Except Errno Kernel :=
  if hid : prog.id < kernel.nextId then
    if hold : old ∈ kernel.attached then
      if hmem : prog ∈ kernel.attached then .error Errno.inval
      else
        have hperm : (kernel.attached.replace old prog).Perm (prog :: kernel.attached.erase old) :=
          Handover.replace_perm hold
        .ok { kernel with
          attached := kernel.attached.replace old prog
          distinct := hperm.nodup_iff.mpr (List.nodup_cons.mpr
            ⟨fun h => hmem (List.mem_of_mem_erase h), kernel.distinct.erase old⟩)
          known := fun p hp => (List.mem_cons.mp (hperm.mem_iff.mp hp)).elim (fun h => h ▸ hid)
            fun h => kernel.known p (List.mem_of_mem_erase h) }
    else .error Errno.noent
  else .error Errno.badf

/-- `BPF_PROG_LOAD` of code the verifier accepts. -/
def load (kernel : Kernel) (code : Bytes) : Prog × Kernel :=
  (⟨kernel.nextId, code, ⟨true, 0⟩, true⟩,
    { kernel with
      nextId := kernel.nextId + 1
      known := fun p hp => Nat.lt_succ_of_lt (kernel.known p hp) })

/-- What systemd's daemon-reload does: every program is detached. -/
def wipe (kernel : Kernel) : Kernel :=
  { kernel with attached := [], distinct := List.nodup_nil, known := fun _ h => nomatch h }

end Kernel

/-! ## The replace probe -/

/-- Whether the kernel supports an atomic replace, learnt from the first one. -/
inductive ReplaceProbe where
  | unknown
  | supported
  | unsupported
  deriving DecidableEq, Repr

namespace ReplaceProbe

/-- Whether a replace may be tried. -/
def usable (probe : ReplaceProbe) : Bool := probe ≠ .unsupported

/-- Records the outcome of a replace: the first success or `EINVAL` decides. -/
def record : ReplaceProbe → Except OpsError Unit → ReplaceProbe
  | .unknown, .ok () => .supported
  | .unknown, .error error => if error.errno = some Errno.inval then .unsupported else .unknown
  | probe, _ => probe

end ReplaceProbe
end V2
end Sda
