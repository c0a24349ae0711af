import DeviceAccess.Filter.Owned

/-!
# The errors of setting a cgroup's device rules (`src/cgroup/error.rs`, `src/cgroup/v2ops.rs`)

One type for both cgroup versions, as the source has it, with the data each error carries. The
texts are rendered from that data and are not modelled.
-/

namespace Sda

open Asm Sda.Filter

/-- The number of a system error. -/
abbrev Errno := Nat

namespace Errno

def perm : Errno := 1
def noent : Errno := 2
def tooBig : Errno := 7
def badf : Errno := 9
def xdev : Errno := 18
def inval : Errno := 22

end Errno

/-! ## Kernel operations of cgroup v2 -/

/-- Why an attached program could not be opened. -/
inductive FetchError where
  | getById (errno : Errno)
  | discover (errno : Errno)
  deriving DecidableEq, Repr

/-- Why a program's information could not be read. -/
inductive InfoError where
  | objInfo (errno : Errno)
  | xlated (errno : Errno)
  deriving DecidableEq, Repr

/-- Why a program's translated instructions are not available. -/
inductive InstructionsError where
  | restricted
  | notSupported
  | decode (error : DecodeError)
  deriving DecidableEq, Repr

/-- Why a program was not loaded. -/
inductive LoadError where
  | empty
  | encode (index : Nat) (cause : EncodeCause)
  | attempts (errno : Errno)
  | memlock (errno : Errno)
  | verifierBug (errno : Errno)
  | verifier (errno : Errno) (cause : Option String) (log : List String)
  deriving DecidableEq, Repr

def LoadError.errno : LoadError → Option Errno
  | .attempts errno | .memlock errno | .verifierBug errno | .verifier errno _ _ => some errno
  | .empty | .encode _ _ => none

/-- Why a kernel operation of the cgroup v2 controller failed. -/
inductive OpsError where
  | query (errno : Errno)
  | incompleteProgList
  | fetch (error : FetchError)
  | load (error : LoadError)
  | attach (flags : BitVec 32) (errno : Errno)
  | detach (errno : Errno)
  | oldKernel
  | info (error : InfoError)
  | instructions (error : InstructionsError)
  deriving DecidableEq, Repr

/-- The errno a system call failed with, if that is the error. -/
def OpsError.errno : OpsError → Option Errno
  | .query errno | .attach _ errno | .detach errno => some errno
  | .info (.objInfo errno) | .info (.xlated errno) => some errno
  | .fetch (.getById errno) | .fetch (.discover errno) => some errno
  | .load error => error.errno
  | .incompleteProgList | .oldKernel | .instructions _ => none

/-- The kernel's random source failed. -/
structure NonceError where
  errno : Errno
  deriving DecidableEq, Repr

/-! ## Files of cgroup v1 -/

/-- A `devices.*` file that could not be opened, read or written. -/
inductive FileError where
  | open (name : String) (source : Errno)
  | read (name : String) (source : Errno)
  | write (line name : String) (source : Errno)
  deriving DecidableEq, Repr

/-! ## The error of `set_device_rules` -/

/-- Why `set_device_rules` failed. -/
inductive Error where
  | denyRule
  | concreteRule (rule : String)
  | unknownAccess (letter : Char)
  | file (source : FileError)
  | revoke (line : String) (source : FileError)
  | grant (line : String) (source : FileError)
  | verify (source : Error)
  /-- Each entry is `<line> (want <bool>)`. -/
  | drift (mismatched : List String)
  | joined (errors : List Error)
  | query (source : OpsError)
  | filtersInaccessible (inaccessible total : Nat)
  | filterMissing
  | unsupportedAttachMode (flags : BitVec 32)
  | ops (source : OpsError)
  | canonical (source : CanonicalError)
  | owned (source : OwnedError)
  | gate (source : GateError)
  | decode (source : DecodeError)
  | emit (source : EmitError)
  | nonce (source : NonceError)
  /-- Step `step` of the `steps` of a pass failed; the earlier ones are done. -/
  | change (step steps : Nat) (source : Error)
  | replace (source : OpsError)
  | attachNew (source : OpsError)
  | detachOriginal (source : OpsError)
  | rollback (source : OpsError)
  /-- Not an error of the source: an index out of bounds, which panics. No plan has one. -/
  | outOfBounds

end Sda
