import DeviceAccess.Error
import DeviceAccess.Lexpath
import DeviceAccess.Lib.Action

/-!
# The `/dev` the daemon sees (`src/processor/devfs.rs`)

`DevFs` is the seam between device discovery and the kernel. Its operations run on a state of their
own, so that the answers can change from one call to the next in any way.

A walk is given by the visits it makes. A visitor that looks at `/dev` between two visits changes
the state, and what the walk goes on to visit can have depended on that; since the visits are those
of the one state the walk began in, every such sequence of visits is still the walk of some `DevFs`.
-/

namespace Sda
namespace Processor

open Sda.Filter

/-- Where the daemon sees the host's `/dev`. -/
def devRoot : Path := "/dev".toList

/-- A failed system call. -/
structure SysError where
  context : String
  errno : Errno
  deriving DecidableEq, Repr

/-- A device number and its type. -/
structure DeviceId where
  kind : DeviceType
  major : BitVec 32
  minor : BitVec 32
  deriving DecidableEq, Repr

/-- The letter of a device rule. -/
def DeviceId.letter (id : DeviceId) : String :=
  match id.kind with
  | .char => "c"
  | .block => "b"

/-- What a resolved `/dev` entry is. -/
inductive NodeKind where
  | device (id : DeviceId)
  | dir
  | other
  deriving DecidableEq, Repr

/-- One visit of a walk: the path, whether it is a directory, and the error that stopped the walk
from reading it. -/
structure Visit where
  path : Path
  isDir : Bool
  error : Option SysError
  deriving DecidableEq, Repr

/-- Resolves names under `/dev` without leaving it. `σ` is what the answers depend on, `ν` an entry
that was opened. -/
structure DevFs (σ ν : Type) where
  /-- The directory that stands for `/dev`, for enumerating names. -/
  root : Path
  /-- Opens the entry at a path relative to `/dev`, following symlinks but refusing any step
  outside. -/
  openBeneath : Path → Action σ SysError ν
  /-- The type of an entry and, for a device, its number. -/
  stat : ν → Action σ SysError NodeKind
  /-- The `/dev` path of an entry, empty when it is not under `/dev`. -/
  resolved : ν → σ → Path × σ
  /-- The target of the symlink at a path itself. -/
  readLink : Path → Action σ SysError Path
  /-- The sysfs uevent of a device. -/
  readUevent : DeviceId → Action σ SysError Bytes
  /-- The names under a directory. -/
  walk : Path → σ → List Visit × σ

/-- The answers never change. -/
structure DevFs.Steady {σ ν : Type} (dev : DevFs σ ν) : Prop where
  openBeneath : ∀ path s, (dev.openBeneath path s).2 = s
  stat : ∀ node s, (dev.stat node s).2 = s
  resolved : ∀ node s, (dev.resolved node s).2 = s
  readLink : ∀ path s, (dev.readLink path s).2 = s
  readUevent : ∀ id s, (dev.readUevent id s).2 = s
  walk : ∀ path s, (dev.walk path s).2 = s

end Processor
end Sda
