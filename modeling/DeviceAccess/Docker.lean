import DeviceAccess.Policy.Policy

/-!
# What Docker reports (`src/docker/types.rs`)

The answers of the Engine API, with the fields the daemon reads.
-/

namespace Sda
namespace Docker

/-- A mount of a container. -/
structure MountPoint where
  /-- `bind`, `volume`, `tmpfs`, ... -/
  kind : String
  source : Path
  deriving DecidableEq, Repr

/-- The state of a container. -/
structure ContainerState where
  running : Bool
  pid : Int
  /-- As sent. -/
  startedAt : String
  deriving DecidableEq, Repr

/-- The answer of a container inspect. -/
structure ContainerInspect where
  state : Option ContainerState
  labels : Option Policy.Labels
  privileged : Option Bool
  mounts : List MountPoint

end Docker
end Sda
