import DeviceAccess.Lexpath
import DeviceAccess.Text

/-!
# Where a process's device cgroup is (`src/cgroup/api.rs`, `src/processor/pin.rs`)

The `cgroup` file of a process names its cgroup in every hierarchy, and its `mountinfo` file says
which part of the hierarchy is mounted where. `parseProcCgroup` reads both, and `hostCgroupPath`
joins what it found to the path of the cgroup's directory in the host's view.

The scanners of the two hierarchies are one loop each, over the lines of the file: what differs is
which line they select and the error when there is none.
-/

namespace Sda
namespace Cgroup

open Lexpath

inductive CgroupVersion where
  /-- The `devices` controller of the legacy hierarchy; a hybrid host resolves here. -/
  | v1
  /-- The unified hierarchy, with a BPF device filter. -/
  | v2
  deriving DecidableEq, Repr

/-- The files of a process that are read. -/
inductive ProcFile where
  | cgroup
  | mountinfo
  deriving DecidableEq, Repr

/-- Where a process's device cgroup lives. -/
structure ProcCgroup where
  version : CgroupVersion
  /-- The root of the cgroup mount, from mountinfo. -/
  mountPrefix : Path
  /-- Where the hierarchy is mounted, from mountinfo. -/
  mountPoint : Path
  /-- The process's cgroup below `mountPrefix`. -/
  root : Path
  deriving DecidableEq, Repr

/-- Why the files do not say where the device cgroup is. -/
inductive ParseError where
  | malformedCgroupEntry (line : Path)
  | malformedMountinfoEntry (line : Path)
  | relativeMountPrefix (mountPrefix : Path)
  | noDeviceOrUnifiedCgroup
  | noCgroupV1Fs
  | noDevicesCgroup
  | noCgroup2Fs
  | noCgroupV2Entry
  | read (file : ProcFile) (source : Text.LineTooLong)
  deriving DecidableEq, Repr

/-- A line of a file, or why it cannot be read. -/
abbrev Line := Except ParseError Path

/-- `scan_lines`. -/
def scanLines (data : Bytes) (file : ProcFile) : List Line :=
  (Text.lines data).map fun line => (line.map Text.fromUtf8Lossy).mapError (.read file)

/-- `splitn`: at most `n` parts, the last one with every further separator. -/
def splitn (sep : Char) : Nat → Path → List Path
  | 0, _ => []
  | 1, text => [text]
  | n + 2, text =>
    if sep ∈ text then
      text.takeWhile (· != sep) :: splitn sep (n + 1) ((text.dropWhile (· != sep)).drop 1)
    else [text]

/-! ## The cgroup file -/

def devices : Path := "devices".toList

/-- The loop of `scan_cgroup_version`. -/
def scanVersionFrom (hasDevices unified : Bool) : List Line → Except ParseError CgroupVersion
  | [] =>
    if hasDevices then .ok .v1
    else if unified then .ok .v2
    else .error .noDeviceOrUnifiedCgroup
  | line :: lines => do
    let line ← line
    match splitn ':' 3 line with
    | [_, controllers, _] =>
      scanVersionFrom (hasDevices || controllers == devices) (unified || controllers.isEmpty) lines
    | _ => .error (.malformedCgroupEntry line)

/-- `scan_cgroup_version`: v1 when the file has a `devices` entry, v2 when it has a unified one. -/
def scanCgroupVersion (data : Bytes) (file : ProcFile) : Except ParseError CgroupVersion :=
  scanVersionFrom false false (scanLines data file)

/-- `strip_prefix(..).unwrap_or(..)`, unless there is nothing to strip. -/
def stripRoot (mountPrefix root : Path) : Path :=
  if mountPrefix = ['/'] then root
  else if mountPrefix.isPrefixOf root then root.drop mountPrefix.length
  else root

/-- The entry of the cgroup file with the controllers. -/
def scanProcCgroupFrom (wanted : Path) (missing : ParseError) (mountPrefix : Path) :
    List Line → Except ParseError Path
  | [] => .error missing
  | line :: lines => do
    let line ← line
    match splitn ':' 3 line with
    | [_, controllers, root] =>
      if controllers ≠ wanted then scanProcCgroupFrom wanted missing mountPrefix lines
      else .ok (stripRoot mountPrefix root)
    | _ => .error (.malformedCgroupEntry line)

/-- `scan_proc_cgroup_v1`. -/
def scanProcCgroupV1 (data : Bytes) (file : ProcFile) (mountPrefix : Path) :
    Except ParseError Path :=
  scanProcCgroupFrom devices .noDevicesCgroup mountPrefix (scanLines data file)

/-- `scan_proc_cgroup_v2`. -/
def scanProcCgroupV2 (data : Bytes) (file : ProcFile) (mountPrefix : Path) :
    Except ParseError Path :=
  scanProcCgroupFrom [] .noCgroupV2Entry mountPrefix (scanLines data file)

/-! ## The mountinfo file -/

/-- The filesystem type, the third field from the end. -/
def fsType (parts : List Path) : Path := parts.getD (parts.length - 3) []

/-- The first entry that is selected: the mount's root and its mount point. -/
def scanMountInfoFrom (selects : List Path → Bool) (missing : ParseError) :
    List Line → Except ParseError (Path × Path)
  | [] => .error missing
  | line :: lines => do
    let line ← line
    let parts := line.splitOn ' '
    if parts.length < 5 then .error (.malformedMountinfoEntry line)
    else if !selects parts then scanMountInfoFrom selects missing lines
    else if "/..".toList.isPrefixOf (parts.getD 3 []) then
      .error (.relativeMountPrefix (parts.getD 3 []))
    else .ok (parts.getD 3 [], parts.getD 4 [])

/-- The mount of the `devices` hierarchy. -/
def selectsV1 (parts : List Path) : Bool :=
  fsType parts == "cgroup".toList && base (parts.getD 4 []) == devices

/-- The mount of the unified hierarchy. -/
def selectsV2 (parts : List Path) : Bool := fsType parts == "cgroup2".toList

/-- `scan_mount_info_v1`. -/
def scanMountInfoV1 (data : Bytes) (file : ProcFile) : Except ParseError (Path × Path) :=
  scanMountInfoFrom selectsV1 .noCgroupV1Fs (scanLines data file)

/-- `scan_mount_info_v2`. -/
def scanMountInfoV2 (data : Bytes) (file : ProcFile) : Except ParseError (Path × Path) :=
  scanMountInfoFrom selectsV2 .noCgroup2Fs (scanLines data file)

/-! ## Both -/

/-- `parse_proc_cgroup`. -/
def parseProcCgroup (cgroup mountinfo : Bytes) : Except ParseError ProcCgroup := do
  match ← scanCgroupVersion cgroup .cgroup with
  | .v1 =>
    let (mountPrefix, point) ← scanMountInfoV1 mountinfo .mountinfo
    let root ← scanProcCgroupV1 cgroup .cgroup mountPrefix
    .ok ⟨.v1, mountPrefix, point, root⟩
  | .v2 =>
    let (mountPrefix, point) ← scanMountInfoV2 mountinfo .mountinfo
    let root ← scanProcCgroupV2 cgroup .cgroup mountPrefix
    .ok ⟨.v2, mountPrefix, point, root⟩

/-- `host_cgroup_path`. -/
def hostCgroupPath (hostRoot mountPoint mountPrefix root : Path) : Path :=
  join [hostRoot, mountPoint, mountPrefix, root]

end Cgroup
end Sda
