import DeviceAccess.Policy.Glob

/-!
# The device-access policy (`src/policy/mod.rs`)

The daemon-wide policy (`Global`) is the most a container gets. The labels of a container are
untrusted: they can only narrow it, deny always wins over allow, and a malformed label is an error.
An allow list that is absent or empty allows everything.

A `Global` is made only from lists that were checked, so it carries that they were; so does the
policy of a container.
-/

namespace Sda
namespace Policy

open Lexpath

/-- Which containers the daemon processes by default. -/
inductive Mode where
  | optIn
  | all
  deriving DecidableEq, Repr

/-- A glob that would never match a device path. -/
inductive GlobError where
  | badPattern (pattern : Pattern) (source : BadPattern)
  | notClean (pattern : Pattern)
  | outsideDev (pattern : Pattern)
  deriving DecidableEq, Repr

/-- `swarm-device-access.enable`. -/
def labelEnable : String := "swarm-device-access.enable"
/-- `swarm-device-access.device-allow`. -/
def labelDeviceAllow : String := "swarm-device-access.device-allow"
/-- `swarm-device-access.device-deny`. -/
def labelDeviceDeny : String := "swarm-device-access.device-deny"

/-- A policy that cannot be used. -/
inductive PolicyError where
  | unknownMode (mode : String)
  | notABoolean (label value : String)
  | labelGlob (label : String) (source : GlobError)
  | deviceAllow (source : GlobError)
  | deviceDeny (source : GlobError)
  deriving DecidableEq, Repr

/-- `parse_mode`. -/
def parseMode (mode : String) : Except PolicyError Mode :=
  if mode = "opt-in" then .ok .optIn
  else if mode = "all" then .ok .all
  else .error (.unknownMode mode)

/-- What every glob must start with. -/
def devPrefix : Path := "/dev/".toList

/-- `validate_globs`: each pattern in order must be well-formed, clean and under `/dev/`. -/
def validateGlobs : List Pattern → Except GlobError Unit
  | [] => .ok ()
  | pattern :: patterns =>
    match Glob.compile pattern with
    | .error source => .error (.badPattern pattern source)
    | .ok _ =>
      if clean pattern ≠ pattern then .error (.notClean pattern)
      else if !devPrefix.isPrefixOf pattern then .error (.outsideDev pattern)
      else validateGlobs patterns

/-- A list of globs, `none` when it is not given. -/
abbrev Globs := Option (List Pattern)

/-- The daemon-wide policy. -/
structure Global where
  mode : Mode
  deviceAllow : Globs
  deviceDeny : Globs
  valid_allow : validateGlobs (deviceAllow.getD []) = .ok ()
  valid_deny : validateGlobs (deviceDeny.getD []) = .ok ()

/-- The policy of a container, from its labels. -/
structure Container where
  enable : Option Bool
  deviceAllow : Globs
  deviceDeny : Globs
  valid_allow : validateGlobs (deviceAllow.getD []) = .ok ()
  valid_deny : validateGlobs (deviceDeny.getD []) = .ok ()

/-- No globs are valid. -/
theorem validateGlobs_none : validateGlobs ((none : Globs).getD []) = .ok () := rfl

/-- No labels. -/
def Container.default : Container := ⟨none, none, none, validateGlobs_none, validateGlobs_none⟩

/-- The globs of a list that was checked. -/
def checkGlobs (globs : Globs) :
    Except GlobError { globs : Globs // validateGlobs (globs.getD []) = .ok () } :=
  match h : validateGlobs (globs.getD []) with
  | .ok () => .ok ⟨globs, h⟩
  | .error source => .error source

/-- `Global::new`: the mode, then the allow globs, then the deny globs. -/
def Global.new (mode : String) (deviceAllow deviceDeny : Globs) : Except PolicyError Global := do
  let mode ← parseMode mode
  let allow ← (checkGlobs deviceAllow).mapError .deviceAllow
  let deny ← (checkGlobs deviceDeny).mapError .deviceDeny
  .ok ⟨mode, allow.1, deny.1, allow.2, deny.2⟩

/-- `match_any`. -/
def matchAny (patterns : Globs) (path : Path) : Bool :=
  (patterns.getD []).any fun pattern => Glob.globMatches pattern path

/-- `is_empty`: a list that is not given, or empty. -/
def isEmpty (patterns : Globs) : Bool := (patterns.getD []).isEmpty

namespace Global

/-- `enabled`: whether a container is processed. -/
def enabled (global : Global) (container : Container) : Bool :=
  if container.enable = some false then false
  else
    match global.mode with
    | .optIn => container.enable == some true
    | .all => true

/-- `denied`: whether the path matches a deny glob of either. -/
def denied (global : Global) (container : Container) (path : Path) : Bool :=
  matchAny global.deviceDeny path || matchAny container.deviceDeny path

/-- `authorized`: whether the path passes both allow lists. -/
def authorized (global : Global) (container : Container) (path : Path) : Bool :=
  if !isEmpty global.deviceAllow && !matchAny global.deviceAllow path then false
  else isEmpty container.deviceAllow || matchAny container.deviceAllow path

end Global

/-! ## Labels -/

/-- The labels of a container: what each key is set to. -/
abbrev Labels := String → Option String

/-- `parse_bool`. -/
def parseBool (value : String) : Option Bool :=
  if value = "true" then some true
  else if value = "false" then some false
  else none

/-- White space that `trim` takes off. -/
def isSpace (c : Char) : Bool :=
  c == ' ' || ('\t' ≤ c && c ≤ '\r') || [0x85, 0xa0, 0x1680, 0x2028, 0x2029, 0x202f, 0x205f,
    0x3000].contains c.toNat ||
    (0x2000 ≤ c.toNat && c.toNat ≤ 0x200a)

def trim (text : List Char) : List Char :=
  ((text.dropWhile isSpace).reverse.dropWhile isSpace).reverse

/-- `split_and_trim`. -/
def splitAndTrim (raw : List Char) : List Pattern :=
  ((raw.splitOn ',').map trim).filter fun part => !part.isEmpty

/-- `parse_glob_list`: the globs of a label; an absent or empty label is no list. -/
def parseGlobList (labels : Labels) (label : String) :
    Except PolicyError { globs : Globs // validateGlobs (globs.getD []) = .ok () } :=
  let raw := ((labels label).getD "").toList
  if raw.isEmpty then .ok ⟨none, rfl⟩
  else (checkGlobs (some (splitAndTrim raw))).mapError (.labelGlob label)

/-- The `enable` label. -/
def parseEnable (labels : Labels) : Except PolicyError (Option Bool) :=
  match labels labelEnable with
  | none => .ok none
  | some value =>
    match parseBool value with
    | some enable => .ok (some enable)
    | none => .error (.notABoolean labelEnable value)

/-- `Container::parse`. -/
def Container.parse (labels : Labels) : Except PolicyError Container := do
  let enable ← parseEnable labels
  let allow ← parseGlobList labels labelDeviceAllow
  let deny ← parseGlobList labels labelDeviceDeny
  .ok ⟨enable, allow.1, deny.1, allow.2, deny.2⟩

end Policy
end Sda
