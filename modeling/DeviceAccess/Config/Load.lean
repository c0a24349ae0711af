import DeviceAccess.Config.Yaml
import DeviceAccess.Error
import DeviceAccess.Policy.Policy

/-!
# Loading the config file (`src/config/mod.rs`)

`load_file` reads the file, takes its first document through the shape pass and the strict decode,
refuses a second document and validates the enumerated values last. The YAML parser is outside:
`Document` is what it makes of the bytes of a file.
-/

namespace Sda
namespace Config

open Policy

/-- The accepted `log-format` values. -/
def logFormats : List (List Char) := ["text".toList, "json".toList]
/-- The accepted `log-level` values. -/
def logLevels : List (List Char) := ["debug".toList, "info".toList, "warn".toList, "error".toList]

/-! ## Errors -/

/-- What is wrong with an enumerated value. -/
inductive EnumProblem where
  | unknownValue (value : List Char) (accepted : List (List Char))
  | policyMode (source : PolicyError)
  deriving DecidableEq, Repr

/-- An enumerated setting with a value outside its set. -/
structure EnumError where
  /-- What set the value: `key` for the file, `setting` for the effective settings. -/
  source : String
  key : Key
  problem : EnumProblem
  deriving DecidableEq, Repr

/-- What the YAML parser says of a text it refuses. -/
structure SyntaxError where
  text : String
  deriving DecidableEq, Repr

/-- Why a file that parsed is refused. -/
inductive FileError where
  | shape (source : ShapeError)
  | decode (source : DecodeError)
  | trailingContent (source : SyntaxError)
  | multipleDocuments
  | enum (source : EnumError)
  deriving DecidableEq, Repr

/-- Why the config file could not be loaded. -/
inductive LoadError where
  /-- With the system call that failed. -/
  | read (path : List Char) (operation : String) (errno : Errno)
  | parse (path : List Char) (source : SyntaxError)
  | file (path : List Char) (source : FileError)
  deriving DecidableEq, Repr

/-! ## The file -/

/-- `validate_enums`: an empty value is not set and passes. -/
def validateEnums (logFormat logLevel policyMode : List Char) (source : String) :
    Except EnumError Unit :=
  if !logFormat.isEmpty && !logFormats.contains logFormat then
    .error ⟨source, .logFormat, .unknownValue logFormat logFormats⟩
  else if !logLevel.isEmpty && !logLevels.contains logLevel then
    .error ⟨source, .logLevel, .unknownValue logLevel logLevels⟩
  else if policyMode.isEmpty then .ok ()
  else
    match parseMode (String.ofList policyMode) with
    | .ok _ => .ok ()
    | .error error => .error ⟨source, .policyMode, .policyMode error⟩

/-- The first document of a file, and whether the file ends after it. -/
structure Document where
  size : Nat
  tree : Tree size
  atEnd : Except SyntaxError Bool

/-- What reading a file gives: its bytes, or the system call that failed. -/
abbrev Reading := Except (String × Errno) Bytes

/-- The file is one document. -/
def Document.single (document : Document) : Except FileError Unit :=
  match document.atEnd with
  | .ok true => .ok ()
  | .ok false => .error .multipleDocuments
  | .error source => .error (.trailingContent source)

/-- What `load_file` makes of the first document. -/
def Document.load (floats : Floats) (document : Document) : Except FileError FileSchema := do
  if document.tree.isEmptyDocument then
    -- Still exactly one document.
    document.single
    return {}
  document.tree.checkShapes.mapError .shape
  let schema ← (document.tree.decode floats).mapError .decode
  document.single
  (validateEnums schema.logFormat schema.logLevel schema.policyMode "key").mapError .enum
  return schema

/-- `load_file`: the config file at `path`, or the empty schema for an empty path. -/
def loadFile (parse : Bytes → Except SyntaxError Document) (floats : Floats) (path : List Char)
    (reading : Reading) : Except LoadError FileSchema := do
  if path.isEmpty then return {}
  let data ← reading.mapError fun failure => .read path failure.1 failure.2
  let document ← (parse data).mapError (.parse path)
  (document.load floats).mapError (.file path)

end Config
end Sda
