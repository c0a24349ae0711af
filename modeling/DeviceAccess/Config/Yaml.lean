import DeviceAccess.Config.Resolve
import DeviceAccess.Lib.Action

/-!
# The two passes over a config file (`src/config/yaml.rs`)

A document is a tree of nodes in an arena. `checkShapes` looks at the value of every key it knows,
and `decode` reads the document into the file's settings. The first compares a key node's own text,
where an alias has the name of its anchor; the second follows aliases and resolves tags.

The parser is outside: a `Tree` is what it builds. Nodes are numbered below the size of the arena,
so that no index is out of range, and an anchor never sits on an alias. The document node, which
only holds the root, is left out.
-/

namespace Sda
namespace Config

/-! ## The settings -/

/-- What a known key's value must look like. -/
inductive Shape where
  | bool
  | nonEmptyString
  | string
  | nonEmptyStringList
  deriving DecidableEq, Repr

/-- The keys of the schema. -/
inductive Key where
  | logFormat | logLevel | logTime | dockerSocket | dryRun | policyMode | deviceAllow | deviceDeny
  | metricsAddr | debugAddr
  deriving DecidableEq, Repr

namespace Key

def text : Key → String
  | logFormat => "log-format"
  | logLevel => "log-level"
  | logTime => "log-time"
  | dockerSocket => "docker-socket"
  | dryRun => "dry-run"
  | policyMode => "policy-mode"
  | deviceAllow => "device-allow"
  | deviceDeny => "device-deny"
  | metricsAddr => "metrics-addr"
  | debugAddr => "debug-addr"

def name (key : Key) : List Char := key.text.toList

def shape : Key → Shape
  | logFormat | logLevel | dockerSocket | policyMode => .nonEmptyString
  | logTime | dryRun => .bool
  | deviceAllow | deviceDeny => .nonEmptyStringList
  | metricsAddr | debugAddr => .string

/-- `KEYS`, in its order. -/
def all : List Key :=
  [logFormat, logLevel, logTime, dockerSocket, dryRun, policyMode, deviceAllow,
    deviceDeny, metricsAddr, debugAddr]

/-- The key of a name. -/
def find (name : List Char) : Option Key := all.find? (·.name == name)

end Key

/-- The settings the config file may set. An empty string and `none` mean that the file does not. -/
structure FileSchema where
  logFormat : List Char := []
  logLevel : List Char := []
  logTime : Option Bool := none
  dockerSocket : List Char := []
  dryRun : Option Bool := none
  policyMode : List Char := []
  deviceAllow : Option (List (List Char)) := none
  deviceDeny : Option (List (List Char)) := none
  metricsAddr : List Char := []
  debugAddr : List Char := []
  deriving DecidableEq, Repr

/-- Where a decoded value goes, with what is there. -/
inductive Target where
  | schema (value : FileSchema)
  | string (value : List Char)
  | bool (value : Bool)
  | optionalBool (value : Option Bool)
  | list (value : Option (List (List Char)))
  deriving DecidableEq, Repr

namespace Target

def typeName : Target → String
  | schema _ => "config.FileSchema"
  | string _ => "string"
  | bool _ => "bool"
  | optionalBool _ => "*bool"
  | list _ => "[]string"

/-- The string in a target for strings. -/
def text : Target → List Char
  | string value => value
  | _ => []

/-- The optional boolean whose value was decoded. -/
def allocated : Target → Target
  | bool value => optionalBool (some value)
  | target => target

/-- `null`: a nil pointer or slice is set; nothing else takes a null. -/
def null : Target → Bool × Target
  | optionalBool _ => (true, optionalBool none)
  | list _ => (true, list none)
  | target => (false, target)

end Target

namespace FileSchema

/-- `field`: a key's setting as a decode target. -/
def field (schema : FileSchema) : Key → Target
  | .logFormat => .string schema.logFormat
  | .logLevel => .string schema.logLevel
  | .logTime => .optionalBool schema.logTime
  | .dockerSocket => .string schema.dockerSocket
  | .dryRun => .optionalBool schema.dryRun
  | .policyMode => .string schema.policyMode
  | .deviceAllow => .list schema.deviceAllow
  | .deviceDeny => .list schema.deviceDeny
  | .metricsAddr => .string schema.metricsAddr
  | .debugAddr => .string schema.debugAddr

/-- The schema after a write to a key's setting. -/
def set (schema : FileSchema) : Key → Target → FileSchema
  | .logFormat, .string value => { schema with logFormat := value }
  | .logLevel, .string value => { schema with logLevel := value }
  | .logTime, .optionalBool value => { schema with logTime := value }
  | .dockerSocket, .string value => { schema with dockerSocket := value }
  | .dryRun, .optionalBool value => { schema with dryRun := value }
  | .policyMode, .string value => { schema with policyMode := value }
  | .deviceAllow, .list value => { schema with deviceAllow := value }
  | .deviceDeny, .list value => { schema with deviceDeny := value }
  | .metricsAddr, .string value => { schema with metricsAddr := value }
  | .debugAddr, .string value => { schema with debugAddr := value }
  | _, _ => schema

end FileSchema

/-! ## Trees -/

inductive Kind where
  | sequence | mapping | scalar | alias
  deriving DecidableEq, Repr

/-- A node of an arena of `n` nodes. -/
structure Node (n : Nat) where
  kind : Kind
  /-- The short tag; none for an alias. -/
  tag : Option Tag
  /-- A scalar's text, or an alias's anchor name. -/
  value : List Char := []
  /-- Whether a scalar was quoted or a block scalar. -/
  quoted : Bool := false
  line : Nat := 1
  content : List (Fin n) := []
  /-- An alias's target. -/
  aliased : Option (Fin n) := none

/-- One document's nodes. -/
structure Tree (n : Nat) where
  nodes : Fin n → Node n
  /-- The document's root, when there is a document. -/
  root : Option (Fin n)
  /-- An alias is to a node with an anchor, and an anchor cannot sit on an alias. -/
  anchored : ∀ index, (nodes index).kind = .alias →
    ∃ target, (nodes index).aliased = some target ∧ (nodes target).kind ≠ .alias

/-- The keys and values of a mapping's content: `chunks(2)`, without an incomplete chunk. -/
def pairs {α : Type} : List α → List (α × α)
  | key :: value :: rest => (key, value) :: pairs rest
  | _ => []

/-- Every second element: `step_by(2)`. -/
def stepByTwo {α : Type} : List α → List α
  | key :: _ :: rest => key :: stepByTwo rest
  | [key] => [key]
  | [] => []

/-- `indicated_string`. -/
def Node.indicatedString {n : Nat} (node : Node n) : Bool :=
  node.kind = .scalar && (node.tag = some .str || (node.tag = none && node.quoted))

/-- `short_tag` of a node that is no alias. -/
def Node.shortTag {n : Nat} (node : Node n) : Option Tag :=
  if node.indicatedString then some .str else node.tag

/-- What the shape pass refuses. -/
inductive ShapeError where
  | notAMapping
  | mergeKey
  | aliasCycle (key : Option Key)
  | wrongShape (key : Key) (shape : Shape)
  deriving DecidableEq, Repr

namespace Tree

variable {n : Nat} (t : Tree n)

/-- `is_empty_document`: no document, or one whose root is the empty plain null. -/
def isEmptyDocument : Bool :=
  t.root.all fun root =>
    (t.nodes root).kind = .scalar && (t.nodes root).tag = some .null && (t.nodes root).value.isEmpty

/-- The loop of `deref`. The visited list grows in every turn, so `fuel` is the number of nodes and
one. -/
def derefFrom : Nat → List (Fin n) → Fin n → Except Unit (Fin n)
  | 0, _, _ => .error ()
  | fuel + 1, visited, index =>
    if (t.nodes index).kind = .alias then
      if index ∈ visited then .error ()
      else
        match (t.nodes index).aliased with
        | none => .error ()
        | some target => derefFrom fuel (visited ++ [index]) target
    else .ok index

/-- `deref`: follows aliases to the node they name. -/
def deref (index : Fin n) : Except Unit (Fin n) := t.derefFrom (n + 1) [] index

/-- `has_shape`, of a node that is not a list. -/
def hasScalarShape (index : Fin n) : Shape → Bool
  | .bool => (t.nodes index).kind = .scalar && (t.nodes index).tag = some .bool
  | .nonEmptyString =>
    (t.nodes index).kind = .scalar && (t.nodes index).tag = some .str &&
      !(t.nodes index).value.isEmpty
  | .string => (t.nodes index).kind = .scalar && (t.nodes index).tag = some .str
  | .nonEmptyStringList => false

/-- `has_shape`, for a node whose aliases were followed. -/
def hasShape (index : Fin n) : Shape → Bool
  | .nonEmptyStringList =>
    (t.nodes index).kind = .sequence && (t.nodes index).content.all fun item =>
      match t.deref item with
      | .ok item => t.hasScalarShape item .nonEmptyString
      | .error () => false
  | shape => t.hasScalarShape index shape

/-- One entry of the root mapping in `check_shapes`. -/
def checkEntry (key value : Fin n) : Except ShapeError Unit :=
  if (t.nodes key).tag = some .merge ∨ (t.nodes key).value = "<<".toList then .error .mergeKey
  else
    match Key.find (t.nodes key).value with
    | none => .ok ()
    | some known =>
      match t.deref value with
      | .error () => .error (.aliasCycle (some known))
      | .ok value =>
        if t.hasShape value known.shape then .ok () else .error (.wrongShape known known.shape)

def checkEntries : List (Fin n × Fin n) → Except ShapeError Unit
  | [] => .ok ()
  | (key, value) :: rest => do
    t.checkEntry key value
    checkEntries rest

/-- `check_shapes`: the root is a mapping without merge keys, and every known key's value has its
shape. -/
def checkShapes : Except ShapeError Unit :=
  match t.root with
  | none => .error .notAMapping
  | some root =>
    match t.deref root with
    | .error () => .error (.aliasCycle none)
    | .ok root =>
      if (t.nodes root).kind ≠ .mapping then .error .notAMapping
      else t.checkEntries (pairs (t.nodes root).content)

end Tree

/-! ## The decoder -/

/-- A recorded type error. -/
inductive TypeError where
  /-- `cannot unmarshal`, with the text that is shown of the value. -/
  | cannotUnmarshal (line : Nat) (tag : Tag) (shown : List Char) (typeName : String)
  /-- `mapping key already defined at line`. -/
  | alreadyDefined (line : Nat) (key : List Char) (firstLine : Nat)
  /-- `field not found in type`. -/
  | fieldNotFound (line : Nat) (name : List Char)
  /-- `field already set in type`. -/
  | fieldAlreadySet (line : Nat) (name : List Char)
  deriving DecidableEq, Repr

/-- A failed strict decode. -/
inductive DecodeError where
  | unmarshal (errors : List TypeError)
  | excessiveAliasing
  | containsItself (anchor : List Char)
  | cannotDecode (cause : CannotDecode)
  | invalidBase64
  /-- The model's own bound on the nesting, which no tree reaches. -/
  | tooDeep
  deriving DecidableEq, Repr

structure Decoder (n : Nat) where
  errors : List TypeError := []
  activeAliases : Fin n → Bool := fun _ => false
  decodeCount : Nat := 0
  aliasCount : Nat := 0
  aliasDepth : Nat := 0

/-- A step of the decoder. -/
abbrev Decode (n : Nat) := Action (Decoder n) DecodeError

/-- The bytes of a text. -/
def bytesOf (text : List Char) : Bytes := (String.ofList text).toUTF8.toList.map UInt8.toBitVec

/-- The YAML 1.1 spellings that still decode into a typed bool. -/
def yaml11Bool (text : List Char) : Option Bool :=
  if text ∈ ["y", "Y", "yes", "Yes", "YES", "on", "On", "ON"].map String.toList then some true
  else if text ∈ ["n", "N", "no", "No", "NO", "off", "Off", "OFF"].map String.toList then some false
  else none

namespace Decoder

variable {n : Nat}

/-- Records a type error. -/
def push (error : TypeError) : Decode n Unit :=
  .modify fun d => { d with errors := d.errors ++ [error] }

/-- `count`: the aliasing guard. -/
def count (floats : Floats) : Decode n Unit := do
  .modify fun d => { d with
    decodeCount := d.decodeCount + 1
    aliasCount := if d.aliasDepth > 0 then d.aliasCount + 1 else d.aliasCount }
  let d ← Action.get
  if d.aliasCount > 100 ∧ d.decodeCount > 1000 ∧ floats.exceeds d.aliasCount d.decodeCount then
    .fail .excessiveAliasing
  else pure ()

/-- `type_error`. Ten bytes of a value are shown, and seven of a longer one, cut inside a character
if need be. -/
def typeError (node : Node n) (tag : Tag) (target : Target) : Decode n Unit :=
  let tag := node.tag.getD tag
  let shown :=
    if tag = .seq ∨ tag = .map then []
    else if 10 < (bytesOf node.value).length then
      Text.fromUtf8Lossy ((bytesOf node.value).take 7) ++ "...".toList
    else node.value
  push (.cannotUnmarshal node.line tag shown target.typeName)

/-- What a scalar resolves to, binary data decoded. -/
def reading (floats : Floats) (node : Node n) : Except DecodeError (Option (Tag × Resolved)) :=
  if node.indicatedString then .ok (some (.str, .text node.value))
  else
    match resolve floats node.tag node.value with
    | .error cause => .error (.cannotDecode cause)
    | .ok (tag, resolved) =>
      if tag = .binary then
        match resolved with
        | .text encoded =>
          match decodeBase64 encoded with
          | some decoded => .ok (some (tag, .text (Text.fromUtf8Lossy decoded)))
          | none => .error .invalidBase64
        | _ => .ok none
      else .ok (some (tag, resolved))

/-- The target with a scalar in it, none for a type error. -/
def place (node : Node n) (tag : Tag) (resolved : Resolved) (target : Target) :
    Option (Bool × Target) :=
  if resolved = .null then some target.null
  else
    match target, resolved with
    | .string _, .text text =>
      if tag = .binary then some (true, .string text) else some (true, .string node.value)
    | .string _, _ => some (true, .string node.value)
    | .bool _, .bool flag => some (true, .bool flag)
    | .bool _, .text text => (yaml11Bool text).map fun flag => (true, .bool flag)
    | _, _ => none

/-- `scalar`. -/
def scalar (floats : Floats) (node : Node n) (target : Target) : Decode n (Bool × Target) := do
  match ← Action.ofExcept (reading floats node) with
  | none => pure (false, target)
  | some (tag, resolved) =>
    match place node tag resolved target with
    | some done => pure done
    | none => do
      typeError node tag target
      pure (false, target)

/-- A step at the target of an alias. A failure ends the decode, so nothing has to be taken back
after one. -/
def inAlias {α : Type} (floats : Floats) (index : Fin n) (step : Decode n α) : Decode n α := do
  .modify fun d => { d with
    activeAliases := Function.update d.activeAliases index true
    aliasDepth := d.aliasDepth + 1 }
  count floats
  let done ← step
  .modify fun d => { d with
    activeAliases := Function.update d.activeAliases index false
    aliasDepth := d.aliasDepth - 1 }
  pure done

section Recursion

variable (floats : Floats) (t : Tree n) (unmarshal : Fin n → Target → Decode n (Bool × Target))

/-- The items of a list that were set. -/
def items : List (Fin n) → List (List Char) → Decode n (List (List Char))
  | [], found => pure found
  | item :: rest, found => do
    count floats
    let (set, out) ← unmarshal item (.string [])
    items rest (if set then found ++ [out.text] else found)

/-- `sequence`. -/
def sequence (node : Node n) (target : Target) : Decode n (Bool × Target) :=
  match target with
  | .list _ => do
    let found ← items floats unmarshal node.content []
    pure (true, .list (some found))
  | _ => do
    typeError node .seq target
    pure (false, target)

/-- An entry whose key stands for `name`: the key's setting is decoded, once. -/
def entry (key value : Fin n) (name : List Char) (done : List Key) (schema : FileSchema) :
    Decode n (List Key × FileSchema) :=
  match Key.find name with
  | none => do
    push (.fieldNotFound (t.nodes key).line name)
    pure (done, schema)
  | some field =>
    if field ∈ done then do
      push (.fieldAlreadySet (t.nodes key).line name)
      pure (done, schema)
    else do
      count floats
      let (_, written) ← unmarshal value (schema.field field)
      pure (field :: done, schema.set field written)

/-- `mapping_struct`, with the keys that are done. -/
def entries : List (Fin n × Fin n) → List Key → FileSchema → Decode n FileSchema
  | [], _, schema => pure schema
  | (key, value) :: rest, done, schema => do
    count floats
    let (set, out) ← unmarshal key (.string [])
    if set then do
      let (done, schema) ← entry floats t unmarshal key value out.text done schema
      entries rest done schema
    else entries rest done schema

/-- The keys that repeat an earlier one, as nodes of one kind and one text. -/
def duplicates : List (Fin n) → List TypeError
  | [] => []
  | first :: rest =>
    rest.filterMap (fun second =>
      if (t.nodes first).kind = (t.nodes second).kind ∧
        (t.nodes first).value = (t.nodes second).value then
        some (.alreadyDefined (t.nodes second).line (t.nodes second).value (t.nodes first).line)
      else none) ++ duplicates rest

/-- `mapping`: duplicate keys first, then the schema's fields. -/
def mapping (node : Node n) (target : Target) : Decode n (Bool × Target) :=
  match duplicates t (stepByTwo node.content) with
  | [] =>
    match target with
    | .schema schema => do
      let schema ← entries floats t unmarshal (pairs node.content) [] schema
      pure (true, .schema schema)
    | _ => do
      typeError node .map target
      pure (false, target)
  | found => do
    .modify fun d => { d with errors := d.errors ++ found }
    pure (false, target)

/-- `unmarshal_value`. -/
def unmarshalValue (index : Fin n) (target : Target) : Decode n (Bool × Target) :=
  match (t.nodes index).kind with
  | .scalar => scalar floats (t.nodes index) target
  | .sequence => sequence floats unmarshal (t.nodes index) target
  | .mapping => mapping floats t unmarshal (t.nodes index) target
  | .alias => pure (false, target)

/-- `alias`. -/
def unmarshalAlias (index : Fin n) (target : Target) : Decode n (Bool × Target) := do
  let d ← Action.get
  if d.activeAliases index then .fail (.containsItself (t.nodes index).value)
  else
    match (t.nodes index).aliased with
    | none => pure (false, target)
    | some aliased => inAlias floats index (unmarshal aliased target)

/-- `prepare`: an optional boolean is allocated unless the node is a null. -/
def prepare (index : Fin n) (target : Target) : Decode n (Bool × Target) :=
  match target with
  | .optionalBool _ =>
    if (t.nodes index).shortTag = some .null then unmarshalValue floats t unmarshal index target
    else do
      let (set, out) ← unmarshalValue floats t unmarshal index (.bool false)
      pure (set, out.allocated)
  | _ => unmarshalValue floats t unmarshal index target

end Recursion

/-- `unmarshal`, after the count: whether the value was set. `fuel` bounds the nesting. -/
def unmarshal (floats : Floats) (t : Tree n) : Nat → Fin n → Target → Decode n (Bool × Target)
  | 0, _, _ => .fail .tooDeep
  | fuel + 1, index, target =>
    if (t.nodes index).kind = .alias then
      unmarshalAlias floats t (unmarshal floats t fuel) index target
    else prepare floats t (unmarshal floats t fuel) index target

end Decoder

namespace Tree

variable {n : Nat}

/-- How deep the decoder nests: the schema, a list in it and a string in the list, each after one
alias. -/
def depth : Nat := 6

/-- `decode`, before the recorded errors are looked at. The document node counts as well. -/
def decodeRoot (floats : Floats) (t : Tree n) (fuel : Nat) : Decode n FileSchema :=
  match t.root with
  | none => pure {}
  | some root => do
    Decoder.count floats
    Decoder.count floats
    let (_, out) ← Decoder.unmarshal floats t fuel root (.schema {})
    match out with
    | .schema schema => pure schema
    | _ => pure {}

/-- `decode`: the strict decode of the document into the schema. -/
def decode (floats : Floats) (t : Tree n) : Except DecodeError FileSchema :=
  match t.decodeRoot floats depth {} with
  | (.ok schema, d) => if d.errors.isEmpty then .ok schema else .error (.unmarshal d.errors)
  | (.error e, _) => .error e

end Tree

/-! ## The nesting is bounded -/

/-- How deep a target nests, from a node that is no alias. -/
def Target.depth : Target → Nat
  | .schema _ => 5
  | .list _ => 3
  | .string _ | .bool _ | .optionalBool _ => 1

theorem FileSchema.depth_field (schema : FileSchema) (key : Key) :
    (schema.field key).depth ≤ 3 := by
  cases key <;> simp [FileSchema.field, Target.depth]

namespace Decoder

variable {n : Nat} {floats : Floats} {t : Tree n} {u u' : Fin n → Target → Decode n (Bool × Target)}

private theorem items_congr (h : ∀ index s, u index (.string s) = u' index (.string s))
    (list : List (Fin n)) (found : List (List Char)) :
    items floats u list found = items floats u' list found := by
  induction list generalizing found with
  | nil => rfl
  | cons item rest ih => simp only [items, h, ih]

theorem entries_congr (h : ∀ index target, target.depth ≤ 3 → u index target = u' index target)
    (list : List (Fin n × Fin n)) (done : List Key) (schema : FileSchema) :
    entries floats t u list done schema = entries floats t u' list done schema := by
  have hentry (key value : Fin n) (name : List Char) (done : List Key) (schema : FileSchema) :
      entry floats t u key value name done schema =
        entry floats t u' key value name done schema := by
    simp only [entry, h _ _ (FileSchema.depth_field schema _)]
  induction list generalizing done schema with
  | nil => rfl
  | cons e rest ih => simp only [entries, h _ (.string []) (by decide), hentry, ih]

/-- A value only asks for targets that nest two less. -/
theorem unmarshalValue_congr {target : Target}
    (h : ∀ index target', target'.depth + 2 ≤ target.depth → u index target' = u' index target')
    (index : Fin n) :
    unmarshalValue floats t u index target = unmarshalValue floats t u' index target := by
  cases target with
  | schema schema =>
    have hentries := @entries_congr n floats t u u' fun index target hless =>
      h index target (Nat.add_le_add_right hless 2)
    simp only [unmarshalValue, sequence, mapping, hentries]
  | list value =>
    have hitems := @items_congr n floats u u' fun index s => h index (.string s) (Nat.le_refl 3)
    simp only [unmarshalValue, sequence, mapping, hitems]
  | _ => simp only [unmarshalValue, sequence, mapping]

theorem prepare_congr {target : Target}
    (h : ∀ index target', target'.depth + 2 ≤ target.depth → u index target' = u' index target')
    (index : Fin n) : prepare floats t u index target = prepare floats t u' index target := by
  cases target with
  | optionalBool value =>
    have hbool := @unmarshalValue_congr n floats t u u' (.bool false) h index
    simp only [prepare, unmarshalValue_congr h, hbool]
  | _ => simp only [prepare, unmarshalValue_congr h]

/-- With enough fuel for a target, more changes nothing. -/
theorem unmarshal_succ (floats : Floats) (t : Tree n) (fuel : Nat) (index : Fin n) (target : Target)
    (hfuel : target.depth ≤ fuel) (hdeep : (t.nodes index).kind = .alias → target.depth < fuel) :
    unmarshal floats t (fuel + 1) index target = unmarshal floats t fuel index target := by
  induction fuel generalizing index target with
  | zero => cases target <;> simp [Target.depth] at hfuel
  | succ fuel ih =>
    rw [unmarshal, unmarshal]
    by_cases hkind : (t.nodes index).kind = .alias
    · obtain ⟨aliased, haliased, hne⟩ := t.anchored index hkind
      have hless := hdeep hkind
      rw [if_pos hkind, if_pos hkind, unmarshalAlias, unmarshalAlias, haliased]
      simp only [ih aliased target (by omega) fun h => absurd h hne]
    · rw [if_neg hkind, if_neg hkind]
      exact prepare_congr (fun index target' hless => ih index target' (by omega) fun _ => by omega)
        index

end Decoder

/-- The bound on the nesting is never reached: with more fuel the decode is the same. -/
theorem Tree.decodeRoot_fuel {n : Nat} (floats : Floats) (t : Tree n) (fuel : Nat)
    (h : Tree.depth ≤ fuel) : t.decodeRoot floats fuel = t.decodeRoot floats Tree.depth := by
  induction h with
  | refl => rfl
  | @step fuel hle ih =>
    have hfuel : (Target.schema {}).depth < fuel := hle
    rw [← ih, decodeRoot, decodeRoot]
    split
    · rfl
    · simp only [Decoder.unmarshal_succ floats t fuel _ (.schema {}) (Nat.le_of_lt hfuel) fun _ =>
        hfuel]

end Config
end Sda
