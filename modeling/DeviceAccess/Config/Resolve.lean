import Mathlib.Algebra.Group.Int.Defs
import Mathlib.Algebra.GroupWithZero.Nat
import DeviceAccess.Text

/-!
# What a YAML scalar resolves to (`src/config/resolve.rs`)

A plain scalar is a null, a boolean, a number, a timestamp or a string by its spelling, and a scalar
under an explicit tag must be what the tag says. Numbers and timestamps carry no value, since
nothing reads one: only whether a text is one matters. The text of a scalar is its characters; what
the source reads byte by byte is ASCII, and a character outside ASCII ends every one of these
readings.

Whether a decimal float is in range is the standard library's float parser, a field of `Floats`.
-/

namespace Sda
namespace Config

/-- What is asked of floating point: code outside the repository. -/
structure Floats where
  /-- `text.parse::<f64>()` is a number that is not infinite. -/
  isFinite : List Char → Bool
  /-- The ratio of the two counts is above what the second one allows. -/
  exceeds : Nat → Nat → Bool

/-- A short tag. -/
inductive Tag where
  | null | bool | str | int | float | timestamp | seq | map | binary | merge
  /-- A tag that is not of the core schema. -/
  | other (text : List Char)
  deriving DecidableEq, Repr

/-- What a scalar resolved to. -/
inductive Resolved where
  | null
  | bool (flag : Bool)
  /-- The text itself: a string, or a scalar under a tag that is not resolved. -/
  | text (text : List Char)
  /-- An integer that fits 64 bits with a sign. -/
  | int
  /-- An integer that only fits 64 bits without a sign. -/
  | uint
  | float
  | timestamp
  deriving DecidableEq, Repr

/-- An explicit core tag that does not fit the value. -/
structure CannotDecode where
  resolved : Tag
  input : List Char
  tag : Option Tag
  deriving DecidableEq, Repr

/-! ## Spellings -/

def trueSpellings : List (List Char) := ["true", "True", "TRUE"].map String.toList

def falseSpellings : List (List Char) := ["false", "False", "FALSE"].map String.toList

def nullSpellings : List (List Char) := ["", "~", "null", "Null", "NULL"].map String.toList

def floatSpellings : List (List Char) :=
  [".nan", ".NaN", ".NAN", ".inf", ".Inf", ".INF", "+.inf", "+.Inf", "+.INF", "-.inf", "-.Inf",
    "-.INF"].map String.toList

scoped instance decidableSpelling (text : List Char) (spellings : List (List Char)) :
    Decidable (text ∈ spellings) := inferInstance

/-- `resolve_map`: the spellings resolved by lookup. -/
def resolveMap (input : List Char) : Option (Tag × Resolved) :=
  if input ∈ trueSpellings then some (.bool, .bool true)
  else if input ∈ falseSpellings then some (.bool, .bool false)
  else if input ∈ nullSpellings then some (.null, .null)
  else if input ∈ floatSpellings then some (.float, .float)
  else if input = "<<".toList then some (.merge, .text input)
  else none

/-- What the first character says a scalar may be. -/
inductive Hint where
  | empty | sign | digit | lookup | point
  deriving DecidableEq, Repr

def hint : List Char → Option Hint
  | [] => some .empty
  | first :: _ =>
    if first = '+' ∨ first = '-' then some .sign
    else if first.isDigit then some .digit
    else if first ∈ "yYnNtTfFoO~".toList then some .lookup
    else if first = '.' then some .point
    else none

/-! ## Integers -/

/-- The value of the digits in `base`, none for no digits or another character. -/
def digitsIn (base : Nat) (digits : List Char) : Option Nat :=
  if digits.isEmpty then none
  else
    digits.foldlM (fun value digit =>
      let d := digit.toNat - '0'.toNat
      if '0' ≤ digit ∧ digit ≤ '9' ∧ d < base then some (value * base + d) else none) 0

/-- `i64::from_str_radix` succeeds. -/
def fitsSigned (base : Nat) : List Char → Bool
  | '-' :: digits => (digitsIn base digits).any (· ≤ 2 ^ 63)
  | '+' :: digits => (digitsIn base digits).any (· < 2 ^ 63)
  | digits => (digitsIn base digits).any (· < 2 ^ 63)

/-- `u64::from_str_radix` succeeds. -/
def fitsUnsigned (base : Nat) : List Char → Bool
  | '+' :: digits => (digitsIn base digits).any (· < 2 ^ 64)
  | digits => (digitsIn base digits).any (· < 2 ^ 64)

def integer (base : Nat) (digits : List Char) : Option (Tag × Resolved) :=
  if fitsSigned base digits then some (.int, .int)
  else if fitsUnsigned base digits then some (.int, .uint)
  else none

/-- The text after `lead`, when it starts with it. -/
def stripLead (lead : String) (text : List Char) : Option (List Char) :=
  if lead.toList.isPrefixOf text then some (text.drop lead.toList.length) else none

/-- An integer with the sign and the mark of its base in front. -/
def basedInteger (lead negativeLead : String) (base : Nat) (text : List Char) :
    Option (Tag × Resolved) :=
  match stripLead lead text with
  | some digits => integer base digits
  | none =>
    match stripLead negativeLead text with
    | some digits => if fitsSigned base ('-' :: digits) then some (.int, .int) else none
    | none => none

/-! ## Floats -/

/-- What follows the sign. -/
def skipSign : List Char → List Char
  | '+' :: rest => rest
  | '-' :: rest => rest
  | text => text

/-- An exponent, or nothing, to the end. -/
def exponentEnds : List Char → Bool
  | [] => true
  | e :: rest =>
    (e = 'e' || e = 'E') && !(skipSign rest).isEmpty && (skipSign rest).all Char.isDigit

/-- `yaml_style_float`. -/
def yamlStyleFloat (text : List Char) : Bool :=
  match skipSign text with
  | '.' :: rest =>
    !(rest.takeWhile Char.isDigit).isEmpty && exponentEnds (rest.dropWhile Char.isDigit)
  | rest =>
    !(rest.takeWhile Char.isDigit).isEmpty &&
      match rest.dropWhile Char.isDigit with
      | '.' :: fraction => exponentEnds (fraction.dropWhile Char.isDigit)
      | after => exponentEnds after

/-- The digits and the one point at the front: whether there was a digit, and what follows. -/
def skipDecimal (digits seenPoint : Bool) : List Char → Bool × List Char
  | [] => (digits, [])
  | c :: rest =>
    if c.isDigit then skipDecimal true seenPoint rest
    else if c = '.' ∧ seenPoint = false then skipDecimal digits true rest
    else (digits, c :: rest)

/-- `go_float_syntax`. -/
def goFloatSyntax (floats : Floats) (text : List Char) : Bool :=
  let (digits, rest) := skipDecimal false false (skipSign text)
  digits && exponentEnds rest && floats.isFinite text

/-! ## Timestamps -/

/-- The value of ASCII digits. -/
def digitsValue (digits : List Char) : Nat :=
  digits.foldl (fun value digit => value * 10 + (digit.toNat - '0'.toNat)) 0

/-- `get_number`: one or two digits, and what follows. -/
def getNumber (text : List Char) : Option (Nat × List Char) :=
  let digits := (text.take 2).takeWhile Char.isDigit
  if digits.isEmpty then none else some (digitsValue digits, text.drop digits.length)

def daysIn (month year : Nat) : Nat :=
  if month = 2 then
    if year % 4 = 0 ∧ (year % 100 ≠ 0 ∨ year % 400 = 0) then 29 else 28
  else if month = 4 ∨ month = 6 ∨ month = 9 ∨ month = 11 then 30
  else 31

/-- `parse_date`, for a text of four digits and a dash. -/
def parseDate (text : List Char) : Option (Nat × Nat × Nat × List Char) := do
  let year := digitsValue (text.take 4)
  let rest ← stripLead "-" (text.drop 4)
  let (month, rest) ← getNumber rest
  if 1 ≤ month ∧ month ≤ 12 then
    let rest ← stripLead "-" rest
    let (day, rest) ← getNumber rest
    some (year, month, day, rest)
  else none

/-- `parse_time`: what follows it. -/
def parseTime (text : List Char) : Option (List Char) := do
  let (hour, rest) ← getNumber text
  let rest ← stripLead ":" rest
  let (minute, rest) ← getNumber rest
  let rest ← stripLead ":" rest
  let (second, rest) ← getNumber rest
  if 24 ≤ hour ∨ 60 ≤ minute ∨ 60 ≤ second then none
  else
    match rest with
    | point :: digit :: fraction =>
      if (point = '.' ∨ point = ',') ∧ digit.isDigit then some (fraction.dropWhile Char.isDigit)
      else some rest
    | _ => some rest

/-- `parse_zone`. -/
def parseZone : List Char → Bool
  | ['Z'] => true
  | [sign, h₁, h₂, ':', m₁, m₂] =>
    (sign = '+' || sign = '-') && [h₁, h₂, m₁, m₂].all Char.isDigit && digitsValue [h₁, h₂] ≤ 24 &&
      digitsValue [m₁, m₂] ≤ 60
  | _ => false

/-- `is_timestamp`. -/
def isTimestamp (text : List Char) : Bool :=
  (text.takeWhile Char.isDigit).length = 4 && (text.drop 4).head? = some '-' &&
    match parseDate text with
    | none => false
    | some (year, month, day, rest) =>
      1 ≤ day && day ≤ daysIn month year &&
        match rest with
        | [] => true
        | mark :: time =>
          if mark = 'T' ∨ mark = 't' then (parseTime time).any parseZone
          else if mark = ' ' then (parseTime time).any List.isEmpty
          else false

/-! ## Resolution -/

/-- `resolve_number`. -/
def resolveNumber (floats : Floats) (tag : Option Tag) (input : List Char) :
    Option (Tag × Resolved) :=
  if (tag = none ∨ tag = some .timestamp) ∧ isTimestamp input then some (.timestamp, .timestamp)
  else
    (integer 10 input).or <|
    (if yamlStyleFloat input ∧ floats.isFinite input then some (.float, .float) else none).or <|
    (basedInteger "0b" "-0b" 2 input).or <|
    basedInteger "0o" "-0o" 8 input

/-- `resolve_resolvable`. -/
def resolveResolvable (floats : Floats) (tag : Option Tag) (input : List Char) : Tag × Resolved :=
  match hint input with
  | none => (.str, .text input)
  | some found =>
    if tag = some .str then (.str, .text input)
    else
      match resolveMap input with
      | some known => known
      | none =>
        match found with
        | .point => if goFloatSyntax floats input then (.float, .float) else (.str, .text input)
        | .digit | .sign => (resolveNumber floats tag input).getD (.str, .text input)
        -- The spellings of the others were looked up.
        | .lookup | .empty => (.str, .text input)

/-- `resolvable_tag`. -/
def Tag.resolvable : Tag → Bool
  | .str | .bool | .int | .float | .null | .timestamp => true
  | .seq | .map | .binary | .merge | .other _ => false

/-- The check at the end of `resolve`: an explicit tag is the one the value resolves to, where an
integer reads as a float. -/
def checkTag (tag : Option Tag) (input : List Char) (resolvedTag : Tag) (resolved : Resolved) :
    Except CannotDecode (Tag × Resolved) :=
  if tag = none ∨ tag = some resolvedTag ∨ tag = some .str then .ok (resolvedTag, resolved)
  else if tag = some .float ∧ resolved = .int then .ok (.float, .float)
  else .error ⟨resolvedTag, input, tag⟩

/-- `resolve`. -/
def resolve (floats : Floats) (tag : Option Tag) (input : List Char) :
    Except CannotDecode (Tag × Resolved) :=
  match tag with
  | some explicit =>
    if explicit.resolvable then
      let (resolvedTag, resolved) := resolveResolvable floats tag input
      checkTag tag input resolvedTag resolved
    else .ok (explicit, .text input)
  | none =>
    let (resolvedTag, resolved) := resolveResolvable floats none input
    checkTag none input resolvedTag resolved

/-! ## Base64 -/

/-- `base64_value`. -/
def base64Value (c : Char) : Option Nat :=
  if 'A' ≤ c ∧ c ≤ 'Z' then some (c.toNat - 'A'.toNat)
  else if 'a' ≤ c ∧ c ≤ 'z' then some (c.toNat - 'a'.toNat + 26)
  else if '0' ≤ c ∧ c ≤ '9' then some (c.toNat - '0'.toNat + 52)
  else if c = '+' then some 62
  else if c = '/' then some 63
  else none

/-- The bytes of one group of four symbols, the last one with its padding. -/
def decodeQuad (quad : List Char) (last : Bool) : Option Bytes := do
  let padding := (quad.reverse.takeWhile (· = '=')).length
  if padding > 2 ∨ (padding > 0 ∧ !last) then none
  else
    let values ← (quad.take (4 - padding)).mapM base64Value
    let bits := values.foldl (fun bits value => bits * 64 + value) 0 * 64 ^ padding
    some ([BitVec.ofNat 8 (bits / 65536), BitVec.ofNat 8 (bits / 256), BitVec.ofNat 8 bits].take
      (3 - padding))

/-- The groups of four symbols, one after the other. -/
def decodeQuads : List Char → Option Bytes
  | a :: b :: c :: d :: rest => do
    let bytes ← decodeQuad [a, b, c, d] rest.isEmpty
    let more ← decodeQuads rest
    some (bytes ++ more)
  | [] => some []
  | _ => none

/-- `decode_base64`: line breaks are skipped. -/
def decodeBase64 (text : List Char) : Option Bytes :=
  decodeQuads (text.filter fun c => !(c = '\r' || c = '\n'))

/-! ## What a resolution can be -/

private theorem resolveMap_nullSpellings {input : List Char} (h : input ∈ nullSpellings) :
    (hint input).isSome ∧ resolveMap input = some (.null, .null) := by
  have key : ∀ input ∈ nullSpellings,
      (hint input).isSome ∧ resolveMap input = some (.null, .null) := by decide +kernel
  exact key input h

/-- What a text can resolve to under a tag, with the spellings that the lookup knows. -/
inductive Spells (tag : Option Tag) (input : List Char) : Tag × Resolved → Prop where
  | isTrue (h : input ∈ trueSpellings) : Spells tag input (.bool, .bool true)
  | isFalse (h : input ∈ falseSpellings) : Spells tag input (.bool, .bool false)
  | isNull (h : input ∈ nullSpellings) (htag : tag ≠ some .str) : Spells tag input (.null, .null)
  | isMerge : Spells tag input (.merge, .text input)
  | isText : Spells tag input (.str, .text input)
  | isFloat : Spells tag input (.float, .float)
  | isTimestamp : Spells tag input (.timestamp, .timestamp)
  | isInt : Spells tag input (.int, .int)
  | isUint : Spells tag input (.int, .uint)

theorem resolveMap_spells {tag : Option Tag} {input : List Char} {found : Tag × Resolved}
    (h : resolveMap input = some found) (htag : tag ≠ some .str) : Spells tag input found := by
  unfold resolveMap at h
  split at h
  · case isTrue ht => cases h; exact .isTrue ht
  split at h
  · case isTrue hf => cases h; exact .isFalse hf
  split at h
  · case isTrue hn => cases h; exact .isNull hn htag
  split at h
  · cases h; exact .isFloat
  split at h
  · cases h; exact .isMerge
  · cases h

theorem integer_spells {tag : Option Tag} {base : Nat} {digits input : List Char}
    {found : Tag × Resolved} (h : integer base digits = some found) : Spells tag input found := by
  unfold integer at h
  split at h
  · cases h; exact .isInt
  split at h
  · cases h; exact .isUint
  · cases h

theorem basedInteger_spells {tag : Option Tag} {lead negativeLead : String} {base : Nat}
    {text input : List Char} {found : Tag × Resolved}
    (h : basedInteger lead negativeLead base text = some found) : Spells tag input found := by
  unfold basedInteger at h
  split at h
  · exact integer_spells h
  split at h
  · split at h
    · cases h; exact .isInt
    · cases h
  · cases h

theorem resolveNumber_spells {floats : Floats} {tag : Option Tag} {input : List Char}
    {found : Tag × Resolved} (h : resolveNumber floats tag input = some found) :
    Spells tag input found := by
  unfold resolveNumber at h
  split at h
  · cases h; exact .isTimestamp
  simp only [Option.or_eq_some_iff] at h
  rcases h with h | ⟨-, h | ⟨-, h | ⟨-, h⟩⟩⟩
  · exact integer_spells h
  · split at h
    · cases h; exact .isFloat
    · cases h
  · exact basedInteger_spells h
  · exact basedInteger_spells h

theorem resolveResolvable_spells (floats : Floats) (tag : Option Tag) (input : List Char) :
    Spells tag input (resolveResolvable floats tag input) := by
  have hnumber : Spells tag input ((resolveNumber floats tag input).getD (.str, .text input)) := by
    cases hn : resolveNumber floats tag input with
    | none => exact .isText
    | some found => exact resolveNumber_spells hn
  unfold resolveResolvable
  split
  · exact .isText
  split
  · exact .isText
  · case isFalse htag =>
    split
    · case h_1 known hknown => exact resolveMap_spells hknown htag
    split
    · split
      · exact .isFloat
      · exact .isText
    · exact hnumber
    · exact hnumber
    · exact .isText
    · exact .isText

private theorem resolveResolvable_null {floats : Floats} {tag : Option Tag} {input : List Char}
    (h : input ∈ nullSpellings) (htag : tag ≠ some .str) :
    resolveResolvable floats tag input = (.null, .null) := by
  obtain ⟨hhint, hmap⟩ := resolveMap_nullSpellings h
  obtain ⟨found, hfound⟩ := Option.isSome_iff_exists.mp hhint
  simp only [resolveResolvable, hfound, hmap, if_neg htag]

theorem checkTag_ok {tag : Option Tag} {input : List Char} {resolvedTag : Tag} {resolved : Resolved}
    {found : Tag × Resolved} (h : checkTag tag input resolvedTag resolved = .ok found) :
    (found = (resolvedTag, resolved) ∧ (tag = none ∨ tag = some resolvedTag ∨ tag = some .str)) ∨
      (found = (.float, .float) ∧ tag = some .float ∧ resolved = .int) := by
  unfold checkTag at h
  split at h
  · case isTrue htag => cases h; exact .inl ⟨rfl, htag⟩
  split at h
  · case isTrue hfloat => cases h; exact .inr ⟨rfl, hfloat⟩
  · cases h

/-- A resolution is the text under a tag that is not resolved, a spelling that agrees with the tag,
or an integer under the tag of the floats. -/
theorem resolve_ok {floats : Floats} {tag : Option Tag} {input : List Char} {found : Tag × Resolved}
    (h : resolve floats tag input = .ok found) :
    (∃ explicit, tag = some explicit ∧ explicit.resolvable = false ∧
      found = (explicit, .text input)) ∨
      (Spells tag input found ∧ found = resolveResolvable floats tag input ∧
        (tag = none ∨ tag = some found.1 ∨ tag = some .str)) ∨
      (found = (.float, .float) ∧ tag = some .float) := by
  have hchecked (hc : checkTag tag input (resolveResolvable floats tag input).1
      (resolveResolvable floats tag input).2 = .ok found) :
      (Spells tag input found ∧ found = resolveResolvable floats tag input ∧
        (tag = none ∨ tag = some found.1 ∨ tag = some .str)) ∨
      (found = (.float, .float) ∧ tag = some .float) := by
    rcases checkTag_ok hc with ⟨rfl, htag⟩ | ⟨rfl, htag, -⟩
    · exact .inl ⟨resolveResolvable_spells floats tag input, rfl, htag⟩
    · exact .inr ⟨rfl, htag⟩
  cases tag with
  | none => exact .inr (hchecked h)
  | some explicit =>
    rw [resolve] at h
    split at h
    · exact .inr (hchecked h)
    · case isFalse hr =>
      cases h
      exact .inl ⟨explicit, rfl, by simpa using hr, rfl⟩

/-- A scalar resolves to a null when its tag says so, or when it has none and is spelled as one. -/
theorem resolve_null_iff {floats : Floats} {tag : Option Tag} {input : List Char}
    {found : Tag × Resolved} (h : resolve floats tag input = .ok found) :
    found.2 = .null ↔ tag = some .null ∨ (tag = none ∧ input ∈ nullSpellings) := by
  rcases resolve_ok h with ⟨explicit, rfl, hr, rfl⟩ | ⟨hs, hfound, htag⟩ | ⟨rfl, rfl⟩
  · cases explicit <;> simp_all [Tag.resolvable]
  · constructor
    · intro hnull
      cases hs with
      | isNull hmem hstr =>
        rcases htag with hnone | hsame | hstr'
        · exact .inr ⟨hnone, hmem⟩
        · exact .inl hsame
        · exact absurd hstr' hstr
      | _ => cases hnull
    · rintro (rfl | ⟨rfl, hmem⟩)
      · cases hs with
        | isNull => rfl
        | _ => simp at htag
      · rw [hfound, resolveResolvable_null hmem (show none ≠ some Tag.str from nofun)]
  · simp

/-- A scalar under the tag of the booleans is spelled `true` or `false`. -/
theorem resolve_bool {floats : Floats} {input : List Char} {found : Tag × Resolved}
    (h : resolve floats (some .bool) input = .ok found) :
    (found = (.bool, .bool true) ∧ input ∈ trueSpellings) ∨
      (found = (.bool, .bool false) ∧ input ∈ falseSpellings) := by
  rcases resolve_ok h with ⟨explicit, he, hr, -⟩ | ⟨hs, -, htag⟩ | ⟨-, hfloat⟩
  · cases he
    cases hr
  · cases hs with
    | isTrue ht => exact .inl ⟨rfl, ht⟩
    | isFalse hf => exact .inr ⟨rfl, hf⟩
    | _ => simp at htag
  · cases hfloat

theorem resolve_binary (floats : Floats) (input : List Char) :
    resolve floats (some .binary) input = .ok (.binary, .text input) := rfl

/-- No spelling resolves to binary data. -/
theorem tag_of_resolve_binary {floats : Floats} {tag : Option Tag} {input : List Char}
    {found : Tag × Resolved} (h : resolve floats tag input = .ok found)
    (hbinary : found.1 = .binary) :
    tag = some .binary := by
  rcases resolve_ok h with ⟨explicit, rfl, -, rfl⟩ | ⟨hs, -, -⟩ | ⟨rfl, -⟩
  · exact congrArg some hbinary
  · cases hs <;> cases hbinary
  · cases hbinary

end Config
end Sda
