import Mathlib.Data.Char
import DeviceAccess.Lexpath

/-!
# Device globs (`src/policy/glob.rs`)

A pattern is checked by `translate`, which refuses every spelling that the crate and the 1.x matcher
read differently, and then read by the crate. `parse` and `matchTokens` are the crate's documented
meaning of a pattern, with the options the source gives: no wildcard matches the separator.
-/

namespace Sda
namespace Policy

/-- A pattern, as text. -/
abbrev Pattern := List Char

/-- Why a glob is refused. -/
inductive BadPattern where
  | backslash
  | doubleStar
  | negatedBang
  | negatedCaret
  | missingBracket
  | emptyOrDash
  | classSlash
  | dashOutside
  | rangeSlash
  | malformed
  deriving DecidableEq, Repr

namespace Glob

/-! ## The check -/

/-- `class_body`: copies a class's items up to and including its `]`. The answer is the output and
what follows the class. `items` says whether the class has an item already. -/
def classBody : Nat → List Char → Bool → Pattern → Except BadPattern (Pattern × List Char)
  | 0, _, _, _ => .error .missingBracket
  | _ + 1, [], _, _ => .error .missingBracket
  | fuel + 1, low :: rest, items, out =>
    if low == ']' && items then .ok (out ++ [']'], rest)
    else if low == ']' || low == '-' then .error .emptyOrDash
    else if low == '/' then .error .classSlash
    else
      match rest with
      | '-' :: [] => .error .missingBracket
      | '-' :: high :: rest =>
        if high == ']' || high == '-' then .error .dashOutside
        else if low ≤ '/' && '/' ≤ high then .error .rangeSlash
        else classBody fuel rest true (out ++ [low, '-', high])
      | rest => classBody fuel rest true (out ++ [low])

/-- The loop of `translate` over the characters. -/
def translateFrom : Nat → List Char → Pattern → Except BadPattern Pattern
  | 0, _, out => .ok out
  | _ + 1, [], out => .ok out
  | fuel + 1, c :: rest, out =>
    if c != '[' then translateFrom fuel rest (out ++ [c])
    else
      match rest with
      | '!' :: _ => .error .negatedBang
      | '^' :: _ => .error .negatedCaret
      | rest => do
        let (out, rest) ← classBody (rest.length + 1) rest false (out ++ ['['])
        translateFrom fuel rest out

/-- Two stars in a row. -/
def hasDoubleStar : List Char → Bool
  | '*' :: '*' :: _ => true
  | _ :: rest => hasDoubleStar rest
  | [] => false

/-- `translate`: checks the spellings and returns the pattern for the crate. -/
def translate (pattern : Pattern) : Except BadPattern Pattern :=
  if pattern.contains '\\' then .error .backslash
  else if hasDoubleStar pattern then .error .doubleStar
  else translateFrom pattern.length pattern []

/-! ## The crate -/

/-- An item of a class. -/
inductive Specifier where
  | single (c : Char)
  | range (low high : Char)
  deriving DecidableEq, Repr

/-- A pattern as the crate reads it. The recursive and the negated forms are refused before. -/
inductive Token where
  | char (c : Char)
  | anyChar
  | anySequence
  | anyWithin (items : List Specifier)
  deriving DecidableEq, Repr

/-- The items of a class's text. -/
def specifiers : List Char → List Specifier
  | low :: '-' :: high :: rest => .range low high :: specifiers rest
  | c :: rest => .single c :: specifiers rest
  | [] => []

/-- The tokens of a pattern. A class needs an item and a `]` after it. -/
def parseFrom : Nat → List Char → Option (List Token)
  | 0, _ => some []
  | _ + 1, [] => some []
  | fuel + 1, c :: rest =>
    if c = '?' then (parseFrom fuel rest).map (.anyChar :: ·)
    else if c = '*' then (parseFrom fuel rest).map (.anySequence :: ·)
    else if c = '[' then
      match rest with
      | first :: rest =>
        if ']' ∈ rest then
          (parseFrom fuel ((rest.dropWhile (· != ']')).drop 1)).map
            (.anyWithin (specifiers (first :: rest.takeWhile (· != ']'))) :: ·)
        else none
      | [] => none
    else (parseFrom fuel rest).map (.char c :: ·)

def parse (pattern : Pattern) : Option (List Token) := parseFrom pattern.length pattern

def Specifier.has (c : Char) : Specifier → Bool
  | .single d => c == d
  | .range low high => low ≤ c && c ≤ high

/-- Whether the token takes the one character. No wildcard takes a separator. -/
def Token.takes (c : Char) : Token → Bool
  | .char d => c == d
  | .anyChar | .anySequence => c != '/'
  | .anyWithin items => c != '/' && items.any (·.has c)

/-- A sequence takes characters, none of them a separator, until `rest` matches what is left. -/
def star (rest : List Char → Bool) : List Char → Bool
  | [] => rest []
  | c :: name => rest (c :: name) || (c != '/' && star rest name)

/-- Whether the whole name matches. -/
def matchTokens : List Token → List Char → Bool
  | [], name => name.isEmpty
  | .anySequence :: tokens, name => star (matchTokens tokens) name
  | _ :: _, [] => false
  | token :: tokens, c :: name => token.takes c && matchTokens tokens name

/-- `compile`. -/
def compile (pattern : Pattern) : Except BadPattern (List Token) := do
  let translated ← translate pattern
  match parse translated with
  | some tokens => .ok tokens
  | none => .error .malformed

/-- `matches`: a refused pattern matches nothing. -/
def globMatches (pattern : Pattern) (name : Path) : Bool :=
  match compile pattern with
  | .ok tokens => matchTokens tokens name
  | .error _ => false

end Glob
end Policy
end Sda
