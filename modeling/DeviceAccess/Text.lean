import DeviceAccess.Bytes

/-!
# Text of files (`src/text.rs`)

The lines of a file, and the characters of a line. A line that is too long is an error, never a
shortened line. Bytes that are not UTF-8 are read as the replacement character, one for each longest
part that could begin a character, as the standard library does.
-/

namespace Sda
namespace Text

/-! ## Lines -/

/-- The longest line, without its newline, is one byte shorter. -/
def maxLine : Nat := 64 * 1024

/-- A line of `maxLine` bytes or more. -/
structure LineTooLong where
  deriving DecidableEq, Repr

def newline : Byte := 10

/-- The line without one trailing carriage return. -/
def stripReturn (line : Bytes) : Bytes :=
  if line.getLast? = some 13 then line.dropLast else line

/-- What the iterator still yields. Every line takes at least one byte, so `fuel` is the number of
bytes. -/
def linesFrom : Nat → Bytes → List (Except LineTooLong Bytes)
  | 0, _ => []
  | fuel + 1, rest =>
    if rest.isEmpty then []
    else
      match rest.idxOf? newline with
      | some index =>
        if index < maxLine then .ok (stripReturn (rest.take index)) :: linesFrom fuel
          (rest.drop (index + 1))
        else [.error {}]
      | none => if rest.length < maxLine then [.ok (stripReturn rest)] else [.error {}]

/-- `lines`. -/
def lines (data : Bytes) : List (Except LineTooLong Bytes) := linesFrom data.length data

/-! ## Characters -/

/-- The replacement character. -/
def replacement : Char := Char.ofNat 0xfffd

/-- For the first byte of a longer character: its payload, how many bytes follow, and the range of
the next one. -/
def sequenceOf (lead : Nat) : Option (Nat × Nat × Nat × Nat) :=
  if 0xc2 ≤ lead ∧ lead ≤ 0xdf then some (lead - 0xc0, 1, 0x80, 0xbf)
  else if lead = 0xe0 then some (0, 2, 0xa0, 0xbf)
  else if lead = 0xed then some (0xd, 2, 0x80, 0x9f)
  else if 0xe1 ≤ lead ∧ lead ≤ 0xef then some (lead - 0xe0, 2, 0x80, 0xbf)
  else if lead = 0xf0 then some (0, 3, 0x90, 0xbf)
  else if 0xf1 ≤ lead ∧ lead ≤ 0xf3 then some (lead - 0xf0, 3, 0x80, 0xbf)
  else if lead = 0xf4 then some (4, 3, 0x80, 0x8f)
  else none

/-- Reads `count` further bytes of a character, the next one from `low` to `high`. -/
def continuation (code : Nat) : Nat → Nat → Nat → Bytes → Option Nat × Bytes
  | 0, _, _, rest => (some code, rest)
  | _ + 1, _, _, [] => (none, [])
  | count + 1, low, high, byte :: rest =>
    if low ≤ byte.toNat ∧ byte.toNat ≤ high then
      continuation (code * 64 + (byte.toNat - 0x80)) count 0x80 0xbf rest
    else (none, byte :: rest)

/-- The characters of the bytes. Every character takes at least one byte. -/
def charsFrom : Nat → Bytes → List Char
  | 0, _ => []
  | _ + 1, [] => []
  | fuel + 1, byte :: rest =>
    if byte.toNat < 0x80 then Char.ofNat byte.toNat :: charsFrom fuel rest
    else
      match sequenceOf byte.toNat with
      | none => replacement :: charsFrom fuel rest
      | some (code, count, low, high) =>
        let (decoded, rest) := continuation code count low high rest
        (decoded.map Char.ofNat).getD replacement :: charsFrom fuel rest

/-- `String::from_utf8_lossy`. -/
def fromUtf8Lossy (data : Bytes) : List Char := charsFrom data.length data

end Text
end Sda
