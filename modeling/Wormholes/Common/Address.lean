import Wormholes.Lib.Blocks
import Wormholes.Lib.Digits

/-!
# Common.Address — account addresses, their hexadecimal text and the reader of that text

`common/types.go` and `common/bytes.go`. An address is twenty bytes, here the number they spell
most significant byte first. Its text is `0x` and forty hexadecimal digits whose letters carry
the EIP-55 case checksum. The reader `hexToAddress` never fails: it drops an optional prefix,
pads an odd text with a zero, decodes byte pairs up to the first character that is no digit, and
keeps the last twenty bytes.

Keccak-256 is outside the repository, so the checksum's hash is a parameter. Nothing below
depends on which hash it is except the letter case of an address' text.
-/

namespace Wormholes

open Lib

/-- A Go string: its bytes, one character for each. -/
abbrev GoString := List Char

/-- Twenty bytes, as the number they spell. -/
abbrev Address := BitVec 160

/-- The hash function the checksum, the order messages and the headers use. -/
structure Hasher where
  /-- Keccak-256: the bytes of the digest. -/
  keccak256 : GoString → List ℕ

namespace Common

/-! ## Reading hexadecimal text -/

/-- The value of one hexadecimal digit, of either case. -/
def fromHexChar (c : Char) : Option ℕ :=
  if '0' ≤ c ∧ c ≤ '9' then some (c.toNat - 48)
  else if 'a' ≤ c ∧ c ≤ 'f' then some (c.toNat - 87)
  else if 'A' ≤ c ∧ c ≤ 'F' then some (c.toNat - 55)
  else none

/-- `hex.DecodeString` with its error dropped: the bytes read before the first bad pair. -/
def hex2Bytes : GoString → List ℕ
  | hi :: lo :: rest =>
    match fromHexChar hi, fromHexChar lo with
    | some x, some y => (x * 16 + y) :: hex2Bytes rest
    | _, _ => []
  | _ => []

/-- Whether a text starts with `0x` or `0X`. -/
def has0xPrefix : GoString → Bool
  | '0' :: 'x' :: _ => true
  | '0' :: 'X' :: _ => true
  | _ => false

def fromHex (s : GoString) : List ℕ :=
  let s := if has0xPrefix s then s.drop 2 else s
  let s := if s.length % 2 = 1 then '0' :: s else s
  hex2Bytes s

/-- The last twenty bytes of a byte string. -/
def bytesToAddress (bs : List ℕ) : Address := BitVec.ofNat 160 (ofDigitsBE 256 bs)

/-- The last twenty bytes of a number. -/
def bigToAddress (n : ℕ) : Address := BitVec.ofNat 160 n

def hexToAddress (s : GoString) : Address := bytesToAddress (fromHex s)

/-! ## Writing hexadecimal text -/

/-- One lower-case hexadecimal digit. -/
def hexDigit (d : ℕ) : Char := if d < 10 then Char.ofNat (48 + d) else Char.ofNat (87 + d)

/-- `hex.EncodeToString`. -/
def hexEncode (bs : List ℕ) : GoString := bs.flatMap fun x => [hexDigit (x / 16), hexDigit (x % 16)]

/-- `(*big.Int).Bytes`: the number's bytes without leading zeros. -/
def bigBytes (n : ℕ) : List ℕ := toDigitsBE 256 (if n = 0 then 0 else Nat.log2 n / 8 + 1) n

/-- `(*big.Int).SetString` in base sixteen on a text of digits. -/
def bigSetString16 (s : GoString) : ℕ := ofDigitsBE 16 (s.map fun c => (fromHexChar c).getD 0)

end Common

namespace Address

open Common

/-- The forty hexadecimal digits of an address. -/
def digits (a : Address) : List ℕ := toDigitsBE 16 40 a.toNat

/-- `Address.hex` without its `0x`. -/
def hex (a : Address) : GoString := a.digits.map hexDigit

/-- Whether the EIP-55 checksum writes the digit at position `i` in upper case. -/
def checksumUpper (H : Hasher) (a : Address) (i : ℕ) : Bool :=
  let hashByte := (H.keccak256 a.hex).getD (i / 2) 0
  let nibble := if i % 2 = 0 then hashByte / 16 else hashByte % 16
  decide (nibble > 7)

/-- The digits of an address' text, letters in the checksum's case. -/
def checksumDigits (H : Hasher) (a : Address) : GoString :=
  a.hex.mapIdx fun i c =>
    if c > '9' ∧ checksumUpper H a i = true then Char.ofNat (c.toNat - 32) else c

/-- `Address.String`. -/
def string (H : Hasher) (a : Address) : GoString := '0' :: 'x' :: checksumDigits H a

end Address

end Wormholes
