import Wormholes.Common.Address
import Wormholes.Lib.Rlp

/-!
# Common.Encoding — how the values of the program are written as RLP items

The writers and decoders that `rlp/encode.go` and `rlp/decode.go` choose by type: fixed byte arrays
for addresses and hashes, byte strings for Go strings and slices, big-endian integers without leading
zeros for machine words and big integers. A nil big integer is written as zero and a negative one is
refused; what is read back is never nil.
-/

namespace Wormholes.Common

open Lib Rlp

/-- A 32-byte hash, as the number its bytes spell. -/
abbrev Hash := BitVec 256

/-- `common.Hash{}`. -/
def zeroHash : Hash := 0

def hashBytes (r : Hash) : List ℕ := toDigitsBE 256 32 r.toNat

/-- The last 32 bytes of a byte string, padded on the left. -/
def bytesToHash (bs : List ℕ) : Hash := BitVec.ofNat 256 (ofDigitsBE 256 bs)

def addressItem (a : Address) : Item := .str (toDigitsBE 256 20 a.toNat)

def asAddress (x : Item) : Option Address := (asFixed 20 x).map bytesToAddress

def hashItem (r : Hash) : Item := .str (hashBytes r)

def asHash (x : Item) : Option Hash := (asFixed 32 x).map bytesToHash

def stringItem (s : GoString) : Item := .str (s.map Char.toNat)

def asString (x : Item) : Option GoString := (asStr x).map fun bs => bs.map Char.ofNat

/-- A byte slice; nil is written as the empty one. -/
def bytesItem (bs : Option (List ℕ)) : Item := .str (bs.getD [])

/-- A slice that was read is not nil, also when it is empty. -/
def asBytes (x : Item) : Option (Option (List ℕ)) := (asStr x).map some

/-- A big integer; a negative one is an encoding error. -/
def bigItem : Option ℤ → Option Item
  | none => some (nat 0)
  | some n => if n < 0 then none else some (nat n.toNat)

def asBig (x : Item) : Option (Option ℤ) := (asNat x).map fun n => some (n : ℤ)

def uint8Item (n : UInt8) : Item := nat n.toNat

def asUint8 (x : Item) : Option UInt8 := (asUint 8 x).map UInt8.ofNat

def uint32Item (n : UInt32) : Item := nat n.toNat

def asUint32 (x : Item) : Option UInt32 := (asUint 32 x).map UInt32.ofNat

def uint64Item (n : UInt64) : Item := nat n.toNat

def asUint64 (x : Item) : Option UInt64 := (asUint 64 x).map UInt64.ofNat

end Wormholes.Common
