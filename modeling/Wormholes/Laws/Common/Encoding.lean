import Wormholes.Common.Encoding

/-!
# Laws.Common.Encoding — every value reads back from its item

One law for each writer and its reader. A nil big integer reads back as zero (`asBig_bigItem`); every
other value reads back as itself.
-/

namespace Wormholes.Common

open Lib Rlp

@[simp] theorem bytesToHash_hashBytes (r : Hash) : bytesToHash (hashBytes r) = r := by
  have hlt : r.toNat < 256 ^ 32 := r.isLt
  rw [bytesToHash, hashBytes, ofDigitsBE_toDigitsBE, Nat.mod_eq_of_lt hlt, BitVec.ofNat_toNat,
    BitVec.setWidth_eq]

@[simp] theorem length_hashBytes (r : Hash) : (hashBytes r).length = 32 := length_toDigitsBE _ _

@[simp] theorem asAddress_addressItem (a : Address) : asAddress (addressItem a) = some a := by
  have hlen : (toDigitsBE 256 20 a.toNat).length = 20 := length_toDigitsBE _ _
  have hlt : a.toNat < 256 ^ 20 := a.isLt
  rw [asAddress, addressItem, asFixed_str hlen, Option.map_some, bytesToAddress,
    ofDigitsBE_toDigitsBE, Nat.mod_eq_of_lt hlt, BitVec.ofNat_toNat, BitVec.setWidth_eq]

@[simp] theorem asHash_hashItem (r : Hash) : asHash (hashItem r) = some r := by
  rw [asHash, hashItem, asFixed_str (length_hashBytes r), Option.map_some, bytesToHash_hashBytes]

@[simp] theorem asString_stringItem (s : GoString) : asString (stringItem s) = some s := by
  simp [asString, stringItem, Function.comp_def]

@[simp] theorem asBytes_bytesItem (bs : Option (List ℕ)) :
    asBytes (bytesItem bs) = some (some (bs.getD [])) := rfl

theorem asBig_bigItem {n : Option ℤ} {x : Item} (h : bigItem n = some x) :
    asBig x = some (some (n.getD 0)) := by
  cases n with
  | none =>
    cases h
    rfl
  | some n =>
    rw [bigItem] at h
    split at h
    next => cases h
    next hn =>
      cases h
      simp [asBig]
      omega

@[simp] theorem asUint8_uint8Item (n : UInt8) : asUint8 (uint8Item n) = some n := by
  rw [asUint8, uint8Item, asUint_nat (UInt8.toNat_lt n), Option.map_some, UInt8.ofNat_toNat]

@[simp] theorem asUint32_uint32Item (n : UInt32) : asUint32 (uint32Item n) = some n := by
  rw [asUint32, uint32Item, asUint_nat (UInt32.toNat_lt n), Option.map_some, UInt32.ofNat_toNat]

@[simp] theorem asUint64_uint64Item (n : UInt64) : asUint64 (uint64Item n) = some n := by
  rw [asUint64, uint64Item, asUint_nat (UInt64.toNat_lt n), Option.map_some, UInt64.ofNat_toNat]

end Wormholes.Common
