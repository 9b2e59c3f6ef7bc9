import Wormholes.Common.Address

/-!
# Vm.Memory — words, the operand stack and the byte memory

`core/vm/stack.go`, `core/vm/memory.go` and the memory part of `core/vm/gas_table.go`. The stack is
a list with its top first. A peeked slot that an opcode overwrites is a pop followed by a push here.

Go checks a slice expression against the capacity of the store, not its length, and what lies
between the two depends on the allocator. Here an access past the length is always a panic.
-/

namespace Wormholes.Vm

open Lib Common

/-- A `uint256.Int`. -/
abbrev Word := BitVec 256

namespace Word

/-- `SetBytes`: the last thirty-two bytes, read as a number. -/
def ofBytes (bs : List ℕ) : Word := BitVec.ofNat 256 (ofDigitsBE 256 bs)

def bytes32 (w : Word) : List ℕ := toDigitsBE 256 32 w.toNat

/-- The address in the low twenty bytes. -/
def bytes20 (w : Word) : Address := bigToAddress w.toNat

def ofAddress (a : Address) : Word := BitVec.ofNat 256 a.toNat

/-- The low sixty-four bits. -/
def uint64 (w : Word) : ℕ := w.toNat % 2 ^ 64

end Word

/-- The bits of a `uint64` read as an `int64`. -/
@[irreducible] def int64 (x : ℤ) : ℤ := Int.bmod x (2 ^ 64)

/-- A Go runtime panic. -/
inductive Fault where
  | stackUnderflow
  | sliceBounds
  | storeEmpty
  | makeSlice
  | stateDB
deriving DecidableEq

/-- An error of the interpreter. -/
inductive VmError where
  | stackUnderflow
  | stackOverflow
  | writeProtection
  | gasUintOverflow
  | outOfGas
  | executionReverted (reason : String)
deriving DecidableEq

/-- Why a frame takes no further step. `outside` is an opcode that is not modelled. -/
inductive Stop where
  | halt
  | error (e : VmError)
  | panic (p : Fault)
  | outside
deriving DecidableEq

/-- The fault a Go panic raises. -/
def fault {α : Type} (p : Fault) : Except Stop α := .error (.panic p)

/-! ## The stack -/

abbrev Stack := List Word

namespace Stack

/-- The index `len - 1` is out of range on an empty stack. -/
def pop : Stack → Except Stop (Word × Stack)
  | [] => fault .stackUnderflow
  | w :: st => .ok (w, st)

/-- The `n`th item from the top. -/
def back (st : Stack) (n : ℕ) : Word := st.getD n 0

end Stack

/-! ## The memory -/

structure Memory where
  store : List ℕ
  lastGasCost : ℕ

namespace Memory

variable (m : Memory)

def newMemory : Memory := ⟨[], 0⟩

def len : ℕ := m.store.length

/-- The bytes from `off` on replaced by `value`. -/
def blit (store : List ℕ) (off : ℕ) (value : List ℕ) : List ℕ :=
  store.take off ++ value ++ store.drop (off + value.length)

/-- Writes `value` over the bytes `[offset, offset + size)` of the store; the end of the range is
a `uint64` and wraps. -/
def write (offset size : ℕ) (value : List ℕ) : Except Stop Memory :=
  if (offset + size) % 2 ^ 64 > m.len then fault .storeEmpty
  else if offset > (offset + size) % 2 ^ 64 then fault .sliceBounds
  else .ok { m with store := blit m.store offset (value.take size) }

def set (offset size : ℕ) (value : List ℕ) : Except Stop Memory :=
  if size = 0 then .ok m else m.write offset size value

def set32 (offset : ℕ) (val : Word) : Except Stop Memory :=
  m.write offset 32 val.bytes32

/-- The largest slice the Go runtime allocates on a 64-bit machine. -/
def maxAlloc : ℕ := 2 ^ 48

def resize (size : ℕ) : Except Stop Memory :=
  if m.len < size then
    if size - m.len > maxAlloc then fault .makeSlice
    else .ok { m with store := m.store ++ List.replicate (size - m.len) 0 }
  else .ok m

/-- The slice `[offset : offset + size]` of the store. -/
def slice (offset size : ℤ) : Except Stop (List ℕ) :=
  if 0 ≤ offset ∧ 0 ≤ size ∧ offset + size ≤ m.len then
    .ok ((m.store.drop offset.toNat).take size.toNat)
  else fault .sliceBounds

/-- Reads nothing where the memory ends at or before `offset`. -/
def getPtr (offset size : ℤ) : Except Stop (List ℕ) :=
  if size = 0 then .ok []
  else if (m.len : ℤ) > offset then m.slice offset size
  else .ok []

def getCopy (offset size : ℤ) : Except Stop (List ℕ) :=
  if size = 0 then .ok []
  else if (m.len : ℤ) > offset then
    if size < 0 ∨ size > maxAlloc then fault .makeSlice else m.slice offset size
  else .ok []

end Memory

/-! ## The price of memory -/

def toWordSize (size : ℕ) : ℕ :=
  if size > 2 ^ 64 - 1 - 31 then (2 ^ 64 - 1) / 32 + 1 else (size + 31) / 32

/-- The total price of a memory of so many words: `MemoryGas` is 3 and `QuadCoeffDiv` is 512. -/
def totalFee (words : ℕ) : ℕ := words * 3 + words * words / 512

/-- What growing the memory to `newMemSize` bytes costs, and the memory with its new total noted. -/
def memoryGasCost (m : Memory) (newMemSize : ℕ) : Except VmError (ℕ × Memory) :=
  if newMemSize = 0 then .ok (0, m)
  else if newMemSize > 0x1FFFFFFFE0 then .error .gasUintOverflow
  else
    let words := toWordSize newMemSize
    if words * 32 > m.len then
      .ok ((totalFee words + 2 ^ 64 - m.lastGasCost) % 2 ^ 64, { m with lastGasCost := totalFee words })
    else .ok (0, m)

/-- The size a memory access of `length64` bytes at `off` needs, and whether it overflows. -/
def calcMemSize64WithUint (off : Word) (length64 : ℕ) : Option ℕ :=
  if length64 = 0 then some 0
  else if off.toNat ≥ 2 ^ 64 then none
  else
    let val := (off.toNat + length64) % 2 ^ 64
    if val < off.toNat then none else some val

end Wormholes.Vm
