import Wormholes.Core.HandleNFT
import Wormholes.Vm.Memory

/-!
# Vm.Instructions — pushes, pops, memory opcodes and the NFT opcodes

`core/vm/instructions.go`. Each opcode takes the frame whose gas is already paid and gives the frame
after it, with the program counter still at the opcode (or at the last byte of its operand).
The NFT opcodes that write call the functions of `Core.HandleNFT` with the operands they popped.
-/

namespace Wormholes

open Lib Common

namespace StateDB

/-! ## What the opcodes read -/

/-- Nothing writes the balance field of an account's NFTs. -/
def getNFTBalance (_ : StateDB) (_ : Address) : ℕ := 0

variable (s : StateDB) (a : Address)

def getNFTName : GoString :=
  match s.getStateObject a with
  | some o => o.nft.name
  | none => []

def getNFTSymbol : GoString :=
  match s.getStateObject a with
  | some o => o.nft.symbol
  | none => []

def getNFTMetaURL : GoString :=
  match s.getStateObject a with
  | some o => o.nft.metaURL
  | none => []

def getNFTApproveAddress : Address :=
  match s.getStateObject a with
  | some o => o.nft.nftApproveAddressList
  | none => 0

def isExistNFT : Bool :=
  match s.getStateObject a with
  | some o => decide (o.nft.owner ≠ 0)
  | none => false

def isApprovedForAll (ownerAddr addr : Address) : Bool :=
  match s.getStateObject ownerAddr with
  | some o => o.isApproveAddress addr
  | none => false

end StateDB

namespace Vm

/-- The code a frame runs and who called it. -/
structure Contract where
  code : List ℕ
  caller : Address

/-- A running frame: `ScopeContext`, the program counter, the gas left and the state. -/
structure Frame where
  pc : ℕ
  stack : Stack
  memory : Memory
  gas : ℕ
  db : StateDB

/-- The frame `Run` starts with. -/
def Frame.start (gas : ℕ) (db : StateDB) : Frame := ⟨0, [], .newMemory, gas, db⟩

/-- The opcodes that are modelled; `push n` has an operand of `n + 1` bytes. -/
inductive OpCode where
  | stop
  | pop
  | push (n : Fin 32)
  | mload
  | mstore
  | mstore8
  | nBalanceOf
  | nOwnerOf
  | nTransferFrom
  | nApprove
  | nSetApprovalForAll
  | nGetApproved
  | nIsApprovedForAll
  | nTokenURI
  | nMint
  | nName
  | nSymbol
  | nCreator
  | nIsExist
  | nRoyaltyRatio
deriving DecidableEq

variable (K : Crypto)

/-! ## Pushes and pops -/

variable (f : Frame)

def opPop : Except Stop Frame := do
  let (_, st) ← f.stack.pop
  .ok { f with stack := st }

/-- `makePush`, and `opPush1` for one byte: the operand is cut at the end of the code and padded
with zeros. -/
def opPush (c : Contract) (n : ℕ) (f : Frame) : Except Stop Frame :=
  let operand := (c.code.drop (f.pc + 1)).take n
  let integer := Word.ofBytes (operand ++ List.replicate (n - operand.length) 0)
  .ok { f with stack := integer :: f.stack, pc := f.pc + n }

/-! ## Memory -/

def opMload : Except Stop Frame := do
  let (v, st) ← f.stack.pop
  let bs ← f.memory.getPtr (int64 v.uint64) 32
  .ok { f with stack := Word.ofBytes bs :: st }

def opMstore : Except Stop Frame := do
  let (mStart, st) ← f.stack.pop
  let (val, st) ← Stack.pop st
  let m ← f.memory.set32 mStart.uint64 val
  .ok { f with stack := st, memory := m }

def opMstore8 : Except Stop Frame := do
  let (off, st) ← f.stack.pop
  let (val, st) ← Stack.pop st
  if off.uint64 < f.memory.len then
    .ok { f with
      stack := st
      memory := { f.memory with store := f.memory.store.set off.uint64 (val.toNat % 256) } }
  else fault .sliceBounds

/-! ## The NFT opcodes that replace the top of the stack by a word of the state -/

/-- An opcode that overwrites the address on top of the stack with what `read` finds there. -/
def overwriteTop (read : StateDB → Address → Word) (f : Frame) : Except Stop Frame := do
  let (slot, st) ← f.stack.pop
  .ok { f with stack := read f.db slot.bytes20 :: st }

def opNBalanceOf : Frame → Except Stop Frame :=
  overwriteTop fun db a => BitVec.ofNat 256 (db.getNFTBalance a)

def opNOwnerOf : Frame → Except Stop Frame :=
  overwriteTop fun db a => .ofAddress (db.getNFTOwner16 K.toHasher a)

def opNGetApproved : Frame → Except Stop Frame :=
  overwriteTop fun db a => .ofAddress (db.getNFTApproveAddress a)

def opNCreator : Frame → Except Stop Frame :=
  overwriteTop fun db a => .ofAddress (db.getNFTCreator a)

def opNIsExist : Frame → Except Stop Frame :=
  overwriteTop fun db a => if db.isExistNFT a then 1 else 0

def opNRoyaltyRatio : Frame → Except Stop Frame :=
  overwriteTop fun db a => BitVec.ofNat 256 (db.getNFTRoyalty a)

/-- Pops two items. -/
def opNIsApprovedForAll : Except Stop Frame := do
  let (toWord, st) ← f.stack.pop
  let (owner, st) ← Stack.pop st
  .ok { f with stack := (if f.db.isApprovedForAll owner.bytes20 toWord.bytes20 then 1 else 0) :: st }

/-! ## The NFT opcodes that write the state -/

/-- The frame with the state an operation leaves; its error reverts the frame. -/
def Frame.withRes : Res StateDB → Except Stop Frame
  | .ok db => .ok { f with db := db }
  | .err msg => .error (.error (.executionReverted msg))
  | .panic => fault .stateDB

def opNTransferFrom (c : Contract) (f : Frame) : Except Stop Frame := do
  let (id, st) ← f.stack.pop
  let (toWord, st) ← Stack.pop st
  let (sender, st) ← Stack.pop st
  { f with stack := st }.withRes
    (Core.opNTransferFrom K f.db c.caller sender.bytes20 toWord.bytes20 id.bytes20)

def opNApprove (c : Contract) (f : Frame) : Except Stop Frame := do
  let (toWord, st) ← f.stack.pop
  let (id, st) ← Stack.pop st
  { f with stack := st }.withRes (Core.opNApprove K f.db c.caller toWord.bytes20 id.bytes20)

def opNSetApprovalForAll (c : Contract) (f : Frame) : Except Stop Frame := do
  let (approved, st) ← f.stack.pop
  let (toWord, st) ← Stack.pop st
  .ok { f with
    stack := st
    db := Core.opNSetApprovalForAll f.db c.caller toWord.bytes20 (decide (approved ≠ 0)) }

/-- The text in memory whose length word is at `offset`. -/
def readText (m : Memory) (offset : ℤ) : Except Stop (List ℕ) := do
  let length := int64 (Word.ofBytes (← m.getPtr offset 32)).uint64
  m.getCopy (int64 (offset + 32)) length

/-- The text at `uri` is read before the mint. -/
def opNMint (c : Contract) (f : Frame) : Except Stop Frame := do
  let (uri, st) ← f.stack.pop
  let (royalty, st) ← Stack.pop st
  let (toWord, st) ← Stack.pop st
  if f.db.getExchangerFlag c.caller then
    let uriStr ← readText f.memory (int64 uri.uint64)
    let (db, nftAddr) := f.db.createNFTByUser c.caller toWord.bytes20 (royalty.uint64 % 2 ^ 32)
      (uriStr.map Char.ofNat)
    .ok { f with stack := Word.ofAddress nftAddr :: st, db := db }
  else .error (.error (.executionReverted "NFT Mint Failed: caller Not exchanger"))

/-! ## The NFT opcodes that write a text to memory -/

/-- Where a text of `len` bytes written at `offset` ends, with its length word before it. -/
def freeOffset (offset len : ℕ) : ℕ := (offset + (len / 32 + 2) * 32) % 2 ^ 64

/-- Writes the text `data` at the free-memory pointer kept at `0x40`, moves the pointer past it
and gives the memory and the place of the text. -/
def storeText (m : Memory) (data : List ℕ) : Except Stop (Memory × ℕ) := do
  let len := data.length % 2 ^ 64
  let offset := (Word.ofBytes (← m.getPtr 0x40 32)).uint64
  let m ← m.resize (freeOffset offset len)
  let m ← m.set32 offset (BitVec.ofNat 256 len)
  let m ← m.set ((offset + 32) % 2 ^ 64) len data
  let m ← m.set32 0x40 (BitVec.ofNat 256 (freeOffset offset len))
  .ok (m, offset)

/-- An opcode that replaces the address on top of the stack by the place in memory of the text
`read` finds there. -/
def overwriteTopText (read : StateDB → Address → GoString) (f : Frame) : Except Stop Frame := do
  let (v, st) ← f.stack.pop
  let (m, offset) ← storeText f.memory ((read f.db v.bytes20).map Char.toNat)
  .ok { f with stack := BitVec.ofNat 256 offset :: st, memory := m }

def opNTokenURI : Frame → Except Stop Frame := overwriteTopText StateDB.getNFTMetaURL

def opNName : Frame → Except Stop Frame := overwriteTopText StateDB.getNFTName

def opNSymbol : Frame → Except Stop Frame := overwriteTopText StateDB.getNFTSymbol

/-! ## All opcodes -/

/-- The `execute` function of an opcode's table entry. -/
def execute (c : Contract) (op : OpCode) : Frame → Except Stop Frame :=
  match op with
  | .stop => fun _ => .error .halt
  | .pop => opPop
  | .push n => opPush c (n.val + 1)
  | .mload => opMload
  | .mstore => opMstore
  | .mstore8 => opMstore8
  | .nBalanceOf => opNBalanceOf
  | .nOwnerOf => opNOwnerOf K
  | .nTransferFrom => opNTransferFrom K c
  | .nApprove => opNApprove K c
  | .nSetApprovalForAll => opNSetApprovalForAll c
  | .nGetApproved => opNGetApproved
  | .nIsApprovedForAll => opNIsApprovedForAll
  | .nTokenURI => opNTokenURI
  | .nMint => opNMint c
  | .nName => opNName
  | .nSymbol => opNSymbol
  | .nCreator => opNCreator
  | .nIsExist => opNIsExist
  | .nRoyaltyRatio => opNRoyaltyRatio

end Vm

end Wormholes
