import Wormholes.Vm.Instructions

/-!
# Vm.Interpreter — the jump table and one turn of the interpreter's loop

`core/vm/jump_table.go` and `EVMInterpreter.Run`. A turn fetches the opcode, checks the declared
stack bounds and the write protection, charges gas, grows the memory and executes. `prepare` is
all of that before the execution, `step` the whole turn.
-/

namespace Wormholes.Vm

/-- The opcode a byte stands for. -/
def OpCode.ofByte (b : ℕ) : Option OpCode :=
  match b with
  | 0x00 => some .stop
  | 0x50 => some .pop
  | 0x51 => some .mload
  | 0x52 => some .mstore
  | 0x53 => some .mstore8
  | 0xb6 => some .nBalanceOf
  | 0xb7 => some .nOwnerOf
  | 0xb8 => some .nTransferFrom
  | 0xb9 => some .nApprove
  | 0xba => some .nSetApprovalForAll
  | 0xbb => some .nGetApproved
  | 0xbc => some .nIsApprovedForAll
  | 0xbd => some .nTokenURI
  | 0xbe => some .nMint
  | 0xbf => some .nName
  | 0xc0 => some .nSymbol
  | 0xc1 => some .nCreator
  | 0xc2 => some .nIsExist
  | 0xc3 => some .nRoyaltyRatio
  | b => if h : 0x60 ≤ b ∧ b < 0x80 then some (.push ⟨b - 0x60, by omega⟩) else none

/-! ## The jump table -/

/-- An entry of the jump table. The memory size is that of the access whose offset is on top of
the stack; entries that have one charge for it with `memoryGasCost`. -/
structure Operation where
  constantGas : ℕ
  minStack : ℕ
  maxStack : ℕ
  memorySize : Option ℕ
  writes : Bool

def stackLimit : ℕ := 1024

def minStack (pops _push : ℕ) : ℕ := pops

def maxStack (pop push : ℕ) : ℕ := stackLimit + pop - push

/-- An entry without memory and write flag. -/
def Operation.entry (constantGas pop push : ℕ) : Operation where
  constantGas := constantGas
  minStack := Vm.minStack pop push
  maxStack := Vm.maxStack pop push
  memorySize := none
  writes := false

/-- `GasExtStep`, the price of every NFT opcode. -/
def gasExtStep : ℕ := 20

/-- `newFrontierInstructionSet`. -/
def jumpTable (op : OpCode) : Operation :=
  match op with
  | .stop => .entry 0 0 0
  | .pop => .entry 2 1 0
  | .push _ => .entry 3 0 1
  | .mload => { Operation.entry 3 1 1 with memorySize := some 32 }
  | .mstore => { Operation.entry 3 2 0 with memorySize := some 32 }
  | .mstore8 => { Operation.entry 3 2 0 with memorySize := some 1 }
  | .nBalanceOf => .entry gasExtStep 1 1
  | .nOwnerOf => .entry gasExtStep 1 1
  | .nTransferFrom => .entry gasExtStep 3 0
  | .nApprove => .entry gasExtStep 2 0
  | .nSetApprovalForAll => .entry gasExtStep 2 1
  | .nGetApproved => .entry gasExtStep 1 1
  | .nIsApprovedForAll => .entry gasExtStep 1 1
  | .nTokenURI => .entry gasExtStep 1 1
  | .nMint => .entry gasExtStep 3 0
  | .nName => .entry gasExtStep 1 1
  | .nSymbol => .entry gasExtStep 1 1
  | .nCreator => .entry gasExtStep 1 1
  | .nIsExist => .entry gasExtStep 1 1
  | .nRoyaltyRatio => .entry gasExtStep 1 1

/-! ## The loop -/

variable (K : Crypto)

/-- `GetOp`: past the end of the code stands a `STOP`. -/
def getOp (c : Contract) (pc : ℕ) : Option OpCode := OpCode.ofByte (c.code.getD pc 0)

/-- The frame with `amount` gas less. -/
def useGas (f : Frame) (amount : ℕ) : Except Stop Frame :=
  if f.gas < amount then .error (.error .outOfGas) else .ok { f with gas := f.gas - amount }

/-- Charges for a memory of `memSize` bytes and grows the memory to whole words. The loop skips
the growth to size zero, which does nothing. -/
def expand (f : Frame) (memSize : ℕ) : Except Stop Frame :=
  let memorySize := toWordSize memSize * 32
  if memorySize ≥ 2 ^ 64 then .error (.error .gasUintOverflow)
  else
    match memoryGasCost f.memory memorySize with
    | .error _ => .error (.error .outOfGas)
    | .ok (fee, m) => do
      let f ← useGas { f with memory := m } fee
      let m ← f.memory.resize memorySize
      .ok { f with memory := m }

/-- The part of a turn before `execute`: the opcode, and the frame with its gas paid and its
memory grown. -/
def prepare (readOnly : Bool) (c : Contract) (f : Frame) : Except Stop (OpCode × Frame) :=
  match getOp c f.pc with
  | none => .error .outside
  | some op =>
    let operation := jumpTable op
    if f.stack.length < operation.minStack then .error (.error .stackUnderflow)
    else if f.stack.length > operation.maxStack then .error (.error .stackOverflow)
    else if readOnly && operation.writes then .error (.error .writeProtection)
    else do
      let f ← useGas f operation.constantGas
      match operation.memorySize with
      | none => .ok (op, f)
      | some length =>
        match calcMemSize64WithUint (f.stack.back 0) length with
        | none => .error (.error .gasUintOverflow)
        | some memSize => do
          let f ← expand f memSize
          .ok (op, f)

/-- One turn of the loop. -/
def step (readOnly : Bool) (c : Contract) (f : Frame) : Except Stop Frame := do
  let (op, g) ← prepare readOnly c f
  let g ← execute K c op g
  .ok { g with pc := g.pc + 1 }

/-- The loop for `n` turns. -/
def runFor (readOnly : Bool) (c : Contract) : ℕ → Frame → Except Stop Frame
  | 0, f => .ok f
  | n + 1, f => do
    let g ← step K readOnly c f
    runFor readOnly c n g

end Wormholes.Vm
