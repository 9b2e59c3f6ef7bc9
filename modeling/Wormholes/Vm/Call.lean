import Wormholes.Vm.Interpreter

/-!
# Vm.Call — nested frames and the write protection

`EVM.Call`, `CallCode`, `DelegateCall`, `StaticCall` and `create`, with the frames they run. What a
frame's code computes decides which opcodes it executes and with which operands; here that is
left open, and `Exec` relates the state a frame starts with to every state some code can end with.
Each opcode of the derivation has passed the interpreter's write protection: in a read-only frame
an opcode whose table entry is flagged, or a `CALL` with a value, ends the frame with an error.

The read-only flag stays set for all frames below a static call, whatever they are called with.
-/

namespace Wormholes.Vm

open Core

/-- Whose code runs and who called it. -/
structure Context where
  self : Address
  caller : Address

/-- An opcode by what it may do to the state, with its operands. `read` is every opcode that only
looks at the state, `create` is `CREATE` and `CREATE2`. -/
inductive StateOp where
  | read
  | sstore (key value : ℕ)
  | log
  | selfDestruct (beneficiary : Address)
  | create (addr : Address) (value : ℕ)
  | call (addr : Address) (input : CallInput) (value : ℕ)
  | callCode
  | delegateCall
  | staticCall (addr : Address)
  | nTransferFrom (fromAddr toAddr nftAddr : Address)
  | nApprove (toAddr nftAddr : Address)
  | nSetApprovalForAll (toAddr : Address) (approved : Bool)
  | nMint (toAddr : Address) (royalty : ℕ) (uri : GoString)

/-- The `writes` flag of the opcode's table entry. -/
def StateOp.writes : StateOp → Bool
  | .sstore .. | .log | .selfDestruct _ | .create .. => true
  | .read | .call .. | .callCode | .delegateCall | .staticCall _ => false
  | .nTransferFrom .. => (jumpTable .nTransferFrom).writes
  | .nApprove .. => (jumpTable .nApprove).writes
  | .nSetApprovalForAll .. => (jumpTable .nSetApprovalForAll).writes
  | .nMint .. => (jumpTable .nMint).writes

/-- What the interpreter refuses in a read-only frame. -/
def StateOp.writeProtected (op : StateOp) : Bool :=
  op.writes ||
    match op with
    | .call _ _ value => decide (value ≠ 0)
    | _ => false

/-- The state after a frame: a failed one is reverted to its snapshot. -/
def settle (id : ℕ) (db : StateDB) (failed : Bool) : Option StateDB :=
  if failed then db.revertToSnapshot id else some db

variable (K : Crypto) (blocknumber : ℕ)

/-- An opcode that runs no frame. -/
def applyLocal (ctx : Context) (op : StateOp) (db : StateDB) : Res StateDB :=
  match op with
  | .sstore key value => .ok (db.setState ctx.self key value)
  | .selfDestruct beneficiary => .ok (opSuicide db ctx.self beneficiary)
  | .nTransferFrom fromAddr toAddr nftAddr =>
    Core.opNTransferFrom K db ctx.caller fromAddr toAddr nftAddr
  | .nApprove toAddr nftAddr => Core.opNApprove K db ctx.caller toAddr nftAddr
  | .nSetApprovalForAll toAddr approved =>
    .ok (Core.opNSetApprovalForAll db ctx.caller toAddr approved)
  | .nMint toAddr royalty uri => Core.opNMint db ctx.caller toAddr royalty uri
  | _ => .ok db

/-- `Exec ok readOnly ctx s t failed`: a frame that starts in state `s` can end in state `t`, with or
without an error, by opcodes that each pass the write protection and meet `ok` in the state they
find. -/
inductive Exec (ok : StateDB → Context → StateOp → Prop) :
    Bool → Context → StateDB → StateDB → Bool → Prop
  /-- `STOP`, `RETURN`, the end of the code, or no code. -/
  | halt {readOnly ctx s} : Exec ok readOnly ctx s s false
  /-- An error, the write protection's among them; the caller reverts. -/
  | fail {readOnly ctx s} : Exec ok readOnly ctx s s true
  | opcode {readOnly ctx s s' t failed} (op : StateOp)
      (hallowed : (readOnly && op.writeProtected) = false) (hok : ok s ctx op)
      (happly : applyLocal K ctx op s = .ok s') (rest : Exec ok readOnly ctx s' t failed) :
      Exec ok readOnly ctx s t failed
  /-- A `CALL` that returns an error before any code of the callee runs. -/
  | callFailed {readOnly ctx s s' t failed} (addr : Address) (input : CallInput) (value : ℕ)
      (hallowed : (readOnly && (StateOp.call addr input value).writeProtected) = false)
      (hok : ok s ctx (.call addr input value))
      (hcall : evmCall K s blocknumber ctx.self addr input value = some (s', true))
      (rest : Exec ok readOnly ctx s' t failed) : Exec ok readOnly ctx s t failed
  | call {readOnly ctx s s₁ s₂ s' t failed failed'} (addr : Address) (input : CallInput) (value : ℕ)
      (hallowed : (readOnly && (StateOp.call addr input value).writeProtected) = false)
      (hok : ok s ctx (.call addr input value))
      (hcall : evmCall K s blocknumber ctx.self addr input value = some (s₁, false))
      (callee : Exec ok readOnly ⟨addr, ctx.self⟩ s₁ s₂ failed')
      (hsettle : settle s.nextRevisionId s₂ failed' = some s')
      (rest : Exec ok readOnly ctx s' t failed) : Exec ok readOnly ctx s t failed
  | callCode {readOnly ctx s s₂ s' t failed failed'} (hok : ok s ctx .callCode)
      (callee : Exec ok readOnly ⟨ctx.self, ctx.self⟩ s.snapshot s₂ failed')
      (hsettle : settle s.nextRevisionId s₂ failed' = some s')
      (rest : Exec ok readOnly ctx s' t failed) : Exec ok readOnly ctx s t failed
  | delegateCall {readOnly ctx s s₂ s' t failed failed'} (hok : ok s ctx .delegateCall)
      (callee : Exec ok readOnly ctx s.snapshot s₂ failed')
      (hsettle : settle s.nextRevisionId s₂ failed' = some s')
      (rest : Exec ok readOnly ctx s' t failed) : Exec ok readOnly ctx s t failed
  | staticCall {readOnly ctx s s₂ s' t failed failed'} (addr : Address)
      (hok : ok s ctx (.staticCall addr))
      (callee : Exec ok true ⟨addr, ctx.self⟩ (s.snapshot.addBalance addr 0) s₂ failed')
      (hsettle : settle s.nextRevisionId s₂ failed' = some s')
      (rest : Exec ok readOnly ctx s' t failed) : Exec ok readOnly ctx s t failed
  /-- A creation refused for the balance or for the address; the nonce may have moved. -/
  | createFailed {readOnly ctx s s' t failed} (addr : Address) (value : ℕ)
      (hallowed : (readOnly && (StateOp.create addr value).writeProtected) = false)
      (hok : ok s ctx (.create addr value)) (hcreate : evmCreate s ctx.self addr value = (s', true))
      (rest : Exec ok readOnly ctx s' t failed) : Exec ok readOnly ctx s t failed
  /-- The init code runs in the new account and returns the code to store. -/
  | create {readOnly ctx s s₁ s₂ s' t failed failed'} (addr : Address) (value : ℕ)
      (code : GoString)
      (hallowed : (readOnly && (StateOp.create addr value).writeProtected) = false)
      (hok : ok s ctx (.create addr value)) (hcreate : evmCreate s ctx.self addr value = (s₁, false))
      (init : Exec ok readOnly ⟨addr, ctx.self⟩ s₁ s₂ failed')
      (hsettle : settle s.nextRevisionId (if failed' then s₂ else s₂.setCode addr code) failed' = some s')
      (rest : Exec ok readOnly ctx s' t failed) : Exec ok readOnly ctx s t failed

/-- `EVM.StaticCall` of `addr` by `caller` can lead from `s` to `t`. -/
def StaticCall (ok : StateDB → Context → StateOp → Prop) (caller addr : Address)
    (s t : StateDB) : Prop :=
  ∃ s' failed, Exec K blocknumber ok true ⟨addr, caller⟩ (s.snapshot.addBalance addr 0) s' failed ∧
    settle s.nextRevisionId s' failed = some t

end Wormholes.Vm
