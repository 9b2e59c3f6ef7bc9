import Wormholes.Core.HandleNFT

/-!
# Core.StateTransition — buying gas, running a message and settling its fees

`core/state_transition.go`. A message buys its gas, runs as a creation or a call, gets back what it
did not use and pays for the rest. The virtual machine's run of the message is a parameter, `Evm`,
of which only that it returns no more gas than it was given is assumed, and so is the JSON decoder.
-/

namespace Wormholes.Core

open StateDB

/-- The longest slice of bytes or of list entries a 64-bit Go runtime can hold. -/
def maxSlice : ℕ := 2 ^ 48

/-- A message. The access list counts only with its lengths. -/
structure Message where
  sender : Address
  recipient : Option Address
  gasPrice : ℕ
  gasFeeCap : ℕ
  gasTipCap : ℕ
  gas : ℕ
  value : ℕ
  nonce : ℕ
  isFake : Bool
  data : GoString
  accessAddresses : ℕ
  accessStorageKeys : ℕ
  gas_lt : gas < 2 ^ 64
  data_le : data.length ≤ maxSlice
  accessAddresses_le : accessAddresses ≤ maxSlice
  accessStorageKeys_le : accessStorageKeys ≤ maxSlice

namespace Message

def contractCreation (msg : Message) : Bool := msg.recipient.isNone

/-- `to`: the zero address for a creation. -/
def toAddr (msg : Message) : Address := msg.recipient.getD 0

end Message

/-- What a run of the virtual machine returns: the state, the gas left, its error and the refund
counter. -/
structure EvmResult where
  db : StateDB
  gas : ℕ
  vmerr : Option String
  refund : ℕ

/-- The block a message runs in and the virtual machine. -/
structure Evm where
  coinbase : Address
  baseFee : ℕ
  noBaseFee : Bool
  homestead : Bool
  istanbul : Bool
  london : Bool
  /-- `json.Unmarshal` into a `Wormholes`. -/
  unmarshal : GoString → Option WormholesTx
  /-- `Create`, from the sender, the data, the gas and the value. -/
  create : StateDB → Address → GoString → ℕ → ℕ → EvmResult
  /-- `Call`, from the sender, the recipient, the data, the gas and the value. -/
  call : StateDB → Address → Address → GoString → ℕ → ℕ → EvmResult
  create_gas_le : ∀ db sender data gas value, (create db sender data gas value).gas ≤ gas
  call_gas_le : ∀ db sender addr data gas value, (call db sender addr data gas value).gas ≤ gas

/-- A consensus error. -/
inductive TxError where
  | nonceTooHigh
  | nonceTooLow
  | senderNoEOA
  | feeCapVeryHigh
  | tipVeryHigh
  | tipAboveFeeCap
  | feeCapTooLow
  | insufficientFunds
  | gasLimitReached
  | gasUintOverflow
  | intrinsicGas
  | insufficientFundsForTransfer
deriving DecidableEq

/-! ## Payloads -/

variable (evm : Evm) (msg : Message)

/-- `IsWormholesNFTTx`: the data has the prefix and something after it. -/
def isWormholesNFTTx : Bool :=
  decide (msg.data.length > 10 ∧ msg.data.take 10 = "wormholes:".toList)

/-- `GetWormholesType`: zero where the data has no prefix or does not decode. -/
def getWormholesType : ℕ :=
  if isWormholesNFTTx msg then
    match evm.unmarshal (msg.data.drop 10) with
    | some w => w.type
    | none => 0
  else 0

/-! ## Gas -/

/-- `TxGasContractCreation` or `TxGas`. -/
def txGas : ℕ :=
  if msg.contractCreation && evm.homestead then 53000 else 21000

/-- The price of a byte of data that is not zero. -/
def nonZeroGas : ℕ := if evm.istanbul then 16 else 68

/-- `IntrinsicGas`. -/
def intrinsicGas : Except TxError ℕ :=
  let gas := txGas evm msg
  let nz := msg.data.countP fun c => c.toNat ≠ 0
  if (2 ^ 64 - 1 - gas) / nonZeroGas evm < nz then .error .gasUintOverflow
  else
    let gas := gas + nz * nonZeroGas evm
    let z := msg.data.length - nz
    if (2 ^ 64 - 1 - gas) / 4 < z then .error .gasUintOverflow
    else .ok ((gas + z * 4 + msg.accessAddresses * 2400 + msg.accessStorageKeys * 1900) % 2 ^ 64)

/-- The running state of a transition. -/
structure Transition where
  db : StateDB
  gp : ℕ
  gas : ℕ
  initialGas : ℕ

namespace Transition

/-- `NewStateTransition` on state `db` in a block with `gp` gas left. -/
def start (db : StateDB) (gp : ℕ) : Transition := { db := db, gp := gp, gas := 0, initialGas := 0 }

def gasUsed (st : Transition) : ℕ := st.initialGas - st.gas

def addBalance (st : Transition) (addr : Address) (amount : ℕ) : Transition :=
  { st with db := st.db.addBalance addr amount }

end Transition

/-- `buyGas`. The sender must afford the fee cap and the value, and pays the gas price. -/
def buyGas (st : Transition) : Except TxError Transition :=
  let mgval := msg.gas * msg.gasPrice
  let balanceCheck := msg.gas * msg.gasFeeCap + msg.value
  if st.db.getBalance msg.sender < balanceCheck then .error .insufficientFunds
  else if st.gp < msg.gas then .error .gasLimitReached
  else
    .ok { db := st.db.subBalance msg.sender mgval, gp := st.gp - msg.gas, gas := st.gas + msg.gas
          initialGas := msg.gas }

/-- Fails with `e` if the condition holds. -/
def refuse (c : Prop) [Decidable c] (e : TxError) : Except TxError Unit :=
  if c then .error e else .ok ()

/-- Whether `preCheck` looks at the fee fields. -/
def checksFees : Bool :=
  evm.london && (!evm.noBaseFee || msg.gasFeeCap ≠ 0 || msg.gasTipCap ≠ 0)

/-- The checks of `preCheck` before the gas is bought. -/
def checkMessage (db : StateDB) : Except TxError Unit := do
  refuse (msg.isFake = false ∧ db.getNonce msg.sender < msg.nonce) .nonceTooHigh
  refuse (msg.isFake = false ∧ db.getNonce msg.sender > msg.nonce) .nonceTooLow
  refuse (msg.isFake = false ∧ db.getCode msg.sender ≠ []) .senderNoEOA
  refuse (checksFees evm msg = true ∧ msg.gasFeeCap ≥ 2 ^ 256) .feeCapVeryHigh
  refuse (checksFees evm msg = true ∧ msg.gasTipCap ≥ 2 ^ 256) .tipVeryHigh
  refuse (checksFees evm msg = true ∧ msg.gasFeeCap < msg.gasTipCap) .tipAboveFeeCap
  refuse (checksFees evm msg = true ∧ msg.gasFeeCap < evm.baseFee) .feeCapTooLow

def preCheck (st : Transition) : Except TxError Transition := do
  checkMessage evm msg st.db
  buyGas msg st

/-- `RefundQuotient` or `RefundQuotientEIP3529`. -/
def refundQuotient : ℕ := if evm.london then 5 else 2

/-- `refundGas`. -/
def refundGas (refundQuotient stateRefund : ℕ) (st : Transition) : Transition :=
  let refund := min (st.gasUsed / refundQuotient) stateRefund
  let st := { st with gas := st.gas + refund }
  let st := st.addBalance msg.sender (st.gas * msg.gasPrice)
  { st with gp := st.gp + st.gas }

/-! ## The transition -/

/-- The run of a message on state `db` with `gas` gas. -/
def Evm.run (db : StateDB) (gas : ℕ) : EvmResult :=
  if msg.contractCreation then evm.create db msg.sender msg.data gas msg.value
  else
    evm.call (db.setNonce msg.sender (db.getNonce msg.sender + 1)) msg.sender msg.toAddr msg.data gas
      msg.value

/-- The fee of the gas used goes to the coinbase, or back to the sender of a successful exchange;
the sender of a liveness transaction gets it as well. -/
def payFees (vmerr : Option String) (st : Transition) : Transition :=
  let fee := st.gasUsed * msg.gasPrice
  if isWormholesNFTTx msg then
    let txType := getWormholesType evm msg
    let st :=
      if txType = 6 ∧ vmerr = none then st.addBalance msg.sender fee
      else st.addBalance evm.coinbase fee
    if txType = 30 then st.addBalance msg.sender fee else st
  else st.addBalance evm.coinbase fee

/-- `ExecutionResult`, and the transition that led to it. -/
structure ExecutionResult where
  usedGas : ℕ
  vmerr : Option String
  final : Transition

/-- `TransitionDb` on state `db` in a block with `gp` gas left. -/
def transitionDb (db : StateDB) (gp : ℕ) : Except TxError ExecutionResult := do
  let st ← preCheck evm msg (.start db gp)
  let gas ← intrinsicGas evm msg
  refuse (st.gas < gas) .intrinsicGas
  let st := { st with gas := st.gas - gas }
  refuse (msg.value > 0 ∧ ¬ st.db.canTransfer msg.sender msg.value) .insufficientFundsForTransfer
  let r := evm.run msg st.db st.gas
  let st := { st with db := r.db, gas := r.gas }
  let st := refundGas msg (refundQuotient evm) r.refund st
  let st := payFees evm msg r.vmerr st
  .ok ⟨st.gasUsed, r.vmerr, st⟩

end Wormholes.Core
