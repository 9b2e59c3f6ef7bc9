import Wormholes.Core.HandleNFT
import Wormholes.Types.Stake

/-!
# Chain.Machine — a chain from genesis, one state operation at a time

A block's execution is a sequence of state operations: the calls, creations and opcodes its
transactions reach, the snapshots their frames take and the reverts of those that fail, the
finalisation of each transaction, and last the mint for the header's beneficiaries and the writing
of the block. `Event` lists the operations and `step` applies one. Frames are not bracketed by the
type: a frame's operations follow its `call`, and its failure is a `revert` to the snapshot the
call took. This admits every execution the interpreter can produce, and more.

`Chain.saved` records the state at each snapshot that can still be reverted to. It is a history
variable: no step reads it, conditions on runs do.
-/

namespace Wormholes

open Core StateDB

/-! ## Genesis -/

/-- An account of the genesis allocation. -/
structure GenesisAccount where
  addr : Address
  balance : ℕ
  code : GoString
  nonce : ℕ

/-- A genesis specification. Its maps are lists without repeated keys. The start index is not negative:
`Genesis.Commit` exits on one that is, which RLP cannot encode. -/
structure Genesis where
  alloc : List GenesisAccount
  stake : List (Address × ℕ)
  validator : List (Address × ℕ)
  dir : GoString
  startIndex : ℕ
  injectNumber : ℕ
  royalty : ℕ
  creator : GoString
  stake_nodup : (stake.map Prod.fst).Nodup
  validator_nodup : (validator.map Prod.fst).Nodup

namespace Genesis

/-- The counters and pools the first block starts with. -/
def pools (g : Genesis) : Pools :=
  let official : List InjectedOfficialNFT :=
    [{ dir := g.dir, startIndex := g.startIndex, number := g.injectNumber, royalty := g.royalty,
       creator := g.creator }]
  { mintDeep := { userMint := 1, officialMint := officialMask }
    snftExchangePool := []
    pledgedTokenPool := []
    exchangerTokenPool := []
    activeMinersPool := g.validator.map fun v => ⟨v.1, v.2, 0⟩
    officialNFTPool := official
    nominatedOfficialNFT :=
      some { toInjectedOfficialNFT := defaultInjected (InjectedOfficialNFTList.maxIndex official)
             address := 0 } }

/-- The state without accounts. -/
def emptyState (g : Genesis) : StateDB where
  accounts := fun _ => none
  journal := []
  validRevisions := []
  nextRevisionId := 0
  pools := g.pools

/-- `Genesis.ToBlock`: balances and code, then the exchangers, then the pledges. -/
def toState (g : Genesis) : StateDB :=
  let s := g.alloc.foldl
    (fun s a => ((s.addBalance a.addr a.balance).setCode a.addr a.code).setNonce a.addr a.nonce)
    g.emptyState
  let s := g.stake.foldl
    (fun s v => s.openExchanger v.1 v.2 0 250 "EXCHANGER".toList "www.xiaoli.com".toList) s
  g.validator.foldl (fun s v => s.pledgeToken v.1 v.2) s

end Genesis

/-! ## Chains -/

namespace StateObject

/-- An account read back from disk: absent balances are zero. -/
def reload (o : StateObject) : StateObject :=
  { o with
    pledgedBalance := some (o.pledgedBalance.getD 0)
    exchangerBalance := some (o.exchangerBalance.getD 0)
    voteWeight := some (o.voteWeight.getD 0)
    blockNumber := some (o.blockNumber.getD 0) }

end StateObject

namespace StateDB

/-- The state a block starts with, given the committed state of its parent. -/
def reload (s : StateDB) : StateDB where
  accounts := fun a => (s.accounts a).map StateObject.reload
  journal := []
  validRevisions := []
  nextRevisionId := 0
  pools := { s.pools with pledgedTokenPool := [], exchangerTokenPool := [] }

end StateDB

/-- The block being executed: its state, its number and the parent's stake lists. -/
structure Chain where
  db : StateDB
  number : ℕ
  stakePool : List Staked
  validatorPool : List Staked
  saved : List (ℕ × StateDB)

/-- The first block after genesis. -/
def Genesis.chain (g : Genesis) : Chain where
  db := { g.toState.finalise.reload with pools := g.pools }
  number := 1
  stakePool := g.stake.foldl (fun l v => StakedList.add l v.1 v.2) []
  validatorPool := g.validator.foldl (fun l v => StakedList.add l v.1 v.2) []
  saved := []

/-- One operation on the state of the block being executed. -/
inductive Event where
  /-- `EVM.Call` up to the callee's code. -/
  | call (caller addr : Address) (input : CallInput) (value : ℕ)
  /-- `EVM.Create` and `Create2` up to the init code. -/
  | create (caller addr : Address) (value : ℕ)
  /-- The snapshot of `CallCode`, `DelegateCall` and `StaticCall`. -/
  | enter
  /-- The touch of `StaticCall`. -/
  | touch (addr : Address)
  /-- A frame fails and reverts to its snapshot. -/
  | revert (id : ℕ)
  | sstore (addr : Address) (key value : ℕ)
  | setCode (addr : Address) (code : GoString)
  | selfDestruct (contract beneficiary : Address)
  | nTransferFrom (caller fromAddr toAddr nftAddr : Address)
  | nApprove (caller toAddr nftAddr : Address)
  | nSetApprovalForAll (caller toAddr : Address) (approved : Bool)
  | nMint (caller toAddr : Address) (royalty : ℕ) (uri : GoString)
  /-- `buyGas` of a message whose gas price is at most its fee cap. -/
  | buyGas (sender : Address) (gas gasPrice gasFeeCap value : ℕ)
  | setNonce (sender : Address) (nonce : ℕ)
  /-- A gas refund or a fee. -/
  | credit (addr : Address) (amount : ℕ)
  /-- The end of a transaction. -/
  | finalise
  /-- `Finalize` for the header's beneficiaries, the writing of the block and the start of the
  next one. -/
  | finalizeBlock (beneficiaries : List Address)

namespace Chain

variable (K : Crypto)

/-- The chain with a new state and the snapshots of the old one. -/
def withDb (c : Chain) (db : StateDB) : Chain := { c with db := db }

/-- An opcode's outcome: a failed one writes nothing. -/
def ofRes (c : Chain) : Res StateDB → Option Chain
  | .ok db => some (c.withDb db)
  | .err _ => some c
  | .panic => none

/-- A snapshot is taken, then the state becomes `db`. -/
def entered (c : Chain) (db : StateDB) : Chain :=
  { c with db := db, saved := (c.db.nextRevisionId, c.db) :: c.saved }

/-- `writeBlockWithState`: the stake lists take this block's entries and the miners are pruned. An entry's
amount is a value here. The code keeps the caller's `*big.Int` and adds into it later, and all CALLs without
a value share one zero; `Event.OwnAmount` says that an entry that is kept has an amount of its own. -/
def writeBlock (c : Chain) (db : StateDB) : Chain :=
  let validatorPool := StakedList.foldValidators c.validatorPool db.pools.pledgedTokenPool
  let miners := ActiveMinerList.ensureEffectiveMiners validatorPool
    (ActiveMinerList.pruneInactive db.pools.activeMinersPool c.number)
  { db := { db with pools := { db.pools with activeMinersPool := miners } }.reload
    number := c.number + 1
    stakePool := StakedList.foldStakers c.stakePool db.pools.exchangerTokenPool
    validatorPool := validatorPool
    saved := [] }

/-- Applies one operation. `none` is a panic or an exit of the node, an id that is no valid revision, or
a message that cannot pay its gas. -/
def step (e : Event) (c : Chain) : Option Chain :=
  match e with
  | .call caller addr input value =>
    if value ≠ 0 ∧ ¬ c.db.canTransfer caller value then some c
    else (evmCall K c.db c.number caller addr input value).map fun r => c.entered r.1
  | .create caller addr value =>
    let r := evmCreate c.db caller addr value
    if r.2 then some (c.withDb r.1)
    else
      some { c with
        db := r.1
        saved := (c.db.nextRevisionId, c.db.setNonce caller (c.db.getNonce caller + 1)) :: c.saved }
  | .enter => some (c.entered c.db.snapshot)
  | .touch addr => some (c.withDb (c.db.addBalance addr 0))
  | .revert id =>
    (c.db.revertToSnapshot id).map fun db =>
      { c with db := db, saved := (c.saved.dropWhile fun r => decide (r.1 > id)).tail }
  | .sstore addr key value => some (c.withDb (c.db.setState addr key value))
  | .setCode addr code => some (c.withDb (c.db.setCode addr code))
  | .selfDestruct contract beneficiary => some (c.withDb (opSuicide c.db contract beneficiary))
  | .nTransferFrom caller fromAddr toAddr nftAddr =>
    c.ofRes (opNTransferFrom K c.db caller fromAddr toAddr nftAddr)
  | .nApprove caller toAddr nftAddr => c.ofRes (opNApprove K c.db caller toAddr nftAddr)
  | .nSetApprovalForAll caller toAddr approved =>
    some (c.withDb (opNSetApprovalForAll c.db caller toAddr approved))
  | .nMint caller toAddr royalty uri => c.ofRes (opNMint c.db caller toAddr royalty uri)
  | .buyGas sender gas gasPrice gasFeeCap value =>
    if gasPrice ≤ gasFeeCap ∧ c.db.getBalance sender ≥ (gas * gasFeeCap + value : ℕ) then
      some (c.withDb (c.db.subBalance sender (gas * gasPrice : ℕ)))
    else none
  | .setNonce sender nonce => some (c.withDb (c.db.setNonce sender nonce))
  | .credit addr amount => some (c.withDb (c.db.addBalance addr amount))
  | .finalise => some { c with db := c.db.finalise, saved := [] }
  | .finalizeBlock beneficiaries =>
    (c.db.createNFTByOfficial16 K.toHasher beneficiaries c.number).bind fun db =>
      -- RLP refuses a negative index, on which `WriteOfficialNFTPool` exits
      if db.pools.officialNFTPool.all fun e => 0 ≤ e.startIndex then some (c.writeBlock db.finalise)
      else none

end Chain

end Wormholes
