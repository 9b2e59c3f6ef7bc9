import Wormholes.Consensus.IbftNode
import Wormholes.Consensus.Istanbul

/-!
# Consensus.IbftLookups — an IBFT core whose node may lack what it looks up

`Consensus.IbftNode` lets a core's backend answer anything, but it always answers. Here the answers
are looked up in the node's chain, with the lookups of `consensus/istanbul/backend/backend.go` and
`core/blockchain.go`. A header that is not there, a pool that cannot be read and a total stake of
zero are a nil pointer or a division by zero in the code: the handler panics, which is `none` here.
The handlers are those of `handler.go`, `preprepare.go`, `roundchange.go` and `core.go`, with every
lookup at its place; what they do between lookups is taken from `Consensus.IbftNode`.

Left out, as there: the switch to the `qbft` engine. The channels to the log and to the sealer take
what they are given.
-/

namespace Wormholes.Consensus.Ibft.Node

open Lib Common

variable {P : Type}

/-- A node's configuration and what it reads while its core handles an event. -/
structure LocalChain (P : Type) extends Hashes where
  policy : ProposerPolicyId
  ceil2Nby3Block : Option ℕ
  engine : Engine
  /-- The clock. -/
  now : ℕ
  header : P → Header
  /-- No block has the empty hash. -/
  hash_ne_zero : ∀ p, hashBig ((header p).hash toHashes) ≠ 0
  /-- The transactions have the hash the header says, and there are no uncles. -/
  bodyMatches : P → Bool
  currentBlock : P
  getHeaderByHash : List ℕ → Option Header
  getHeaderByNumber : ℕ → Option Header
  /-- A pool that is not there or does not decode is a nil pointer. -/
  readActiveMinersPool : List ℕ → ℕ → Option (List ActiveMiner)
  /-- The order in which equal weights are ranked is the runtime's. -/
  rankByWordCount : List (ℕ × ℤ) → List (ℕ × ℤ)
  ranking : ∀ pairs, Ranking pairs (rankByWordCount pairs)
  /-- `validator.NewSet` sorts by the policy's order. -/
  newSet : List Address → List Address
  newSet_perm : ∀ l, (newSet l).Perm l
  hasBadProposal : ℕ → Bool
  commit : P → Bool

namespace LocalChain

variable (L : LocalChain P)

/-- The configuration of the core. -/
def config : Config P where
  policy := L.policy
  ceil2Nby3Block := L.ceil2Nby3Block
  number p := (L.header p).number
  hash p := hashBig ((L.header p).hash L.toHashes)
  hash_ne_zero := L.hash_ne_zero

/-! ## Lookups -/

/-- `ActiveMinerList.ValidatorByDistanceAndWeight`: each weight is divided by the total stake. -/
def validatorByDistanceAndWeight (miners : List ActiveMiner) (k randomHash : ℕ) :
    Option (List Address) :=
  let l := ActiveMinerList.staked miners
  let addrs := ActiveMinerList.convertToBigInt miners
  if addrs ≠ [] ∧ StakedList.totalStakeBalance l = 0 then none
  else
    let ranked := L.rankByWordCount
      (addrs.map fun v => (v, selectionWeight l v (randomHash % 2 ^ 160)))
    some ((ranked.take k).map fun p => bigToAddress p.1)

/-- `Random11ValidatorFromPool`, with a pointer to a header. -/
def random11ValidatorFromPool (header : Option Header) : Option (List Staked) := do
  let header ← header
  let hash := header.hash L.toHashes
  let activeMiners ← L.readActiveMinersPool hash (header.number % 2 ^ 64)
  let validators ← L.validatorByDistanceAndWeight activeMiners 11 (hashBig hash)
  some (validators.foldl (fun l a =>
    StakedList.add l a (StakedList.stakeBalance (ActiveMinerList.staked activeMiners) a)) [])

/-- The validator set of the eleven. -/
def validatorSet (header : Option Header) : Option (List Address) :=
  (L.random11ValidatorFromPool header).map fun l => L.newSet (l.map (·.addr))

def getValidators (hash : List ℕ) : Option (List Address) := L.validatorSet (L.getHeaderByHash hash)

def validators (p : P) : Option (List Address) :=
  L.getValidators ((L.header p).hash L.toHashes)

def parentValidators (p : P) : Option (List Address) := L.getValidators (L.header p).parentHash

/-- An error of `Author` is not looked at. -/
def getProposer (number : ℕ) : Address :=
  match L.getHeaderByNumber number with
  | some h =>
    match h.author L.toHashes with
    | .ok a => a
    | _ => 0
  | none => 0

/-- `HasPropsal`; a hash has thirty-two bytes. -/
def hasPropsal (hash number : ℕ) : Bool :=
  (L.engine.getHeader (toDigitsBE 256 32 hash) (number % 2 ^ 64)).isSome

/-- `LastProposal`; the proposal is nil if the head's author cannot be recovered. -/
def lastProposal : Option (P × Address) :=
  let h := L.header L.currentBlock
  if 0 < h.number then
    match h.author L.toHashes with
    | .ok proposer => some (L.currentBlock, proposer)
    | _ => none
  else some (L.currentBlock, 0)

/-- `VerifyBlockProposal` of the engine. Missing committed seals are no error yet. -/
def verifyBlockProposal (p : P) (validators : List Address) : Option Verdict :=
  if L.bodyMatches p then
    match engineVerifyHeader L.toHashes L.engine L.now (L.header p) [] validators with
    | .ok _ => some .ok
    | .err msg =>
      if msg = "zero committed seals" then some .ok
      else if msg = "block in the future" then some .future
      else some .invalid
    | .panic => none
  else some .invalid

/-- `backend.Verify`. -/
def verify (p : P) : Option Verdict :=
  if L.hasBadProposal (L.config.hash p) then some .invalid
  else do
    let valSet ← L.validatorSet (some (L.header L.currentBlock))
    L.verifyBlockProposal p valSet

/-- The answers where there are answers. -/
def backend : Backend P where
  lastProposal := L.currentBlock
  lastProposer := (L.lastProposal.map (·.2)).getD 0
  validators p := (L.validators p).getD []
  parentValidators p := (L.parentValidators p).getD []
  getProposer := L.getProposer
  hasPropsal := L.hasPropsal
  hasBadProposal := L.hasBadProposal
  verify p := (L.verify p).getD .invalid
  commit := L.commit

/-! ## Handlers -/

variable (c : Core P)

/-- `startNewRound` after it has chosen the view and the validator set: it logs the proposer's
address and, where it is the proposer itself and locked, the number of the locked proposal. -/
def enterRound (view : View) (roundChange : Bool) : Option (Out P) :=
  let out := c.enterRound L.config L.backend view roundChange
  match out.core.proposer with
  | none => none
  | some _ =>
    if roundChange = true ∧ out.core.isProposer out.core.address = true ∧
        out.core.isHashLocked L.backend = true ∧ out.core.current.proposal = none then none
    else some out

def startNewRound (round : ℕ) : Option (Out P) :=
  match L.lastProposal with
  | none => none
  | some (last, _) =>
    let number := L.config.number last
    if c.current.sequence ≤ number then
      match L.validators last with
      | none => none
      | some valSet => L.enterRound { c with valSet := valSet } ⟨number + 1, 0⟩ false
    else if (number : ℤ) = Vm.int64 (Vm.int64 c.current.sequence - 1) then
      if round = 0 then some { core := c }
      else if round < c.current.round then some { core := c }
      else L.enterRound c ⟨c.current.sequence, round⟩ true
    else some { core := c }

/-- `handlePreprepare` for a message older than the core's view. -/
def handleOldPreprepare (preprepare : Preprepare P) (src : Address) : Option (Out P) :=
  match L.parentValidators preprepare.proposal with
  | none => none
  | some _ => some (c.handleOldPreprepare L.config L.backend preprepare src)

/-- `sendPrepare` and `sendCommit`, which read the subject of the round state without a test. -/
def sendSubject (payload : Subject → Payload P) : Option (Out P) :=
  match c.subject L.config with
  | none => none
  | some sub => some { core := c, sent := [c.broadcast L.config (payload sub) false] }

/-- `handlePreprepare` once the proposal is verified. -/
def takePreprepare (preprepare : Preprepare P) : Option (Out P) :=
  if c.state = .acceptRequest then
    if c.isHashLocked L.backend then
      if L.config.hash preprepare.proposal = c.current.lockedHash then
        L.sendSubject (c.acceptPreprepare preprepare .prepared) .commit
      else some (c.sendNextRoundChange L.config L.backend)
    else L.sendSubject (c.acceptPreprepare preprepare .preprepared) .prepare
  else some { core := c }

def handlePreprepare (preprepare : Preprepare P) (src : Address) : Option (Out P) :=
  match c.checkMessage .preprepare preprepare.view with
  | .old => L.handleOldPreprepare c preprepare src
  | .future => some { core := c }
  | .ok =>
    if c.isProposer src then
      match L.verify preprepare.proposal with
      | none => none
      | some .future => some { core := c }
      | some .invalid => some (c.sendNextRoundChange L.config L.backend)
      | some .ok => L.takePreprepare c preprepare
    else some { core := c }

/-- `handlePrepare` once the message is counted. -/
def countPrepare (prepare : Subject) : Option (Out P) :=
  if ((c.isHashLocked L.backend ∧ prepare.digest = c.current.lockedHash) ∨
      c.quorum L.config ≤ c.current.getPrepareOrCommitSize) ∧
      c.state.toNat < State.prepared.toNat then
    L.sendSubject { c with current := c.lockHash L.config, state := .prepared } .commit
  else some { core := c }

def handlePrepare (prepare : Subject) (src : Address) : Option (Out P) :=
  match c.checkMessage .prepare prepare.view with
  | .ok =>
    if c.subject L.config = some prepare then L.countPrepare (c.acceptPrepare src) prepare
    else some { core := c }
  | _ => some { core := c }

/-- `handleRoundChange` once the message is counted. -/
def countRoundChange (round num : ℕ) : Option (Out P) :=
  if c.waitingForRoundChange ∧ (num : ℤ) = faulty c.valSet + 1 then
    if c.current.round < round then some (c.sendRoundChange L.config L.backend round)
    else some { core := c }
  else if (num : ℤ) = c.quorum L.config ∧ (c.waitingForRoundChange ∨ c.current.round < round) then
    L.startNewRound c round
  else some { core := c }

def handleRoundChange (rc : Subject) (src : Address) : Option (Out P) :=
  match c.checkMessage .roundChange rc.view with
  | .ok =>
    if (ValidatorSet.getByAddress c.valSet src).isSome then
      let rcs := c.roundChangeSet.add rc.view.round src
      L.countRoundChange { c with roundChangeSet := rcs } rc.view.round
        (rcs.size (rc.view.round % 2 ^ 64))
    else some { core := c }
  | _ => some { core := c }

def handleCheckedMsg (m : Message P) : Option (Out P) :=
  match m.payload with
  | .preprepare preprepare => L.handlePreprepare c preprepare m.address
  | .prepare prepare => L.handlePrepare c prepare m.address
  | .commit commit => some (c.handleCommit L.config L.backend commit m.address m.committedSeal)
  | .roundChange rc => L.handleRoundChange c rc m.address

/-- Only a message of a validator is handled. -/
def handleMsg (m : Message P) : Option (Out P) :=
  if (ValidatorSet.getByAddress c.valSet m.address).isSome then L.handleCheckedMsg c m
  else some { core := c }

end LocalChain

end Wormholes.Consensus.Ibft.Node
