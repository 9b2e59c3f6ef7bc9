import Wormholes.Consensus.IbftNode
import Wormholes.Consensus.QbftTypes

/-!
# Consensus.QbftNode — one QBFT core and whatever its backend answers

`consensus/istanbul/qbft/core`, one core alone, from the bytes it receives to the messages it
broadcasts. Every event comes with a `Backend`: the head, the validators a head implies, the verdict on
a proposal and whether it can be committed may change in any way from one event to the next.
`Consensus.QbftNetwork` has a network of cores.

A handler returns none where the source dereferences nil. Go iterates the map of a message set in any
order; here the newest message is first. The backlog holds every message put there, and any of them
may come back at any time and repeatedly, which is more than the priority queues do; the queue of
pending requests is the event `request`. Left out: gossip, the timers, which are events, and the
failure of `backend.Sign` and `backend.Author`.
-/

namespace Wormholes.Consensus.Qbft.Node

open Lib Common Rlp
open Ibft (View State Verdict ProposerPolicyId)
open Ibft.Node.ValidatorSet (getByAddress)

variable {P : Type}

/-! ## The backend -/

/-- A core's configuration and what it reads of a proposal and of a signature. -/
structure Config (P : Type) where
  policy : ProposerPolicyId
  ceil2Nby3Block : Option ℕ
  blocks : BlockCodec P
  number : P → ℕ
  /-- `GetSignatureAddress`. -/
  getSignatureAddress : List ℕ → List ℕ → Option Address
  /-- No block has the empty hash, which stands for no prepared block. -/
  hash_ne_zero : ∀ p, blocks.hash p ≠ zeroHash

/-- What the backend answers while a core handles one event. -/
structure Backend (P : Type) where
  lastProposal : P
  lastProposer : Address
  validators : P → List Address
  verify : P → Verdict
  /-- Whether `Commit` returns without an error. -/
  commit : P → Bool
  sign : List ℕ → List ℕ
  /-- The seal of a block for the low thirty-two bits of a round. -/
  signWithoutHashing : P → ℕ → List ℕ

/-- The errors of the handlers. -/
inductive Err where
  | invalidCode
  | decode (err : DecodeError)
  | encode
  | invalidSigner
  | futureMessage
  | oldMessage
  | invalidMessage
  | notFromProposer
  | invalidPreparedBlock
  | futureBlock
  | invalidProposal
deriving DecidableEq

/-! ## Justification -/

/-- The loop over the PREPARE messages of a justification. -/
def checkPrepares (preparedRound : ℕ) (hash : Hash) : List Prepare → Except String Unit
  | [] => .ok ()
  | spp :: rest =>
    if preparedRound ≠ spp.round ∨ hash ≠ spp.digest then
      .error "prepared messages do not have same round or do not match proposal"
    else checkPrepares preparedRound hash rest

/-- The loop counts the messages without a prepared round and digest. -/
def hasQuorumOfRoundChangeMessagesForNil (quorumSize nilCount : ℤ) :
    List SignedRoundChangePayload → Except String Unit
  | [] => .error "quorum of roundchange messages with nil prepared round not found"
  | m :: rest =>
    if (m.preparedRound = none ∨ m.preparedRound = some 0) ∧ m.preparedDigest = zeroHash then
      if nilCount + 1 = quorumSize then .ok ()
      else hasQuorumOfRoundChangeMessagesForNil quorumSize (nilCount + 1) rest
    else hasQuorumOfRoundChangeMessagesForNil quorumSize nilCount rest

/-- The loop counts the messages that have no prepared round above the given one and notices one with
that round and hash. -/
def hasQuorumOfRoundChangeMessagesForPreparedRoundAndBlock (preparedRound : ℕ) (hash : Hash)
    (quorumSize lowerOrEqualRoundCount : ℤ) (hasMatchingMessage : Bool) :
    List SignedRoundChangePayload → Except String Unit
  | [] => .error "quorum of roundchange messages with prepared round and proposal not found"
  | m :: rest =>
    if ∀ r ∈ m.preparedRound, r ≤ preparedRound then
      let hasMatchingMessage : Bool :=
        hasMatchingMessage ∨ (m.preparedRound = some preparedRound ∧ m.preparedDigest = hash)
      if quorumSize ≤ lowerOrEqualRoundCount + 1 ∧ hasMatchingMessage then .ok ()
      else
        hasQuorumOfRoundChangeMessagesForPreparedRoundAndBlock preparedRound hash quorumSize
          (lowerOrEqualRoundCount + 1) hasMatchingMessage rest
    else
      hasQuorumOfRoundChangeMessagesForPreparedRoundAndBlock preparedRound hash quorumSize
        lowerOrEqualRoundCount hasMatchingMessage rest

/-- `isJustified`, for a proposal of the given hash. -/
def isJustified (hash : Hash) (roundChangeMessages : List SignedRoundChangePayload)
    (prepareMessages : List Prepare) (quorumSize : ℤ) : Except String Unit :=
  if (roundChangeMessages.length : ℤ) < quorumSize then
    .error "number of roundchange messages is less than required quorum of messages"
  else if prepareMessages.length ≠ 0 ∧ (prepareMessages.length : ℤ) < quorumSize then
    .error "number of prepared messages is less than required quorum of messages"
  else
    match prepareMessages with
    | [] => hasQuorumOfRoundChangeMessagesForNil quorumSize 0 roundChangeMessages
    | first :: _ => do
      checkPrepares first.round hash prepareMessages
      hasQuorumOfRoundChangeMessagesForPreparedRoundAndBlock first.round hash quorumSize 0 false
        roundChangeMessages

/-- The loop of `hasMatchingRoundChangeAndPrepares`. -/
def checkMatching (m : SignedRoundChangePayload) : List Prepare → Except String Unit
  | [] => .ok ()
  | spp :: rest =>
    if spp.digest ≠ m.preparedDigest then
      .error "prepared message digest does not match roundchange prepared digest"
    else if m.preparedRound ≠ some spp.round then
      .error "round number in prepared message does not match prepared round in roundchange"
    else checkMatching m rest

def hasMatchingRoundChangeAndPrepares (m : SignedRoundChangePayload) (prepareMessages : List Prepare)
    (quorumSize : ℤ) : Except String Unit :=
  if (prepareMessages.length : ℤ) < quorumSize then
    .error "number of prepare messages is less than quorum of messages"
  else checkMatching m prepareMessages

/-! ## Message sets -/

/-- `qbftMsgSet.Add`: a message replaces the earlier one of its source. -/
def addMessage {α : Type} (source : α → Address) (m : α) (messages : List α) : List α :=
  m :: messages.filter fun m' => source m' ≠ source m

/-- `roundChangeSet`, by the low sixty-four bits of a round. -/
structure RoundChangeSet (P : Type) where
  validatorSet : List Address
  /-- The message of each source, for every round that has a message set. -/
  roundChanges : List (UInt64 × List (RoundChange P))
  prepareMessages : UInt64 → List Prepare
  highestPreparedRound : UInt64 → Option ℕ
  /-- The map holds interfaces: one that is there may still hold a nil block. -/
  highestPreparedBlock : UInt64 → Option (Option P)

namespace RoundChangeSet

variable (round : UInt64)

def newRoundChangeSet (valSet : List Address) : RoundChangeSet P where
  validatorSet := valSet
  roundChanges := []
  prepareMessages := fun _ => []
  highestPreparedRound := fun _ => none
  highestPreparedBlock := fun _ => none

variable (rcs : RoundChangeSet P)

/-- The messages of a round, none when it has no message set. -/
def messages? : Option (List (RoundChange P)) :=
  (rcs.roundChanges.find? (·.1 = round)).map (·.2)

/-- Makes room for the messages of a round, and keeps those that are there. -/
def newRound : RoundChangeSet P :=
  match rcs.messages? round with
  | some _ => rcs
  | none => { rcs with roundChanges := (round, []) :: rcs.roundChanges }

/-- The set with a message for a round. -/
def store (m : RoundChange P) : RoundChangeSet P :=
  let messages := addMessage (fun m : RoundChange P => m.source) m ((rcs.messages? round).getD [])
  { rcs with roundChanges := (round, messages) :: rcs.roundChanges.filter fun r => r.1 ≠ round }

/-- `Add`. -/
def add (r : ℕ) (m : RoundChange P) (preparedRound : Option ℕ) (preparedBlock : Option P)
    (prepareMessages : List Prepare) (quorumSize : ℤ) : RoundChangeSet P :=
  let round := UInt64.ofNat r
  let rcs' := rcs.store round m
  match preparedRound with
  | none => rcs'
  | some preparedRound =>
    if (∀ r ∈ rcs.highestPreparedRound round, r < preparedRound) ∧
        hasMatchingRoundChangeAndPrepares m.toSignedRoundChangePayload prepareMessages quorumSize =
          .ok () then
      { rcs' with
        highestPreparedRound := Function.update rcs.highestPreparedRound round (some preparedRound)
        highestPreparedBlock := Function.update rcs.highestPreparedBlock round (some preparedBlock)
        prepareMessages := Function.update rcs.prepareMessages round prepareMessages }
    else rcs'

/-- The number of accounts with a message for a round above the given one. -/
def higherRoundMessages (round : ℕ) : ℕ :=
  ((rcs.roundChanges.filter fun r => UInt64.ofNat round < r.1).flatMap fun r =>
    r.2.map fun m => m.source).toFinset.card

def getRCMessagesForGivenRound (round : ℕ) : ℕ :=
  ((rcs.messages? (.ofNat round)).getD []).length

/-- The least round above the given one that has a message set, as an `int`, or the given one. -/
def getMinRoundChange (round : ℕ) : ℤ :=
  ((rcs.roundChanges.filter fun r => UInt64.ofNat round < r.1).map fun r =>
    Vm.int64 r.1.toNat).min?.getD round

/-- Drops the rounds below the given one, and those without messages, with what was prepared in them. -/
def clearLowerThan : RoundChangeSet P :=
  let gone := fun k => rcs.roundChanges.any fun r => r.1 = k ∧ (r.2 = [] ∨ k < round)
  { validatorSet := rcs.validatorSet
    roundChanges := rcs.roundChanges.filter fun r => ¬ (r.2 = [] ∨ r.1 < round)
    prepareMessages := fun k => if gone k then [] else rcs.prepareMessages k
    highestPreparedRound := fun k => if gone k then none else rcs.highestPreparedRound k
    highestPreparedBlock := fun k => if gone k then none else rcs.highestPreparedBlock k }

end RoundChangeSet

/-! ## The core -/

/-- `roundState`. -/
structure RoundState (P : Type) where
  round : ℕ
  sequence : ℕ
  preprepare : Option (Preprepare P)
  prepares : List Prepare
  commits : List Commit
  pendingRequest : Option P
  preparedRound : Option ℕ
  preparedBlock : Option P
  preprepareSent : ℕ

/-- `core`. `proposer` is the proposer of the validator set. -/
structure Core (P : Type) where
  address : Address
  state : State
  valSet : List Address
  proposer : Option Address
  current : RoundState P
  roundChangeSet : RoundChangeSet P
  qbftPreparedPrepares : List Prepare
  backlog : List (Message P)

/-- What a handler does: the core it leaves, the messages it broadcasts, the proposal it hands to
`backend.Commit` and the error it returns. -/
structure Out (P : Type) where
  core : Core P
  sent : List (Message P) := []
  committed : Option P := none
  err : Option Err := none

namespace Core

variable (G : Config P) (B : Backend P) (c : Core P)
variable (proposal : P) (m : RoundChange P)

def currentView : View := ⟨c.current.sequence, c.current.round⟩

/-- `QuorumSize`. -/
def quorum : ℤ := quorumSize G.ceil2Nby3Block (some c.current.sequence) c.valSet

/-- `IsProposer`. -/
def isProposer (a : Address) : Bool := Ibft.Node.ValidatorSet.isProposer c.valSet c.proposer a

/-- Whether a message is for now. A ROUND-CHANGE of the sequence is, from the round of the view on;
other messages are of the view itself, and which are expected depends on the state. -/
def checkMessage (code : ℕ) (view : View) : Option Err :=
  if code = roundChangeCode then
    if c.current.sequence < view.sequence then some .futureMessage
    else if view.cmp c.currentView = .lt then some .oldMessage
    else none
  else if view.cmp c.currentView = .gt then some .futureMessage
  else if view.cmp c.currentView = .lt then some .oldMessage
  else
    match c.state with
    | .acceptRequest => if preprepareCode < code then some .futureMessage else none
    | .preprepared =>
      if code < prepareCode then some .invalidMessage
      else if prepareCode < code then some .futureMessage
      else none
    | .prepared => if code < commitCode then some .invalidMessage else none
    | .committed => some .invalidMessage

/-! ### Signatures -/

/-- `CheckValidatorSignature` for the bytes to sign of a message and its signature. -/
def verify (payload : Option (List ℕ)) (signature : List ℕ) : Except Err Address :=
  match payload with
  | none => .error .encode
  | some payload =>
    match G.getSignatureAddress payload signature with
    | some signer =>
      if (getByAddress c.valSet signer).isSome then .ok signer else .error .invalidSigner
    | none => .error .invalidSigner

def verifyPrepare (p : Prepare) : Except Err Prepare := do
  let source ← c.verify G p.encodePayloadForSigning p.signature
  return { p with source }

def verifyRoundChangePayload (p : SignedRoundChangePayload) :
    Except Err SignedRoundChangePayload := do
  let source ← c.verify G p.encodePayloadForSigning p.signature
  return { p with source }

/-- `verifySignatures`: the message with its sources. The PREPARE messages in a PRE-PREPARE are not
looked at. -/
def verifySignatures (m : Message P) : Except Err (Message P) := do
  let source ← c.verify G (m.encodePayloadForSigning G.blocks) m.common.signature
  match m with
  | .preprepare m =>
    let justificationRoundChanges ←
      m.justificationRoundChanges.mapM (c.verifyRoundChangePayload G)
    return .preprepare { m with source, justificationRoundChanges }
  | .prepare m => return .prepare { m with source }
  | .commit m => return .commit { m with source }
  | .roundChange m =>
    let justification ← m.justification.mapM (c.verifyPrepare G)
    return .roundChange { m with source, justification }

/-- A message with the backend's signature, if it and the bytes to sign can be encoded. -/
def signed (message : List ℕ → Message P) : Option (Message P) := do
  let payload ← (message []).encodePayloadForSigning G.blocks
  let m := message (B.sign payload)
  let _ ← m.encode G.blocks
  return m

/-! ### Rounds -/

/-- The round state of a new round keeps the PRE-PREPARE, the prepared block and the request; that of
a new sequence keeps nothing. -/
def updateRoundState (view : View) (roundChange : Bool) : RoundState P where
  round := view.round
  sequence := view.sequence
  preprepare := if roundChange then c.current.preprepare else none
  prepares := []
  commits := []
  pendingRequest := if roundChange then c.current.pendingRequest else none
  preparedRound := if roundChange then c.current.preparedRound else none
  preparedBlock := if roundChange then c.current.preparedBlock else none
  preprepareSent := 0

/-- `startNewRound` after it has chosen the view and the validator set. The round it was called with,
not the view's, says what becomes of the round-change set and the prepared PREPARE messages. -/
def enterRound (view : View) (roundChange : Bool) (round : ℤ) : Core P :=
  let target := UInt64.ofNat round.natAbs
  let rcs :=
    if target = 0 then .newRoundChangeSet c.valSet else c.roundChangeSet.clearLowerThan target
  { c with
    current := c.updateRoundState view roundChange
    proposer := Ibft.Node.ValidatorSet.calcProposer c.valSet G.policy B.lastProposer view.round
    state := .acceptRequest
    qbftPreparedPrepares := if target = 0 then [] else c.qbftPreparedPrepares
    roundChangeSet := rcs.newRound target }

/-- The head is the block before the sequence, as `startNewRound` tests it. -/
def AtHead : Prop :=
  G.number B.lastProposal < c.current.sequence ∧
    (G.number B.lastProposal : ℤ) = Vm.int64 (Vm.int64 c.current.sequence - 1)

instance : Decidable (c.AtHead G B) := inferInstanceAs (Decidable (_ ∧ _))

/-- Starts round zero of the next sequence if the head has come to the core's own, and else the given
round of its sequence, unless the round is behind or the head is not the block before. -/
def startNewRound (round : ℤ) : Core P :=
  let number := G.number B.lastProposal
  if c.current.sequence ≤ number then
    { c with valSet := B.validators B.lastProposal }.enterRound G B ⟨number + 1, 0⟩ false round
  else if (number : ℤ) = Vm.int64 (Vm.int64 c.current.sequence - 1) then
    if round = 0 then c
    else if round < c.current.round then c
    else c.enterRound G B ⟨c.current.sequence, round.toNat⟩ true round
  else c

/-- `NewRoundChange` with the core's prepared block, and the justification for it. -/
def roundChange (round : ℕ) (signature : List ℕ) : RoundChange P where
  source := 0
  sequence := c.current.sequence
  round := round
  signature := signature
  preparedRound := c.current.preparedRound
  preparedDigest := (c.current.preparedBlock.map G.blocks.hash).getD zeroHash
  preparedBlock := c.current.preparedBlock
  justification := c.qbftPreparedPrepares

/-- The broadcast of `broadcastRoundChange`, for a round that may be another than the core's. -/
def broadcastRoundChange (round : ℤ) : List (Message P) :=
  if round < c.current.round then []
  else (signed G B fun signature => .roundChange (c.roundChange G round.toNat signature)).toList

/-! ### Handlers -/

/-- `sendPreprepareMsg`, with the round changes and PREPARE messages of the request. -/
def sendPreprepareMsg (roundChanges : List SignedRoundChangePayload) (prepares : List Prepare) :
    Out P :=
  if c.current.sequence = G.number proposal ∧ c.isProposer c.address then
    let message : List ℕ → Message P := fun signature =>
      .preprepare
        { source := c.address, sequence := c.current.sequence, round := c.current.round, signature,
          proposal, justificationRoundChanges := roundChanges, justificationPrepares := prepares }
    match signed G B message with
    | some m =>
      { core := { c with current := { c.current with preprepareSent := c.current.round } }
        sent := [m] }
    | none => { core := c }
  else { core := c }

/-- The broadcast of `broadcastPrepare` for an accepted proposal. -/
def broadcastPrepare : List (Message P) :=
  let message : List ℕ → Message P := fun signature =>
    .prepare
      { source := c.address, sequence := c.current.sequence, round := c.current.round, signature,
        digest := G.blocks.hash proposal }
  (signed G B message).toList

/-- The PRE-PREPARE passes the check of its justification, which round zero does not need. -/
def justifies (m : Preprepare P) : Bool :=
  m.round % 2 ^ 64 = 0 ∨
    isJustified (G.blocks.hash m.proposal) m.justificationRoundChanges m.justificationPrepares
      (c.quorum G) = .ok ()

/-- A proposal of the round's proposer that is justified and verified is accepted and answered with
PREPARE. -/
def handlePreprepareMsg (m : Preprepare P) : Out P :=
  if !c.isProposer m.source then { core := c, err := some .notFromProposer }
  else if !c.justifies G m then { core := c, err := some .invalidPreparedBlock }
  else
    match B.verify m.proposal with
    | .future =>
      -- the timer for the proposal's time delivers the message again
      { core := { c with backlog := .preprepare m :: c.backlog }, err := some .futureBlock }
    | .invalid => { core := c, err := some .invalidProposal }
    | .ok =>
      if c.state = .acceptRequest then
        { core :=
            { c with current := { c.current with preprepare := some m }, state := .preprepared }
          sent := c.broadcastPrepare G B m.proposal }
      else { core := c }

/-- The broadcast of `broadcastCommit` for a prepared proposal. -/
def broadcastCommit : List (Message P) :=
  let message : List ℕ → Message P := fun signature =>
    .commit
      { source := c.address, sequence := c.current.sequence, round := c.current.round, signature,
        digest := G.blocks.hash proposal,
        commitSeal := B.signWithoutHashing proposal (c.current.round % 2 ^ 32) }
  (signed G B message).toList

/-- The core with a PREPARE in its message set. -/
def savePrepare (m : Prepare) : Core P :=
  { c with
    current :=
      { c.current with prepares := addMessage (fun p : Prepare => p.source) m c.current.prepares } }

/-- The core once its PREPARE messages are a quorum. -/
def prepare : Core P :=
  { c with
    current :=
      { c.current with
        preparedRound := some c.current.round
        preparedBlock := some proposal }
    qbftPreparedPrepares := c.current.prepares
    state := .prepared }

/-- `handlePrepare`; without a PRE-PREPARE there is no proposal to ask for its hash. -/
def handlePrepare (m : Prepare) : Option (Out P) :=
  match c.current.preprepare with
  | none => none
  | some preprepare =>
    if m.digest ≠ G.blocks.hash preprepare.proposal then
      some { core := c, err := some .invalidMessage }
    else
      let c' := c.savePrepare m
      if c.quorum G ≤ c'.current.prepares.length ∧ c.state.toNat < State.prepared.toNat then
        let c' := c'.prepare preprepare.proposal
        some { core := c', sent := c'.broadcastCommit G B preprepare.proposal }
      else some { core := c' }

/-- The core with a COMMIT in its message set. -/
def saveCommit (m : Commit) : Core P :=
  { c with
    current :=
      { c.current with commits := addMessage (fun m : Commit => m.source) m c.current.commits } }

/-- `commitQBFT`: when the block cannot be inserted the core asks for the next round, which it is not
in. -/
def commitQBFT : Out P :=
  let c' := { c with state := .committed }
  { core := c'
    sent := if B.commit proposal then [] else c'.broadcastRoundChange G B (c.current.round + 1)
    committed := some proposal }

/-- Counts a COMMIT message for the proposal; a quorum commits it. Without a proposal the digest of nil
is read. -/
def handleCommitMsg (m : Commit) : Option (Out P) :=
  match c.current.preprepare with
  | none => none
  | some preprepare =>
    if m.digest ≠ G.blocks.hash preprepare.proposal then
      some { core := c, err := some .invalidMessage }
    else
      let c' := c.saveCommit m
      if c.quorum G ≤ c'.current.commits.length then
        some (c'.commitQBFT G B preprepare.proposal)
      else some { core := c' }

/-- The prepared round, block and PREPARE messages that `handleRoundChange` hands to `Add`: all of
them or none. -/
def carried : Option ℕ × Option P × List Prepare :=
  if m.preparedRound ≠ none ∧ m.preparedBlock.isSome ∧ m.justification ≠ [] then
    (m.preparedRound, m.preparedBlock, m.justification)
  else (none, none, [])

/-- The core with a ROUND-CHANGE message in its set. -/
def addRoundChange : Core P :=
  if c.current.round ≤ m.round then
    { c with
      roundChangeSet :=
        c.roundChangeSet.add m.round m (carried m).1 (carried m).2.1 (carried m).2.2 (c.quorum G) }
  else c

/-- The proposal of a proposer with a quorum of ROUND-CHANGE messages: the highest prepared block, if
the map has one, or else the pending request. Either may be nil. -/
def roundProposal : Option P :=
  match c.roundChangeSet.highestPreparedBlock (.ofNat c.current.round) with
  | some block => block
  | none => c.current.pendingRequest

/-- `handleRoundChange` for a proposer with a quorum of ROUND-CHANGE messages. The source takes the
proposal and the messages from nil pointers without looking. -/
def proposeRound : Option (Out P) :=
  match c.roundProposal, c.roundChangeSet.messages? (.ofNat c.current.round) with
  | some proposal, some messages =>
    let roundChanges := messages.map fun m => m.toSignedRoundChangePayload
    let prepares := c.roundChangeSet.prepareMessages (.ofNat c.current.round)
    if isJustified (G.blocks.hash proposal) roundChanges prepares (c.quorum G) = .ok () then
      some (c.sendPreprepareMsg G B proposal roundChanges prepares)
    else some { core := c }
  | _, _ => none

/-- As many validators as cannot all be faulty are in a later round. -/
def Joins : Prop :=
  (c.roundChangeSet.higherRoundMessages c.current.round : ℤ) = faulty c.valSet + 1

instance : Decidable c.Joins := inferInstanceAs (Decidable (_ = _))

/-- The core is to propose for its round. -/
def Proposes : Prop :=
  c.quorum G ≤ c.roundChangeSet.getRCMessagesForGivenRound c.current.round ∧
    c.isProposer c.address ∧ c.current.preprepareSent < c.current.round

instance : Decidable (c.Proposes G) := inferInstanceAs (Decidable (_ ∧ _ ∧ _))

/-- `handleRoundChange` once the message is added. -/
def countRoundChange : Option (Out P) :=
  if c.Joins then
    let newRound := c.roundChangeSet.getMinRoundChange c.current.round
    let c' := c.startNewRound G B newRound
    some { core := c', sent := c'.broadcastRoundChange G B newRound }
  else if c.Proposes G then c.proposeRound G B
  else some { core := c }

def handleRoundChange : Option (Out P) :=
  (c.addRoundChange G m).countRoundChange G B

def deliverMessage : Message P → Option (Out P)
  | .preprepare m => some (c.handlePreprepareMsg G B m)
  | .prepare m => c.handlePrepare G B m
  | .commit m => c.handleCommitMsg G B m
  | .roundChange m => c.handleRoundChange G B m

/-- A future message is kept unless it is the core's own. -/
def addToBacklog (m : Message P) : Core P :=
  if m.common.source = c.address then c else { c with backlog := m :: c.backlog }

/-- Handles a message that is for now and keeps one that comes too early. -/
def handleDecodedMessage (m : Message P) : Option (Out P) :=
  match c.checkMessage m.code m.common.view with
  | none => c.deliverMessage G B m
  | some .futureMessage => some { core := c.addToBacklog m, err := some .futureMessage }
  | some err => some { core := c, err := some err }

/-- `handleEncodedMsg` up to the message it hands on. -/
def receive (code : ℕ) (data : List ℕ) : Except Err (Message P) :=
  match decode G.blocks code data with
  | .ok m => c.verifySignatures G m
  | .error .invalidMessage => .error .invalidCode
  | .error err => .error (.decode err)

def handleEncodedMsg (code : ℕ) (data : List ℕ) : Option (Out P) :=
  match c.receive G code data with
  | .ok m => c.handleDecodedMessage G B m
  | .error err => some { core := c, err := some err }

/-- A timeout asks for the next round, and enters it first. -/
def handleTimeoutMsg : Out P :=
  let nextRound : ℤ := c.current.round + 1
  let c' := c.startNewRound G B nextRound
  { core := c', sent := c'.broadcastRoundChange G B nextRound }

/-- `handleRequest`: a request of another number than the sequence is kept for later or dropped. -/
def handleRequest : Out P :=
  if c.current.sequence = G.number proposal then
    let c' := { c with current := { c.current with pendingRequest := some proposal } }
    if c'.state = .acceptRequest then c'.sendPreprepareMsg G B proposal [] [] else { core := c' }
  else { core := c }

def handleFinalCommitted : Out P := { core := c.startNewRound G B 0 }

/-- The message `processBacklog` posts of the backlog, unless its source is no validator any more; a
PRE-PREPARE may also come from the timer for its time. -/
def posted (i : ℕ) : Option (Message P) :=
  match c.backlog[i]? with
  | some (.preprepare m) => some (.preprepare m)
  | some m => if (getByAddress c.valSet m.common.source).isSome then some m else none
  | none => none

end Core

/-! ## Runs -/

/-- What a core's event loop receives. -/
inductive Input (P : Type) where
  | request (proposal : P)
  | message (code : ℕ) (data : List ℕ)
  /-- A message of the backlog. -/
  | backlog (i : ℕ)
  | timeout
  | finalCommitted

/-- An event, with the answers of the backend while it is handled. -/
structure Event (P : Type) where
  input : Input P
  backend : Backend P

/-- The message an event brings, once it is decoded and verified. -/
def Core.brought (G : Config P) (c : Core P) (e : Event P) : Option (Message P) :=
  match e.input with
  | .message code data => (c.receive G code data).toOption
  | .backlog i => c.posted i
  | _ => none

/-- One turn of `handleEvents`. -/
def Core.handle (G : Config P) (e : Event P) (c : Core P) : Option (Out P) :=
  match e.input with
  | .request proposal => some (c.handleRequest G e.backend proposal)
  | .message code data => c.handleEncodedMsg G e.backend code data
  | .backlog i =>
    match c.posted i with
    | some m => c.handleDecodedMessage G e.backend m
    | none => some { core := c }
  | .timeout => some (c.handleTimeoutMsg G e.backend)
  | .finalCommitted => some (c.handleFinalCommitted G e.backend)

/-- The core after an event, none when handling it dereferences nil. -/
def step (G : Config P) (e : Event P) (c : Core P) : Option (Core P) := (c.handle G e).map Out.core

/-- The core after `Start`. -/
def Config.start (G : Config P) (B : Backend P) (address : Address) : Core P where
  address := address
  state := .acceptRequest
  valSet := B.validators B.lastProposal
  proposer :=
    Ibft.Node.ValidatorSet.calcProposer (B.validators B.lastProposal) G.policy B.lastProposer 0
  current :=
    { round := 0
      sequence := G.number B.lastProposal + 1
      preprepare := none
      prepares := []
      commits := []
      pendingRequest := none
      preparedRound := none
      preparedBlock := none
      preprepareSent := 0 }
  roundChangeSet := (RoundChangeSet.newRoundChangeSet (B.validators B.lastProposal)).newRound 0
  qbftPreparedPrepares := []
  backlog := []

end Wormholes.Consensus.Qbft.Node
