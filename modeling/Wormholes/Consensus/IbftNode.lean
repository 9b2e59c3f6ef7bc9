import Wormholes.Consensus.Ibft

/-!
# Consensus.IbftNode — one IBFT core and whatever its backend answers

`consensus/istanbul/ibft/core`: the handlers and the round changes, and
`consensus/istanbul/validator/default.go`: the proposer of a round. A handler returns the core, the
messages it broadcasts and the proposal it commits.

Every event comes with a `Backend`, the answers its node gives while the core handles the event. So the
head of the chain, the validator set a head implies, the list of bad blocks and the success of a commit
may change in any way from one event to the next. COMMIT messages carry their seals.

A message may be anything anybody signed. The backlog and the queue of pending requests deliver again
what came before, a backlog message without the check of its sender, so they are the event `backlog`
and the event `request`. Left out: gossip; the switch to the `qbft` engine, with which a core stops;
`backend.Sign`, which succeeds.
-/

namespace Wormholes.Consensus.Ibft.Node

variable {P : Type}

/-! ## The backend -/

/-- A core's configuration and what it reads of a proposal. -/
structure Config (P : Type) where
  policy : ProposerPolicyId
  ceil2Nby3Block : Option ℕ
  number : P → ℕ
  hash : P → ℕ
  /-- No block has the empty hash, by which a round state says that it holds no lock. -/
  hash_ne_zero : ∀ p, hash p ≠ 0

/-- What the backend answers while a core handles one event. -/
structure Backend (P : Type) where
  lastProposal : P
  lastProposer : Address
  validators : P → List Address
  parentValidators : P → List Address
  getProposer : ℕ → Address
  hasPropsal : ℕ → ℕ → Bool
  hasBadProposal : ℕ → Bool
  verify : P → Verdict
  /-- Whether `Commit` returns without an error. -/
  commit : P → Bool

/-! ## Validator sets -/

namespace ValidatorSet

variable (valSet : List Address)
variable (proposer : Address)

def getByAddress (a : Address) : Option Address := valSet.find? (· = a)

/-- `IsProposer`, for a validator set whose proposer is the given one. -/
def isProposer (proposer : Option Address) (a : Address) : Bool :=
  proposer = getByAddress valSet a

def calcSeed (round : ℕ) : ℕ :=
  let offset := (valSet.findIdx? (· = proposer)).getD 0
  (offset + round) % 2 ^ 64

def roundRobinProposer (round : ℕ) : Option Address :=
  let seed := if proposer = 0 then round else (calcSeed valSet proposer round + 1) % 2 ^ 64
  valSet[seed % valSet.length]?

def stickyProposer (round : ℕ) : Option Address :=
  let seed := if proposer = 0 then round else calcSeed valSet proposer round
  valSet[seed % valSet.length]?

/-- `CalcProposer` with the low sixty-four bits of a round. -/
def calcProposer (policy : ProposerPolicyId) (lastProposer : Address) (round : ℕ) :
    Option Address :=
  match policy with
  | .roundRobin => roundRobinProposer valSet lastProposer (round % 2 ^ 64)
  | .sticky => stickyProposer valSet lastProposer (round % 2 ^ 64)

end ValidatorSet

/-! ## Messages -/

/-- A message, the account that signed it and, for COMMIT, its `CommittedSeal`. -/
structure Message (P : Type) where
  address : Address
  payload : Payload P
  committedSeal : List ℕ

/-- A message a core broadcasts. -/
structure Sent (P : Type) where
  payload : Payload P
  /-- The hash that the `CommittedSeal` signs; none when the seal is empty. -/
  sealedHash : Option ℕ
  /-- The hash the core is locked on at that moment. No handler reads it. -/
  lockedHash : ℕ
  /-- The message answers an old PRE-PREPARE. No handler reads it. -/
  oldBlock : Bool
deriving DecidableEq

/-! ## The core -/

/-- `core`. `proposer` is the proposer of the validator set and `committedSeals` holds the seal of
every message of `current.commits`. -/
structure Core (P : Type) where
  address : Address
  state : State
  waitingForRoundChange : Bool
  valSet : List Address
  proposer : Option Address
  current : RoundState P
  committedSeals : Address → List ℕ
  roundChangeSet : RoundChangeSet

/-- What a handler does: the core it leaves, the messages it broadcasts and the proposal it hands to
`backend.Commit`. -/
structure Out (P : Type) where
  core : Core P
  sent : List (Sent P) := []
  committed : Option P := none

namespace Core

variable (G : Config P) (B : Backend P) (c : Core P)
variable (preprepare : Preprepare P) (src : Address)

def currentView : View := c.current.view

/-- `QuorumSize`. -/
def quorum : ℤ := quorumSize G.ceil2Nby3Block (some c.current.sequence) c.valSet

/-- `IsProposer`. -/
def isProposer (a : Address) : Bool := ValidatorSet.isProposer c.valSet c.proposer a

/-- `roundState.Subject`. -/
def subject : Option Subject :=
  c.current.preprepare.map fun p => ⟨c.currentView, G.hash p.proposal⟩

/-- `roundState.LockHash`. -/
def lockHash : RoundState P :=
  match c.current.preprepare with
  | some p => { c.current with lockedHash := G.hash p.proposal }
  | none => c.current

/-- `roundState.IsHashLocked`. -/
def isHashLocked : Bool :=
  c.current.lockedHash ≠ 0 ∧ B.hasBadProposal c.current.lockedHash = false

/-- `broadcast` with `finalizeMessage`: a COMMIT gets a seal of the current proposal, if there is
one, whatever its own digest. -/
def broadcast (payload : Payload P) (oldBlock : Bool) : Sent P where
  payload := payload
  sealedHash :=
    match payload with
    | .commit _ => c.current.proposal.map G.hash
    | _ => none
  lockedHash := c.current.lockedHash
  oldBlock := oldBlock

/-- Whether a message is for now. A ROUND CHANGE of the sequence is, from the round of the view on; a
core that waits for a new round takes nothing else, and one without a proposal only PRE-PREPARE. -/
def checkMessage (code : Code) (view : View) : Checked :=
  if code = .roundChange then
    if c.current.sequence < view.sequence then .future
    else if view.cmp c.currentView = .lt then .old
    else .ok
  else if view.cmp c.currentView = .gt then .future
  else if view.cmp c.currentView = .lt then .old
  else if c.waitingForRoundChange then .future
  else if c.state = .acceptRequest ∧ code ≠ .preprepare then .future
  else .ok

/-- The proposer of the round proposes a block of the core's sequence. -/
def sendPreprepare (p : P) : List (Sent P) :=
  if c.current.sequence = G.number p ∧ c.isProposer c.address then
    [c.broadcast G (.preprepare ⟨c.currentView, p⟩) false]
  else []

/-! ### Rounds -/

/-- A lock, with its proposal, is kept over a round change and dropped for a new sequence. -/
def updateRoundState (view : View) (roundChange : Bool) : RoundState P :=
  if roundChange then
    if c.isHashLocked B then
      .newRoundState view c.current.lockedHash c.current.preprepare c.current.pendingRequest
    else .newRoundState view 0 none c.current.pendingRequest
  else .newRoundState view 0 none none

/-- The proposal a new round's proposer sends: the locked one or else the pending request. -/
def ownProposal : Option P :=
  if c.isHashLocked B then c.current.proposal else c.current.pendingRequest

/-- `startNewRound` after it has chosen the view and the validator set. -/
def enterRound (view : View) (roundChange : Bool) : Out P :=
  let c' : Core P :=
    { c with
      roundChangeSet := []
      current := c.updateRoundState B view roundChange
      committedSeals := fun _ => []
      proposer := ValidatorSet.calcProposer c.valSet G.policy B.lastProposer view.round
      waitingForRoundChange := false
      state := .acceptRequest }
  let sent :=
    if roundChange ∧ c'.isProposer c'.address then
      match c'.ownProposal B with
      | some p => c'.sendPreprepare G p
      | none => []
    else []
  { core := c', sent }

/-- Starts round zero of the next sequence if the head has come to the core's own, and else the given
round of its sequence, unless the round is behind or the head is not the block before. -/
def startNewRound (round : ℕ) : Out P :=
  let number := G.number B.lastProposal
  if c.current.sequence ≤ number then
    { c with valSet := B.validators B.lastProposal }.enterRound G B ⟨number + 1, 0⟩ false
  else if (number : ℤ) = Vm.int64 (Vm.int64 c.current.sequence - 1) then
    if round = 0 then { core := c }
    else if round < c.current.round then { core := c }
    else c.enterRound G B ⟨c.current.sequence, round⟩ true
  else { core := c }

/-- `catchUpRound` leaves the state as it is. -/
def catchUpRound (view : View) : Core P :=
  { c with
    waitingForRoundChange := true
    current := c.updateRoundState B view true
    committedSeals := fun _ => []
    roundChangeSet := c.roundChangeSet.clear view.round }

/-- Asks for a later round, which the core waits for from then on. -/
def sendRoundChange (round : ℕ) : Out P :=
  if round ≤ c.current.round then { core := c }
  else
    let c' := c.catchUpRound B ⟨c.current.sequence, round⟩
    { core := c', sent := [c'.broadcast G (.roundChange ⟨c'.currentView, 0⟩) false] }

def sendNextRoundChange : Out P := c.sendRoundChange G B (c.current.round + 1)

/-! ### Handlers -/

/-- The PRE-PREPARE's sender is the proposer of the proposal's number and the view's round. -/
def oldProposer : Bool :=
  let valSet := B.parentValidators preprepare.proposal
  let number := (G.number preprepare.proposal % 2 ^ 64 + (2 ^ 64 - 1)) % 2 ^ 64
  let proposer :=
    ValidatorSet.calcProposer valSet G.policy (B.getProposer number) preprepare.view.round
  ValidatorSet.isProposer valSet proposer src

/-- `handlePreprepare` for a message older than the core's view. -/
def handleOldPreprepare : Out P :=
  let hash := G.hash preprepare.proposal
  if oldProposer G B preprepare src ∧ B.hasPropsal hash (G.number preprepare.proposal) then
    -- sendCommitForOldBlock
    { core := c, sent := [c.broadcast G (.commit ⟨preprepare.view, hash⟩) true] }
  else { core := c }

def acceptPreprepare (state : State) : Core P :=
  { c with current := { c.current with preprepare := some preprepare }, state := state }

/-- The messages of `sendPrepare` and `sendCommit` carry the subject of the round state. -/
def sendSubject (payload : Subject → Payload P) : List (Sent P) :=
  (c.subject G).toList.map fun sub => c.broadcast G (payload sub) false

/-- `handlePreprepare` once the proposal is verified. -/
def takePreprepare : Out P :=
  if c.state = .acceptRequest then
    if c.isHashLocked B then
      if G.hash preprepare.proposal = c.current.lockedHash then
        let c' := c.acceptPreprepare preprepare .prepared
        { core := c', sent := c'.sendSubject G .commit }
      else c.sendNextRoundChange G B
    else
      let c' := c.acceptPreprepare preprepare .preprepared
      { core := c', sent := c'.sendSubject G .prepare }
  else { core := c }

/-- A proposal that the backend accepts is taken; for one it refuses the core asks for the next round,
and an old one may be answered. -/
def handlePreprepare : Out P :=
  match c.checkMessage .preprepare preprepare.view with
  | .old => c.handleOldPreprepare G B preprepare src
  | .future => { core := c }
  | .ok =>
    if c.isProposer src then
      match B.verify preprepare.proposal with
      | .future => { core := c }
      | .invalid => c.sendNextRoundChange G B
      | .ok => c.takePreprepare G B preprepare
    else { core := c }

/-- The message set refuses the message of an account that is no validator. -/
def acceptPrepare : Core P :=
  if (ValidatorSet.getByAddress c.valSet src).isSome then
    { c with current := { c.current with prepares := insert src c.current.prepares } }
  else c

/-- `handlePrepare` once the message is counted. -/
def countPrepare (prepare : Subject) : Out P :=
  if ((c.isHashLocked B ∧ prepare.digest = c.current.lockedHash) ∨
      c.quorum G ≤ c.current.getPrepareOrCommitSize) ∧
      c.state.toNat < State.prepared.toNat then
    let c' := { c with current := c.lockHash G, state := .prepared }
    { core := c', sent := c'.sendSubject G .commit }
  else { core := c }

def handlePrepare (prepare : Subject) (src : Address) : Out P :=
  match c.checkMessage .prepare prepare.view with
  | .ok =>
    if c.subject G = some prepare then (c.acceptPrepare src).countPrepare G B prepare
    else { core := c }
  | _ => { core := c }

/-- `acceptCommit`: nothing reads the seal before it is stored. -/
def acceptCommit (committedSeal : List ℕ) : Core P :=
  if (ValidatorSet.getByAddress c.valSet src).isSome then
    { c with
      current := { c.current with commits := insert src c.current.commits }
      committedSeals := Function.update c.committedSeals src committedSeal }
  else c

/-- `commit`: a block that cannot be inserted is unlocked and the round given up. -/
def commit : Out P :=
  match c.current.proposal with
  | some p =>
    if B.commit p then { core := c, committed := some p }
    else
      { Core.sendNextRoundChange G B { c with current := { c.current with lockedHash := 0 } } with
        committed := some p }
  | none => { core := c }

/-- `handleCommit` once the message is counted. -/
def countCommit : Out P :=
  if c.quorum G ≤ c.current.commits.card ∧ c.state.toNat < State.committed.toNat then
    Core.commit G B { c with current := c.lockHash G, state := .committed }
  else { core := c }

/-- Counts a COMMIT message for the subject of the round. -/
def handleCommit (commit : Subject) (src : Address) (committedSeal : List ℕ) : Out P :=
  match c.checkMessage .commit commit.view with
  | .ok =>
    if c.subject G = some commit then (c.acceptCommit src committedSeal).countCommit G B
    else { core := c }
  | _ => { core := c }

/-- `handleRoundChange` once the message is counted; `num` is how many there are of its round. -/
def countRoundChange (round num : ℕ) : Out P :=
  if c.waitingForRoundChange ∧ (num : ℤ) = faulty c.valSet + 1 then
    if c.current.round < round then c.sendRoundChange G B round else { core := c }
  else if (num : ℤ) = c.quorum G ∧ (c.waitingForRoundChange ∨ c.current.round < round) then
    c.startNewRound G B round
  else { core := c }

def handleRoundChange (rc : Subject) (src : Address) : Out P :=
  match c.checkMessage .roundChange rc.view with
  | .ok =>
    if (ValidatorSet.getByAddress c.valSet src).isSome then
      let rcs := c.roundChangeSet.add rc.view.round src
      { c with roundChangeSet := rcs }.countRoundChange G B rc.view.round
        (rcs.size (rc.view.round % 2 ^ 64))
    else { core := c }
  | _ => { core := c }

def handleCheckedMsg (m : Message P) : Out P :=
  match m.payload with
  | .preprepare preprepare => c.handlePreprepare G B preprepare m.address
  | .prepare prepare => c.handlePrepare G B prepare m.address
  | .commit commit => c.handleCommit G B commit m.address m.committedSeal
  | .roundChange rc => c.handleRoundChange G B rc m.address

/-- A message is handled by a core that is itself a validator, and only from a validator. -/
def handleMsg (m : Message P) : Out P :=
  if (ValidatorSet.getByAddress c.valSet c.address).isSome ∧
      (ValidatorSet.getByAddress c.valSet m.address).isSome then
    c.handleCheckedMsg G B m
  else { core := c }

/-- `handleTimeoutMsg` when it does not catch up with a round; `last` is the head it reads, which may
have changed when `startNewRound` reads it again. -/
def timeoutRound (last : P) : Out P :=
  if c.current.sequence ≤ G.number last then c.startNewRound G B 0 else c.sendNextRoundChange G B

/-- A timeout catches up with the highest round that `F + 1` validators ask for, or asks for the next
one, unless the sequence is decided. -/
def handleTimeoutMsg (last : P) : Out P :=
  if c.waitingForRoundChange then c.timeoutRound G B last
  else
    match c.roundChangeSet.maxRound (faulty c.valSet + 1) with
    | some maxRound =>
      if (c.current.round : ℤ) < maxRound then c.sendRoundChange G B maxRound.toNat
      else c.timeoutRound G B last
    | none => c.timeoutRound G B last

/-- `handleRequest`: a request of another number than the sequence is kept for later or dropped. -/
def handleRequest (p : P) : Out P :=
  if c.current.sequence = G.number p then
    let c' := { c with current := { c.current with pendingRequest := some p } }
    { core := c', sent := if c'.state = .acceptRequest then c'.sendPreprepare G p else [] }
  else { core := c }

def handleFinalCommitted : Out P := c.startNewRound G B 0

end Core

/-! ## Runs -/

/-- What a core's event loop receives. -/
inductive Input (P : Type) where
  | request (p : P)
  | message (m : Message P)
  /-- A message of the backlog, or a PRE-PREPARE whose time has come. -/
  | backlog (m : Message P)
  | timeout (last : P)
  | finalCommitted

/-- An event, with the answers of the backend while it is handled. -/
structure Event (P : Type) where
  input : Input P
  backend : Backend P

/-- One turn of `handleEvents`. -/
def Core.handle (G : Config P) (c : Core P) (e : Event P) : Out P :=
  match e.input with
  | .request p => c.handleRequest G p
  | .message m => c.handleMsg G e.backend m
  | .backlog m => c.handleCheckedMsg G e.backend m
  | .timeout last => c.handleTimeoutMsg G e.backend last
  | .finalCommitted => c.handleFinalCommitted G e.backend

/-- A core and all it has broadcast, the newest first. -/
structure History (P : Type) where
  core : Core P
  sent : List (Sent P)

/-- The core after `Start`. -/
def Config.start (G : Config P) (B : Backend P) (address : Address) : Core P where
  address := address
  state := .acceptRequest
  waitingForRoundChange := false
  valSet := B.validators B.lastProposal
  proposer :=
    ValidatorSet.calcProposer (B.validators B.lastProposal) G.policy B.lastProposer 0
  current := .newRoundState ⟨G.number B.lastProposal + 1, 0⟩ 0 none none
  committedSeals := fun _ => []
  roundChangeSet := []

/-- A node that has just started. -/
def Config.init (G : Config P) (B : Backend P) (address : Address) : History P :=
  ⟨G.start B address, []⟩

def History.step (G : Config P) (n : History P) (e : Event P) : History P :=
  let out := n.core.handle G e
  ⟨out.core, out.sent ++ n.sent⟩

/-- The history after a run. -/
def History.run (G : Config P) (n : History P) (events : List (Event P)) : History P :=
  events.foldl (History.step G) n

end Wormholes.Consensus.Ibft.Node
