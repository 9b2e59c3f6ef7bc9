import Wormholes.Consensus.IbftNode

/-!
# Consensus.IbftNetwork — a network of IBFT cores

`World` is every core with its node's chain and every message signed so far. A core's step is that of
`Consensus.IbftNode`, with the answers of its node: the validator set never changes, no proposal is on
the list of bad blocks, `backend.Commit` succeeds, and the verdict of `backend.Verify` comes with the
delivery, whatever it is. The quorum is the `ceil(2N/3)` one at every sequence.

A message is delivered to a core at any time after it was signed, any number of times or never. The
backlog, the queue of pending requests and the timer of a future proposal only deliver again what was
delivered before, so they are not state of their own. What a Byzantine validator signs is arbitrary;
nobody signs for another.

Left out: the committed seals, which no handler reads; gossip, which delivers again; the choice of
the `qbft` engine.
-/

namespace Wormholes.Consensus.Ibft

variable {P : Type}

/-! ## The nodes -/

/-- The blocks of a node's chain, from its head down. -/
structure Blocks (number : P → ℕ) where
  head : P
  below : List P
  below_lt : ∀ p ∈ below, number p < number head

/-- What all cores share: the validator set, what they read of a proposal, and the chain they start
from. A proposal is a block without its committed seals, which its hash does not cover. -/
structure Network (P : Type) where
  /-- The validators in the order of the set. -/
  validators : List Address
  nodup : validators.Nodup
  policy : ProposerPolicyId
  number : P → ℕ
  hash : P → ℕ
  author : P → Address
  genesis : Blocks number
  /-- The block hash has no collisions. -/
  hash_injective : Function.Injective hash
  /-- No block has the empty hash, by which a round state says that it holds no lock. -/
  hash_ne_zero : ∀ p, hash p ≠ 0

namespace Network

variable (N : Network P)

/-- `QuorumSize` by the `ceil(2N/3)` formula. -/
def quorumSize : ℕ := (2 * N.validators.length + 2) / 3

def isProposer (proposer : Option Address) (a : Address) : Bool :=
  Node.ValidatorSet.isProposer N.validators proposer a

def calcProposer (lastProposer : Address) (round : ℕ) : Option Address :=
  Node.ValidatorSet.calcProposer N.validators N.policy lastProposer round

/-- The configuration of every core. -/
def config : Node.Config P where
  policy := N.policy
  ceil2Nby3Block := some 0
  number := N.number
  hash := N.hash
  hash_ne_zero := N.hash_ne_zero

/-- A validator that follows the protocol. -/
def Honest (byzantine : Finset Address) (a : Address) : Prop := a ∈ N.validators ∧ a ∉ byzantine

instance (byzantine : Finset Address) (a : Address) : Decidable (N.Honest byzantine a) :=
  inferInstanceAs (Decidable (_ ∧ _))

end Network

namespace Blocks

variable {N : Network P} (chain : Blocks N.number)

def toList : List P := chain.head :: chain.below

/-- The proposer `LastProposal` returns with the head. -/
def lastProposer : Address := if 0 < N.number chain.head then N.author chain.head else 0

def getProposer (number : ℕ) : Address :=
  match chain.toList.find? (fun p => N.number p = number) with
  | some p => N.author p
  | none => 0

def hasPropsal (hash number : ℕ) : Bool :=
  chain.toList.any fun p => N.hash p = hash ∧ N.number p % 2 ^ 64 = number % 2 ^ 64

/-- The chain with a block on its head. -/
def push (p : P) (h : N.number p = N.number chain.head + 1) : Blocks N.number where
  head := p
  below := chain.toList
  below_lt := by
    intro q hq
    rcases List.mem_cons.mp hq with rfl | hq
    · omega
    · have hlt := chain.below_lt q hq
      omega

/-- The answers of a node with the chain. -/
def backend (verdict : Verdict) : Node.Backend P where
  lastProposal := chain.head
  lastProposer := chain.lastProposer
  validators _ := N.validators
  parentValidators _ := N.validators
  getProposer := chain.getProposer
  hasPropsal := chain.hasPropsal
  hasBadProposal _ := false
  verify _ := verdict
  commit _ := true

end Blocks

/-! ## The world -/

/-- A message and the account that signed it. -/
structure Message (P : Type) where
  address : Address
  payload : Payload P
deriving DecidableEq

/-- A core handed a proposal to `backend.Commit` while it was at a sequence. -/
structure Commitment (P : Type) where
  core : Address
  sequence : ℕ
  proposal : P
deriving DecidableEq

/-- The cores and their nodes' chains, every message signed so far and every commitment of an honest
core. The commitments are a history variable: no core reads them. -/
structure World (N : Network P) where
  cores : Address → Node.Core P
  chains : Address → Blocks N.number
  sent : List (Message P)
  commitments : List (Commitment P)

namespace World

variable {N : Network P} (w : World N) (a : Address)

/-- The world after a core's handler returned. -/
def perform (out : Node.Out P) : World N where
  cores := Function.update w.cores a out.core
  chains := w.chains
  sent := out.sent.map (fun m => ⟨a, m.payload⟩) ++ w.sent
  commitments :=
    (out.committed.map (Commitment.mk a (w.cores a).current.sequence)).toList ++ w.commitments

/-- What a core does with an input and the answers of its node. -/
def out (input : Node.Input P) (verdict : Verdict) : Node.Out P :=
  (w.cores a).handle N.config ⟨input, (w.chains a).backend verdict⟩

end World

/-- What can happen in the network, in any order. -/
inductive Event (P : Type) where
  /-- A Byzantine validator signs a message. -/
  | forge (m : Message P)
  /-- A message reaches a core, whose backend finds the verdict if it verifies a proposal. -/
  | deliver (a : Address) (m : Message P) (verdict : Verdict)
  /-- A node's miner asks for a proposal to be agreed on. -/
  | request (a : Address) (p : P)
  | timeout (a : Address)
  | finalCommitted (a : Address)
  /-- A node's chain grows by a block that a core committed. -/
  | insert (a : Address) (p : P)

namespace Network

variable (N : Network P)

/-- Every core after `Start`. -/
def init : World N where
  cores := N.config.start (N.genesis.backend .ok)
  chains _ := N.genesis
  sent := []
  commitments := []

/-- One event, none when it cannot happen. -/
def step [DecidableEq P] (byzantine : Finset Address) : Event P → World N → Option (World N)
  | .forge m, w => if m.address ∈ byzantine then some { w with sent := m :: w.sent } else none
  | .deliver a m verdict, w =>
    if N.Honest byzantine a ∧ m ∈ w.sent then
      some (w.perform a (w.out a (.message ⟨m.address, m.payload, []⟩) verdict))
    else none
  | .request a p, w =>
    if N.Honest byzantine a then some (w.perform a (w.out a (.request p) .ok)) else none
  | .timeout a, w =>
    if N.Honest byzantine a then
      some (w.perform a (w.out a (.timeout (w.chains a).head) .ok))
    else none
  | .finalCommitted a, w =>
    if N.Honest byzantine a then some (w.perform a (w.out a .finalCommitted .ok)) else none
  | .insert a p, w =>
    if h : N.number p = N.number (w.chains a).head + 1 then
      if N.Honest byzantine a ∧ p ∈ w.commitments.map (·.proposal) then
        some { w with chains := Function.update w.chains a ((w.chains a).push p h) }
      else none
    else none

end Network

end Wormholes.Consensus.Ibft
