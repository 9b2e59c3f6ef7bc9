import Wormholes.Consensus.IbftNetwork
import Wormholes.Consensus.QbftNode

/-!
# Consensus.QbftNetwork — a network of QBFT cores

`World` is every core with its node's chain and everything signed so far. A core's step is that of
`Consensus.QbftNode`, with the answers of its node: the validator set never changes, `backend.Commit`
succeeds, and the verdict of `backend.Verify` comes with the event, whatever it is. The quorum is the
`ceil(2N/3)` one at every sequence.

A signature covers only a part of a message, its `Signed` part: not the justification of a
PRE-PREPARE, and of a ROUND-CHANGE neither the block nor its PREPARE messages. Any bytes reach a core at
any time, provided that the signatures the core verifies are genuine: whom a signature is from has
signed the part. The PREPARE messages in a PRE-PREPARE are not verified. What a Byzantine validator
signs is arbitrary; nobody signs for another.

Left out: the commit seals, which no handler reads, and gossip.
-/

namespace Wormholes.Consensus.Qbft

open Common
open Ibft (View Verdict Blocks Commitment)

variable {P : Type}

/-! ## The nodes -/

/-- What all cores share: the network of `Consensus.IbftNetwork`, the encoding of blocks and the
signatures. The digests there are the numbers that the hashes here spell. -/
structure Network (P : Type) extends Ibft.Network P where
  blocks : BlockCodec P
  hash_eq : ∀ p, hash p = (blocks.hash p).toNat
  getSignatureAddress : List ℕ → List ℕ → Option Address
  sign : Address → List ℕ → List ℕ

namespace Network

variable (N : Network P)

/-- The configuration of every core. -/
def config : Node.Config P where
  policy := N.policy
  ceil2Nby3Block := some 0
  blocks := N.blocks
  number := N.number
  getSignatureAddress := N.getSignatureAddress
  hash_ne_zero p h := N.hash_ne_zero p (by rw [N.hash_eq, h]; rfl)

/-- The answers of a validator's node with the chain. -/
def backend (a : Address) (chain : Blocks N.number) (verdict : Verdict) : Node.Backend P where
  lastProposal := chain.head
  lastProposer := chain.lastProposer
  validators _ := N.validators
  verify _ := verdict
  commit _ := true
  sign := N.sign a
  signWithoutHashing _ _ := []

end Network

/-! ## What is signed -/

/-- What a signature covers. -/
structure Signed (P : Type) where
  view : View
  content : Node.Content P
deriving DecidableEq

namespace Node

/-- `EncodePayloadForSigning` of a message determines this part of it. -/
def Message.signed (m : Message P) : Signed P := ⟨m.common.view, m.content⟩

/-- The signatures `verifySignatures` verifies: the message's own, those of the ROUND-CHANGE payloads
in a PRE-PREPARE and of the PREPARE messages in a ROUND-CHANGE. -/
def Message.signatures (m : Message P) : List (Address × Signed P) :=
  (m.common.source, m.signed) ::
    match m with
    | .preprepare m =>
      m.justificationRoundChanges.map fun p => (p.source, ⟨p.view, .roundChange p.prepared⟩)
    | .roundChange m => m.justification.map fun p => (p.source, ⟨p.view, .prepare p.digest⟩)
    | _ => []

end Node

/-! ## The world -/

/-- The cores and their nodes' chains, everything signed so far, the newest first, and every commitment
of an honest core. The commitments are a history variable: no core reads them. -/
structure World (N : Network P) where
  cores : Address → Node.Core P
  chains : Address → Blocks N.number
  signed : List (Address × Signed P)
  commitments : List (Commitment P)

namespace World

variable {N : Network P} (w : World N) (a : Address)

/-- An input of a core, with the answers of its node. -/
def event (input : Node.Input P) (verdict : Verdict) : Node.Event P :=
  ⟨input, N.backend a (w.chains a) verdict⟩

/-- The world after a core's handler returned. -/
def perform (out : Node.Out P) : World N where
  cores := Function.update w.cores a out.core
  chains := w.chains
  signed := out.sent.map (fun m => (a, m.signed)) ++ w.signed
  commitments :=
    (out.committed.map (Commitment.mk a (w.cores a).current.sequence)).toList ++ w.commitments

/-- Whoever a message has a verified signature of has signed the part. -/
def Genuine (m : Node.Message P) : Prop := ∀ x ∈ m.signatures, x ∈ w.signed

instance [DecidableEq P] (m : Node.Message P) : Decidable (w.Genuine m) :=
  inferInstanceAs (Decidable (∀ x ∈ m.signatures, _))

end World

/-- What can happen in the network, in any order. -/
inductive Event (P : Type) where
  /-- A Byzantine validator signs something. -/
  | forge (b : Address) (s : Signed P)
  /-- An input reaches a core, whose backend finds the verdict if it verifies a proposal. -/
  | turn (a : Address) (input : Node.Input P) (verdict : Verdict)
  /-- A node's chain grows by a block that a core committed. -/
  | insert (a : Address) (p : P)

/-- Every core after `Start`. -/
def init (N : Network P) : World N where
  cores a := N.config.start (N.backend a N.genesis .ok) a
  chains _ := N.genesis
  signed := []
  commitments := []

/-- One event, none when it cannot happen. A core whose handler dereferences nil stays as it is. -/
def step [DecidableEq P] (N : Network P) (byzantine : Finset Address) :
    Event P → World N → Option (World N)
  | .forge b s, w => if b ∈ byzantine then some { w with signed := (b, s) :: w.signed } else none
  | .turn a input verdict, w =>
    let e := w.event a input verdict
    if N.Honest byzantine a ∧ ∀ m ∈ (w.cores a).brought N.config e, w.Genuine m then
      some (((w.cores a).handle N.config e).elim w (w.perform a))
    else none
  | .insert a p, w =>
    if h : N.number p = N.number (w.chains a).head + 1 then
      if N.Honest byzantine a ∧ p ∈ w.commitments.map (·.proposal) then
        some { w with chains := Function.update w.chains a ((w.chains a).push p h) }
      else none
    else none

end Wormholes.Consensus.Qbft
