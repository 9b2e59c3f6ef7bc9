import Wormholes.Consensus.ExtraData
import Wormholes.Consensus.IbftNode

/-!
# Consensus.Commit — accepted proposals and the blocks assembled from them

`Backend.Verify`, which a core asks before it accepts a proposal, and the way of a committed proposal
out of the core: `core.commit` copies the seals of the COMMIT messages and `Backend.Commit` writes
them into the header. A proposal is its header, with decoded extra data; whether the body's
transactions give the header's transaction hash is an input.
-/

namespace Wormholes.Consensus

open Ibft

deriving instance DecidableEq for Header

/-- The text of `ErrEmptyCommittedSeals`. -/
def emptyCommittedSeals : String := "zero committed seals"

/-- The text of `ErrFutureBlock`. -/
def futureBlock : String := "block in the future"

/-- `Backend.Verify` at clock `now`, with the engine's `VerifyBlockProposal`. `bad` is
`HasBadProposal`, `txs` says that the transactions match the header, `uncleHash` is the hash of the
body's uncles, and `validators` are the accounts selected for the current head. -/
def verifyProposal (K : Hashes) (E : Engine) (now : ℕ) (bad txs : Bool) (uncleHash : List ℕ)
    (validators : List Address) (h : Header) : Verdict :=
  if bad then .invalid
  else if txs = false then .invalid
  else if uncleHash ≠ K.nilUncleHash then .invalid
  else
    match engineVerifyHeader K E now h [] validators with
    | .ok _ => .ok
    | .err msg =>
      -- a proposal has no committed seals yet
      if msg = emptyCommittedSeals then .ok
      else if msg = futureBlock then .future
      else .invalid
    | .panic => .invalid

/-- The copy of a COMMIT message's seal: cut off, or filled up with zeros. -/
def copySeal (committedSeal : List ℕ) : List ℕ :=
  (committedSeal ++ List.replicate istanbulExtraSeal 0).take istanbulExtraSeal

/-- The header with committed seals in its extra data. -/
def Header.withSeals (h : Header) (e : IstanbulExtra) (seals : List (List ℕ)) : Header :=
  { h with extra := .ok { e with committedSeal := seals } }

/-- `writeCommittedSeals`. -/
def Header.writeCommittedSeals (h : Header) (seals : List (List ℕ)) : Res Header :=
  if seals = [] ∨ ∃ sig ∈ seals, sig.length ≠ istanbulExtraSeal then
    .err "invalid committed seals"
  else
    match h.extra with
    | .error msg => .err msg
    | .ok e => .ok (h.withSeals e seals)

/-- The seals `core.commit` collects, in the order in which it meets the messages. -/
def Ibft.Node.Core.collectSeals {P : Type} (c : Node.Core P) (order : List Address) :
    List (List ℕ) :=
  order.map fun a => copySeal (c.committedSeals a)

/-- The block `Backend.Commit` assembles of a proposal. -/
def Ibft.Node.Core.assemble {P : Type} (c : Node.Core P) (h : Header) (order : List Address) :
    Res Header :=
  h.writeCommittedSeals (c.collectSeals order)

end Wormholes.Consensus
