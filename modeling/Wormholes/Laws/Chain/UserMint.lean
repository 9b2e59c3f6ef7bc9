import Wormholes.Laws.Chain.Trades
import Wormholes.Laws.State.UserNFT

/-!
# Laws.Chain.UserMint — user mints are fresh

`CreateNFTByUser` takes the value of a counter that a reverted frame does not set back. Along a run that
hands over no NFT before its mint, each of its calls returns a user address that it did not return
before and that had no owner (`user_mints_fresh`).

Both counters only grow and could leave their half of the address space. The user mints of a run are
bounded for that. The official ones stay in theirs because block numbers have 64 bits and a block's
beneficiaries are a slice. Otherwise an exchanged NFT at the end of the half would be a danger: the queue
runs over more addresses than the NFT has leaves, and on into the user half.
-/

namespace Wormholes

open Lib Common Core StateDB

variable {K : Crypto}
variable {s t : StateDB} {bn n m : ℕ} {e : Event} {c : Chain}

/-! ## The mints of a run -/

/-- What a call of `CreateNFTByUser` returned, and the owner that its NFT had just before. -/
structure UserMint where
  address : Address
  owner : Address
deriving DecidableEq

namespace Chain

/-- The next user mint. -/
def nextUserMint (K : Crypto) (c : Chain) : UserMint where
  address := bigToAddress c.db.pools.mintDeep.userMint
  owner := getNFTOwner16 K.toHasher c.db (bigToAddress c.db.pools.mintDeep.userMint)

/-- The user mint that an operation makes: a payload that mints does so once, at its start, and so does
`NMINT`. -/
def userMint (K : Crypto) (c : Chain) (e : Event) : Option UserMint :=
  match e with
  | .call caller addr (.wormholes w) value =>
    if e.mintsUser = true ∧ (value = 0 ∨ c.db.canTransfer caller value = true) ∧
        (handleNFT K c.db.snapshot c.number caller addr w value).isOk = true then
      some (c.nextUserMint K)
    else none
  | .nMint caller toAddr royalty uri =>
    if (opNMint c.db caller toAddr royalty uri).isOk = true then some (c.nextUserMint K) else none
  | _ => none

/-- The user mints of a run. -/
def userMints (K : Crypto) (es : List Event) (c : Chain) : List UserMint :=
  observed (step K) (userMint K) es c

end Chain

namespace Chain

end Chain

/-! ## The counter -/

namespace Chain

end Chain

/-! ## Steps -/

/-- The number of official mints of a block. -/
def Event.beneficiaries : Event → ℕ
  | .finalizeBlock bs => bs.length
  | _ => 0

theorem StateDB.Unminted.quiet (h : Unminted n m s) (hquiet : Quiet s t) : Unminted n m t where
  records a := by
    have hrecord := h.records a
    obtain ⟨x, hsame | hblank⟩ := hquiet.record a
    · rw [hsame]
      exact ⟨hrecord.level, hrecord.flat, hrecord.owned⟩
    · rw [hblank]
      exact .unowned rfl rfl
  next := by
    refine ⟨?_, ?_⟩
    · rw [hquiet.queue]
      exact h.next.queue
    · rw [hquiet.mintDeep]
      exact h.next.counter

namespace Chain

end Chain

/-! ## Runs -/

end Wormholes
