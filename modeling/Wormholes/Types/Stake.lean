import Wormholes.Types.Nft
import Mathlib.Data.List.Sort

/-!
# Types.Stake — the validator, stake and active-miner lists and the selection among them

`core/types/validator_account.go`, `stake_account.go` and `active_miner_pool.go`. The two stake
lists are kept sorted by address. A selection ranks accounts by their distance to a hash, weighted
with their stake, and takes the first `k`. The ranking iterates a Go map and sorts unstably, so it
is any descending arrangement: a relation, not a function.
-/

namespace Wormholes

open Common

/-- An account with a stake: a `Validator` or a `Staker`. -/
structure Staked where
  addr : Address
  balance : ℤ
deriving DecidableEq

namespace StakedList

variable (l : List Staked) (a : Address)

/-- `sort.Sort` by address; the lists hold an address once, so the order is determined. -/
def sorted : List Staked := l.insertionSort fun a b => a.addr.toNat ≤ b.addr.toNat

/-- Applies `f` to the first entry of an address. -/
def updateFirst (l : List Staked) (a : Address) (f : Staked → Option Staked) : List Staked :=
  match l with
  | [] => []
  | v :: rest =>
    if v.addr = a then
      match f v with
      | some v' => v' :: rest
      | none => rest
    else v :: updateFirst rest a f

def exist : Bool := l.any fun v => v.addr = a

/-- The stake of the first entry of an address, or zero. -/
def stakeBalance : ℤ :=
  match l.find? fun v => v.addr = a with
  | some v => v.balance
  | none => 0

def totalStakeBalance : ℤ := l.foldl (fun total v => total + v.balance) 0

/-- `AddValidator` and `AddStaker`. They keep the caller's `*big.Int` and add into it later; the amounts
here are values, as they are where no two entries were added with the same pointer. -/
def add (amount : ℤ) : List Staked :=
  if exist l a then sorted (updateFirst l a fun v => some { v with balance := v.balance + amount })
  else sorted (l ++ [⟨a, amount⟩])

/-- `RemoveValidator`: an entry that is not larger than the amount goes away. -/
def removeValidator (amount : ℤ) : List Staked :=
  match l.find? fun v => v.addr = a with
  | none => l
  | some v =>
    if v.balance > amount then
      sorted (updateFirst l a fun v => some { v with balance := v.balance - amount })
    else updateFirst l a fun _ => none

/-- `RemoveStaker`, which also sorts after a removal. -/
def removeStaker (amount : ℤ) : List Staked :=
  match l.find? fun v => v.addr = a with
  | none => l
  | some v =>
    if v.balance > amount then
      sorted (updateFirst l a fun v => some { v with balance := v.balance - amount })
    else sorted (updateFirst l a fun _ => none)

/-- The validator list after the pledges and cancellations of a block. -/
def foldValidators (tokens : List PledgedToken) : List Staked :=
  tokens.foldl
    (fun l t => if t.flag then add l t.address t.amount else removeValidator l t.address t.amount) l

/-- The stake list after the exchanger stakes of a block. -/
def foldStakers (tokens : List PledgedToken) : List Staked :=
  tokens.foldl
    (fun l t => if t.flag then add l t.address t.amount else removeStaker l t.address t.amount) l

end StakedList

/-! ## Selection -/

/-- The largest address, as a number. -/
def maxAddress : ℕ := 2 ^ 160 - 1

/-- The circular distance of two addresses. -/
def circularDistance (v x : ℕ) : ℕ :=
  let sub1 := (v - x) + (x - v)
  let sub2 := maxAddress - sub1
  if sub1 < sub2 then sub1 else sub2

/-- The weight a selection ranks an address by. Division by a zero total is Go's panic. -/
def selectionWeight (l : List Staked) (v x : ℕ) : ℤ :=
  circularDistance v x * StakedList.stakeBalance l (bigToAddress v) / StakedList.totalStakeBalance l

/-- `rankByWordCount`: any arrangement by descending weight. -/
def Ranking (pairs ranked : List (ℕ × ℤ)) : Prop :=
  ranked.Perm pairs ∧ ranked.Pairwise fun p q => p.2 ≥ q.2

/-- `ValidatorByDistanceAndWeight`: `out` is a possible choice of `k` of the addresses. -/
def SelectedBy (l : List Staked) (addrs : List ℕ) (k : ℕ) (randomHash : ℕ) (out : List Address) :
    Prop :=
  (addrs ≠ [] → StakedList.totalStakeBalance l ≠ 0) ∧
    ∃ ranked, Ranking (addrs.map fun v => (v, selectionWeight l v (randomHash % 2 ^ 160))) ranked ∧
      out = (ranked.take k).map fun p => bigToAddress p.1

/-! ## Active miners -/

namespace ActiveMinerList

variable (l : List ActiveMiner)

/-- The miners as a stake list. -/
def staked : List Staked := l.map fun m => ⟨m.address, m.balance⟩

def convertToBigInt : List ℕ := l.map fun m => m.address.toNat

/-- `RemoveActiveAddr`. -/
def removeActiveAddr (a : Address) : List ActiveMiner :=
  l.eraseP fun m => m.address = a

/-- Every thirty blocks, the miners not seen for 119 blocks go away. The subtraction of heights
is in `uint64`. -/
def pruneInactive (number : ℕ) : List ActiveMiner :=
  if number % 30 = 9 ∧ number > 30 then
    ((l.filter fun m => (number + 2 ^ 64 - m.height) % 2 ^ 64 > 119).map (·.address)).foldl
      removeActiveAddr l
  else l

/-- `EnsureEffectiveMiners`: miners without a pledge go away, the others take the pledge as their
balance. -/
def ensureEffectiveMiners (vl : List Staked) (l : List ActiveMiner) : List ActiveMiner :=
  let updated := l.map fun m =>
    if StakedList.exist vl m.address then { m with balance := StakedList.stakeBalance vl m.address }
    else m
  ((l.filter fun m => !StakedList.exist vl m.address).map (·.address)).foldl removeActiveAddr updated

end ActiveMinerList

end Wormholes
