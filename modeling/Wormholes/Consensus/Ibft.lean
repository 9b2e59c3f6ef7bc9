import Mathlib.Data.Finset.Card
import Wormholes.Consensus.Istanbul
import Wormholes.Vm.Memory

/-!
# Consensus.Ibft — what IBFT cores say and remember

`consensus/istanbul/ibft`: views, messages and their codes, a core's round state and its round-change
set. `Consensus.IbftNode` has the handlers and `Consensus.IbftNetwork` a network of cores.
-/

namespace Wormholes.Consensus.Ibft

/-! ## Messages -/

/-- `istanbul.View`. -/
structure View where
  sequence : ℕ
  round : ℕ
deriving DecidableEq

def View.cmp (v w : View) : Ordering :=
  (compare v.sequence w.sequence).then (compare v.round w.round)

/-- `istanbul.Subject`. A digest is the number its bytes spell. -/
structure Subject where
  view : View
  digest : ℕ
deriving DecidableEq

variable {P : Type}

/-- `istanbul.Preprepare`. -/
structure Preprepare (P : Type) where
  view : View
  proposal : P
deriving DecidableEq

/-- A message's code and content. -/
inductive Payload (P : Type) where
  | preprepare (preprepare : Preprepare P)
  | prepare (prepare : Subject)
  | commit (commit : Subject)
  | roundChange (rc : Subject)
deriving DecidableEq

/-- The message codes, in their order. -/
inductive Code where
  | preprepare
  | prepare
  | commit
  | roundChange
deriving DecidableEq

/-- `ibfttypes.State`. -/
inductive State where
  | acceptRequest
  | preprepared
  | prepared
  | committed
deriving DecidableEq

/-- The number of a state, by which `State.Cmp` compares. -/
def State.toNat : State → ℕ
  | acceptRequest => 0
  | preprepared => 1
  | prepared => 2
  | committed => 3

/-- `istanbul.ProposerPolicyId`. -/
inductive ProposerPolicyId where
  | roundRobin
  | sticky
deriving DecidableEq

/-! ## Round states -/

/-- `roundState`. A message set holds one message of each sender, all of one subject, so it is the
set of its senders. -/
structure RoundState (P : Type) where
  round : ℕ
  sequence : ℕ
  preprepare : Option (Preprepare P)
  prepares : Finset Address
  commits : Finset Address
  lockedHash : ℕ
  pendingRequest : Option P

namespace RoundState

def newRoundState (view : View) (lockedHash : ℕ) (preprepare : Option (Preprepare P))
    (pendingRequest : Option P) : RoundState P where
  round := view.round
  sequence := view.sequence
  preprepare := preprepare
  prepares := ∅
  commits := ∅
  lockedHash := lockedHash
  pendingRequest := pendingRequest

variable (s : RoundState P)

def view : View := ⟨s.sequence, s.round⟩

def getPrepareOrCommitSize : ℕ :=
  s.prepares.card + s.commits.card - (s.prepares.filter (· ∈ s.commits)).card

def proposal : Option P := s.preprepare.map (·.proposal)

end RoundState

/-- `roundChangeSet`: the senders of ROUND CHANGE messages, each with the low sixty-four bits of the
round. -/
abbrev RoundChangeSet := List (ℕ × Address)

namespace RoundChangeSet

variable (rcs : RoundChangeSet)

/-- The number of messages of one round. -/
def size (round : ℕ) : ℕ := (rcs.filter (·.1 = round)).length

def add (round : ℕ) (a : Address) : RoundChangeSet :=
  List.insert (round % 2 ^ 64, a) rcs

def clear (round : ℕ) : RoundChangeSet :=
  rcs.filter fun r => ¬ r.1 < round % 2 ^ 64

/-- One step of the loop of `MaxRound`. -/
def maxRoundStep (num : ℤ) (maxRound : Option ℤ) (k : ℕ) : Option ℤ :=
  if (rcs.size k : ℤ) < num then maxRound
  else
    match maxRound with
    | none => some (Vm.int64 k)
    | some r => if r < Vm.int64 k then some (Vm.int64 k) else some r

def maxRound (num : ℤ) : Option ℤ :=
  (rcs.map (·.1)).foldl (rcs.maxRoundStep num) none

end RoundChangeSet

/-- The result of `checkMessage`. -/
inductive Checked where
  | ok
  | future
  | old
deriving DecidableEq

/-- The result of `backend.Verify`. -/
inductive Verdict where
  | ok
  | future
  | invalid
deriving DecidableEq

end Wormholes.Consensus.Ibft
