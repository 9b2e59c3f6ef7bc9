import Wormholes.Common.Encoding
import Wormholes.Consensus.Ibft
import Wormholes.Core.Result
import Mathlib.Data.List.Sort

/-!
# Consensus.Voting — votes on the validator set

`snapshot.go` and `snapApply` of `backend/engine.go`: each header carries its author's vote on one
account. A snapshot lists the votes since the last checkpoint with their tally, and an account for whose
admission or removal more than half of the validators vote is admitted or removed. The validator set is
that of `validator/default.go`.
-/

namespace Wormholes.Consensus.Voting

open Common
open Ibft (ProposerPolicyId)

/-! ## The validator set -/

/-- `By` says which of two validators is the smaller one. -/
structure ProposerPolicy where
  id : ProposerPolicyId
  less : Address → Address → Bool

/-- `SortValidators`. The orders in use tell all addresses apart, so every way of sorting agrees. -/
def ProposerPolicy.sort (policy : ProposerPolicy) (addrs : List Address) : List Address :=
  addrs.insertionSort fun a b => policy.less b a = false

structure ValidatorSet where
  validators : List Address
  policy : ProposerPolicy
  proposer : Option Address

namespace ValidatorSet

variable (valSet : ValidatorSet) (address : Address)

def newSet (addrs : List Address) (policy : ProposerPolicy) : ValidatorSet :=
  ⟨policy.sort addrs, policy, (policy.sort addrs).head?⟩

def addValidator : ValidatorSet :=
  if valSet.validators.contains address then valSet
  else { valSet with validators := valSet.policy.sort (valSet.validators ++ [address]) }

def removeValidator : ValidatorSet := { valSet with validators := valSet.validators.erase address }

def copy : ValidatorSet := newSet valSet.validators valSet.policy

end ValidatorSet

/-! ## Snapshots -/

structure Vote where
  validator : Address
  block : ℕ
  address : Address
  authorize : Bool
deriving DecidableEq

/-- How many votes there are on an account, and what they ask for. -/
structure Tally where
  authorize : Bool
  votes : ℕ
deriving DecidableEq

/-- An existing or a new tally with one vote more. -/
def Tally.plusOne (authorize : Bool) : Option Tally → Tally
  | some old => { old with votes := old.votes + 1 }
  | none => ⟨authorize, 1⟩

/-- The votes and the validators at a block. -/
structure Snapshot where
  epoch : ℕ
  number : ℕ
  hash : Hash
  votes : List Vote
  tally : Address → Option Tally
  valSet : ValidatorSet

def newSnapshot (epoch number : ℕ) (hash : Hash) (valSet : ValidatorSet) : Snapshot :=
  ⟨epoch, number, hash, [], fun _ => none, valSet⟩

namespace Snapshot

variable (s : Snapshot) (address : Address) (authorize : Bool)

def copy : Snapshot := { s with valSet := s.valSet.copy }

/-- A vote has a point if it lets in an account that is no validator or removes one that is. -/
def checkVote : Bool :=
  (s.valSet.validators.contains address && !authorize) ||
    (!s.valSet.validators.contains address && authorize)

/-- Counts a vote, if it is one for a change. -/
def cast : Option Snapshot :=
  if s.checkVote address authorize then
    some { s with
      tally := Function.update s.tally address (some (.plusOne authorize (s.tally address))) }
  else none

/-- Takes a vote back that was counted. -/
def uncast : Snapshot :=
  { s with tally :=
      match s.tally address with
      | none => s.tally
      | some tally =>
        if tally.authorize ≠ authorize then s.tally
        else if tally.votes > 1 then
          Function.update s.tally address (some { tally with votes := tally.votes - 1 })
        else Function.update s.tally address none }

/-! ## Applying a header -/

/-- Discards the validator's previous vote on the candidate. -/
def discardPrevious (validator candidate : Address) : Snapshot :=
  match s.votes.find? fun v => v.validator = validator ∧ v.address = candidate with
  | some vote => { s.uncast vote.address vote.authorize with votes := s.votes.erase vote }
  | none => s

/-- Casts the validator's vote and lists it. -/
def castVote (vote : Vote) : Snapshot :=
  match s.cast vote.address vote.authorize with
  | some t => { t with votes := t.votes ++ [vote] }
  | none => s

/-- Discards the votes a removed validator cast. -/
def discardVotesBy (validator : Address) : Snapshot :=
  { s with
    votes := s.votes.filter (·.validator ≠ validator)
    tally := ((s.votes.filter (·.validator = validator)).foldl (fun s v =>
      s.uncast v.address v.authorize) s).tally }

/-- Admits or removes the candidate if the vote passed. -/
def settle (candidate : Address) : Snapshot :=
  match s.tally candidate with
  | none => s
  | some tally =>
    if tally.votes > s.valSet.validators.length / 2 then
      let s := if tally.authorize then { s with valSet := s.valSet.addValidator candidate }
        else { s with valSet := s.valSet.removeValidator candidate }.discardVotesBy candidate
      { s with
        votes := s.votes.filter (·.address ≠ candidate)
        tally := Function.update s.tally candidate none }
    else s

end Snapshot

/-- What the engines read from a header. -/
structure Engine (Header : Type) where
  number : Header → ℕ
  hash : Header → Hash
  author : Header → Res Address
  readVote : Header → Res (Address × Bool)

namespace Engine

variable {Header : Type} (E : Engine Header)

/-- Applies the vote of one header: it replaces the signer's last vote on the account, and more than half
of the validators settle it. -/
def snapApplyHeader (snap : Snapshot) (header : Header) : Res Snapshot :=
  if snap.epoch = 0 then .panic
  else do
    let snap := if E.number header % snap.epoch = 0 then { snap with votes := [], tally := fun _ => none }
      else snap
    let validator ← E.author header
    Res.require (snap.valSet.validators.contains validator = true) "unauthorized"
    let (candidate, authorize) ← E.readVote header
    .ok (((snap.discardPrevious validator candidate).castVote
      ⟨validator, E.number header, candidate, authorize⟩).settle candidate)

/-- Whether the numbers of the headers are consecutive. -/
def consecutive : List Header → Bool
  | header :: next :: headers =>
    E.number next = (E.number header + 1) % 2 ^ 64 && consecutive (next :: headers)
  | _ => true

def snapApply (snap : Snapshot) : List Header → Res Snapshot
  | [] => .ok snap
  | first :: headers => do
    Res.require (E.consecutive (first :: headers) = true) "invalid voting chain"
    Res.require (E.number first = (snap.number + 1) % 2 ^ 64) "invalid voting chain"
    let snapCpy ← (first :: headers).foldlM E.snapApplyHeader snap.copy
    .ok { snapCpy with
      number := (snapCpy.number + (headers.length + 1)) % 2 ^ 64
      hash := E.hash ((first :: headers).getLast (by simp)) }

end Engine

end Wormholes.Consensus.Voting
