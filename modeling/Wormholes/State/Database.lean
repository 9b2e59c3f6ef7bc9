import Wormholes.Lib.Run
import Wormholes.State.Object

/-!
# State.Database — the state database, its setters, snapshots and finalisation

The general part of `core/state/statedb.go`. A state holds the accounts, their journal and seven
pools that live beside the account trie. Snapshots are marks in the journal: reverting to one
undoes the journal down to its mark and touches nothing else.

The journal and the stack of valid revisions are kept newest first. Revision ids only grow, so
the code's binary search for an id is the walk from the newest end below. The code removes a
self-destructed account when a transaction is finalised; here it is then absent. A `none` result
of a function that returns a state is a Go panic.
-/

namespace Wormholes

open Lib

/-- What the state keeps beside the accounts, as `insertChain` sets it before it processes a block. On a
state where it does not, `Core.Frame.loaded` is false and the first two and the official pool are not
read. -/
structure Pools where
  mintDeep : MintDeep
  snftExchangePool : List SNFTExchange
  pledgedTokenPool : List PledgedToken
  exchangerTokenPool : List PledgedToken
  activeMinersPool : List ActiveMiner
  officialNFTPool : List InjectedOfficialNFT
  nominatedOfficialNFT : Option NominatedOfficialNFT
deriving DecidableEq

/-- A snapshot: its id and the journal's length when it was taken. -/
structure Revision where
  id : ℕ
  journalIndex : ℕ
deriving DecidableEq

/-- The accounts with the journal of their changes, and the pools, which no journal entry restores. -/
structure StateDB where
  accounts : Accounts
  journal : List JournalEntry
  validRevisions : List Revision
  nextRevisionId : ℕ
  pools : Pools

namespace StateDB

variable (s : StateDB) (a : Address) (amount : ℤ) (o : StateObject)

def getStateObject : Option StateObject := s.accounts a

def exist : Bool := (s.getStateObject a).isSome

/-- Appends a journal entry and stores the account it is about. -/
def change (e : JournalEntry) (a : Address) (o : StateObject) : StateDB :=
  { s with journal := e :: s.journal, accounts := s.accounts.set a (some o) }

/-- Appends a journal entry. -/
def append (e : JournalEntry) : StateDB := { s with journal := e :: s.journal }

/-- Writes a fresh account over whatever the address held. -/
def createObject : StateDB :=
  match s.getStateObject a with
  | none => s.change (.createObjectChange a) a .fresh
  | some prev => s.change (.resetObjectChange a prev) a .fresh

/-- A fresh account that keeps the old one's balance. -/
def createAccount : StateDB :=
  match s.getStateObject a with
  | none => s.createObject a
  | some prev =>
    let s' := s.createObject a
    { s' with accounts := s'.accounts.set a (some { StateObject.fresh with balance := prev.balance }) }

/-- The account at an address, made if absent. -/
def getOrNewStateObject : StateDB × StateObject :=
  match s.getStateObject a with
  | some o => (s, o)
  | none => (s.createObject a, .fresh)

/-! ## Balances -/

def getBalance : ℤ :=
  match s.getStateObject a with
  | some o => o.balance
  | none => 0

def setBalance (amount : ℤ) : StateDB :=
  s.change (.balanceChange a o.balance) a { o with balance := amount }

def addBalance : StateDB :=
  let (s, o) := s.getOrNewStateObject a
  if amount = 0 then if o.empty then s.append (.touchChange a) else s
  else s.setBalance a o (o.balance + amount)

def subBalance : StateDB :=
  let (s, o) := s.getOrNewStateObject a
  if amount = 0 then s else s.setBalance a o (o.balance - amount)

/-- `core.CanTransfer`. -/
def canTransfer (amount : ℕ) : Bool := decide (s.getBalance a ≥ amount)

/-- `core.Transfer`. -/
def transfer (sender recipient : Address) (amount : ℕ) : StateDB :=
  (s.subBalance sender amount).addBalance recipient amount

def getPledgedBalance : ℤ :=
  match s.getStateObject a with
  | some o => o.pledgedBalance.getD 0
  | none => 0

def getExchangerBalance : ℤ :=
  match s.getStateObject a with
  | some o => o.exchangerBalance.getD 0
  | none => 0

/-- The old balance is journaled as zero when it is absent. -/
def setPledgedBalance (amount : ℤ) : StateDB :=
  s.change (.pledgedBalanceChange a (o.pledgedBalance.getD 0)) a { o with pledgedBalance := some amount }

def setExchangerBalance (amount : ℤ) : StateDB :=
  s.change (.exchangerBalanceChange a (o.exchangerBalance.getD 0)) a
    { o with exchangerBalance := some amount }

def setVoteWeight (amount : ℤ) : StateDB :=
  s.change (.voteWeightChange a (o.voteWeight.getD 0)) a { o with voteWeight := some amount }

def addPledgedBalance : StateDB :=
  let (s, o) := s.getOrNewStateObject a
  if amount = 0 then s else s.setPledgedBalance a o (o.pledgedBalance.getD 0 + amount)

/-- Panics on an absent balance. -/
def subPledgedBalance : Option StateDB :=
  let (s, o) := s.getOrNewStateObject a
  if amount = 0 then some s
  else
    match o.pledgedBalance with
    | none => none
    | some p => some (s.setPledgedBalance a o (p - amount))

/-- Adds to the exchanger balance; panics on an absent one. `SubExchangerBalance` is this with
the amount negated. -/
def addExchangerBalance : Option StateDB :=
  let (s, o) := s.getOrNewStateObject a
  if amount = 0 then some s
  else
    match o.exchangerBalance with
    | none => none
    | some p => some (s.setExchangerBalance a o (p + amount))

def subExchangerBalance : Option StateDB :=
  s.addExchangerBalance a (-amount)

/-- Adds to the vote weight; panics on an absent one. -/
def addVoteWeight : Option StateDB :=
  let (s, o) := s.getOrNewStateObject a
  if amount = 0 then some s
  else
    match o.voteWeight with
    | none => none
    | some p => some (s.setVoteWeight a o (p + amount))

def subVoteWeight : Option StateDB :=
  s.addVoteWeight a (-amount)

/-! ## Contract accounts -/

def getNonce : ℕ :=
  match s.getStateObject a with
  | some o => o.nonce
  | none => 0

def getCode : GoString :=
  match s.getStateObject a with
  | some o => o.code
  | none => []

def setNonce (nonce : ℕ) : StateDB :=
  let (s, o) := s.getOrNewStateObject a
  s.change (.nonceChange a o.nonce) a { o with nonce := nonce }

def setCode (code : GoString) : StateDB :=
  let (s, o) := s.getOrNewStateObject a
  s.change (.codeChange a o.code) a { o with code := code }

def setState (key value : ℕ) : StateDB :=
  let (s, o) := s.getOrNewStateObject a
  if o.storage key = value then s
  else
    s.change (.storageChange a key (o.storage key)) a
      { o with storage := fun k => if k = key then value else o.storage k }

/-- Marks an account for removal and takes its balance away. -/
def suicide : StateDB :=
  match s.getStateObject a with
  | none => s
  | some o =>
    s.change (.suicideChange a o.suicided o.balance) a { o with suicided := true, balance := 0 }

/-! ## Snapshots -/

/-- Marks the journal; the snapshot's id is the old `nextRevisionId`. -/
def snapshot : StateDB :=
  { s with
    nextRevisionId := s.nextRevisionId + 1
    validRevisions := ⟨s.nextRevisionId, s.journal.length⟩ :: s.validRevisions }

/-- Undoes the journal down to a snapshot and forgets that snapshot and the later ones. Panics on
an id that is not a valid revision. -/
def revertToSnapshot (revid : ℕ) : Option StateDB :=
  match s.validRevisions.dropWhile fun r => decide (r.id > revid) with
  | [] => none
  | r :: older =>
    if r.id = revid then
      (undoAll JournalEntry.revert (s.journal.take (s.journal.length - r.journalIndex)) s.accounts).map
        fun m =>
        { s with
          accounts := m
          journal := s.journal.drop (s.journal.length - r.journalIndex)
          validRevisions := older }
    else none

/-- `journal.dirties`: the accounts the transaction touched. -/
def dirties : List Address := s.journal.filterMap JournalEntry.dirtied

/-- `Finalise(true)`: drops self-destructed and empty accounts and clears the journal. The code
visits the accounts the journal touched; an account is self-destructed only by such an entry. -/
def finalise : StateDB :=
  { s with
    accounts := fun a =>
      match s.accounts a with
      | some o => if o.suicided || o.empty then none else some o
      | none => none
    journal := []
    validRevisions := [] }

end StateDB

end Wormholes
