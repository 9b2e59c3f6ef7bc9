import Wormholes.State.Account

/-!
# State.Operation — the operations of the state database as data

A caller of the state database uses it through its exported methods. `Operation` lists those that
write, `apply` runs one, and `LeavesPools` says when one writes no pool. The lookups
(`GetBalance`, `GetNFTOwner16` and so on) change nothing and are left out.
-/

namespace Wormholes

open StateDB

/-- The exported writers of the database, with snapshots and reverts. -/
inductive Operation where
  | createAccount (addr : Address)
  | addBalance (addr : Address) (amount : ℤ)
  | subBalance (addr : Address) (amount : ℤ)
  | addVoteWeight (addr : Address) (amount : ℤ)
  | subVoteWeight (addr : Address) (amount : ℤ)
  | setNonce (addr : Address) (nonce : ℕ)
  | setCode (addr : Address) (code : GoString)
  | setState (addr : Address) (key value : ℕ)
  | suicide (addr : Address)
  | changeApproveAddress (addr approveAddr : Address)
  | cancelApproveAddress (addr approveAddr : Address)
  | changeNFTApproveAddress (nftAddr approveAddr : Address)
  | cancelNFTApproveAddress (nftAddr approveAddr : Address)
  | splitNFT16 (nftAddr : Address) (level : ℕ)
  | mergeNFT16 (nftAddr : Address)
  | changeNFTOwner (nftAddr newOwner : Address) (level : ℕ)
  | exchangeNFTToCurrency (addr nftAddr : Address) (blocknumber level : ℕ)
  | createNFTByUser (exchanger owner : Address) (royalty : ℕ) (metaurl : GoString)
  | createNFTByOfficial16 (owners : List Address) (blocknumber : ℕ)
  | injectOfficialNFT (batch : InjectedOfficialNFT)
  | electNominatedOfficialNFT
  | voteOfficialNFT (nominated : NominatedOfficialNFT)
  | pledgeToken (addr : Address) (amount : ℤ)
  | cancelPledgedToken (addr : Address) (amount : ℤ)
  | openExchanger (addr : Address) (amount : ℤ) (blocknumber feerate : ℕ) (name url : GoString)
  | closeExchanger (addr : Address) (blocknumber : ℕ)
  | addExchangerToken (addr : Address) (amount : ℤ)
  | subExchangerToken (addr : Address) (amount : ℤ)
  | addOrUpdateActiveMiner (addr : Address) (balance : ℤ) (height : ℕ)
  | snapshot
  | revertToSnapshot (revid : ℕ)
  | finalise

namespace Operation

variable (H : Hasher)

/-- Runs an operation; `none` is a panic. -/
def apply (op : Operation) (s : StateDB) : Option StateDB :=
  match op with
  | createAccount a => some (s.createAccount a)
  | addBalance a x => some (s.addBalance a x)
  | subBalance a x => some (s.subBalance a x)
  | addVoteWeight a x => s.addVoteWeight a x
  | subVoteWeight a x => s.subVoteWeight a x
  | setNonce a n => some (s.setNonce a n)
  | setCode a c => some (s.setCode a c)
  | setState a key value => some (s.setState a key value)
  | suicide a => some (s.suicide a)
  | changeApproveAddress a b => some (s.changeApproveAddress a b)
  | cancelApproveAddress a b => some (s.cancelApproveAddress a b)
  | changeNFTApproveAddress a b => some (s.changeNFTApproveAddress a b)
  | cancelNFTApproveAddress a b => some (s.cancelNFTApproveAddress a b)
  | splitNFT16 a level => s.splitNFT16 H a level
  | mergeNFT16 a => s.mergeNFT16 H a
  | changeNFTOwner a b level => s.changeNFTOwner H a b level
  | exchangeNFTToCurrency a b bn level => s.exchangeNFTToCurrency H a b bn level
  | createNFTByUser a b royalty url => some (s.createNFTByUser a b royalty url).1
  | createNFTByOfficial16 owners bn => s.createNFTByOfficial16 H owners bn
  | injectOfficialNFT e => some (s.injectOfficialNFT e)
  | electNominatedOfficialNFT => s.electNominatedOfficialNFT
  | voteOfficialNFT n => some (s.voteOfficialNFT n)
  | pledgeToken a x => some (s.pledgeToken a x)
  | cancelPledgedToken a x => s.cancelPledgedToken a x
  | openExchanger a x bn fee name url => some (s.openExchanger a x bn fee name url)
  | closeExchanger a bn => s.closeExchanger a bn
  | addExchangerToken a x => s.addExchangerToken a x
  | subExchangerToken a x => s.subExchangerToken a x
  | addOrUpdateActiveMiner a x height => some (s.addOrUpdateActiveMiner a x height)
  | snapshot => some s.snapshot
  | revertToSnapshot id => s.revertToSnapshot id
  | finalise => some s.finalise

/-- The block an account's exchanger was opened at, if it has one. -/
def openedAt (s : StateDB) (a : Address) : Option ℕ := (s.getStateObject a).bind (·.blockNumber)

/-- When an operation writes no pool of the state it meets. Mints, exchanges, pledges and stakes
always write one. An official mint without owners only looks whether supply runs low, and one
whose next address has no batch stops at once; closing an exchanger opened in this block does
nothing; a vote that is too light is ignored; a miner seen again at the same height is as before. -/
def LeavesPools (op : Operation) (s : StateDB) : Prop :=
  match op with
  | exchangeNFTToCurrency .. | createNFTByUser .. | injectOfficialNFT _ | electNominatedOfficialNFT
  | pledgeToken .. | cancelPledgedToken .. | openExchanger .. | addExchangerToken ..
  | subExchangerToken .. => False
  | createNFTByOfficial16 owners bn =>
    match owners with
    | [] =>
      InjectedOfficialNFTList.remainderNum s.pools.officialNFTPool s.pools.mintDeep.officialMint > 110
    | _ :: _ => nextOfficial H s bn = none
  | voteOfficialNFT n =>
    s.voteWeightOf n.address ≤ s.nominatedWeight ∨ s.pools.nominatedOfficialNFT = some n
  | closeExchanger a bn => ∀ opened, openedAt s a = some opened → bn ≤ opened
  | addOrUpdateActiveMiner a _ height =>
    ∃ m, s.pools.activeMinersPool.find? (·.address = a) = some m ∧ m.height = height
  | _ => True

end Operation

/-- An operation on accounts: one of the database, or one of an account that the database's are
made of. -/
inductive AccountOperation where
  | database (op : Operation)
  | setBalance (addr : Address) (amount : ℤ)
  | setNFTInfo (addr : Address) (info : AccountNFT)
  | cleanNFT (addr : Address)
  | setOwner (nftAddr newOwner : Address)
  | addPledgedBalance (addr : Address) (amount : ℤ)
  | subPledgedBalance (addr : Address) (amount : ℤ)
  | addExchangerBalance (addr : Address) (amount : ℤ)
  | subExchangerBalance (addr : Address) (amount : ℤ)

namespace AccountOperation

/-- Runs an operation; one of an account makes the account if it is absent. -/
def apply (H : Hasher) (op : AccountOperation) (s : StateDB) : Option StateDB :=
  match op with
  | database op => op.apply H s
  | setBalance a x =>
    some ((s.getOrNewStateObject a).1.setBalance a (s.getOrNewStateObject a).2 x)
  | setNFTInfo a info => some (s.putNFTInfo a info)
  | cleanNFT a => some ((s.getOrNewStateObject a).1.cleanNFT a (s.getOrNewStateObject a).2)
  | setOwner a b =>
    some ((s.getOrNewStateObject a).1.changeObjectOwner a (s.getOrNewStateObject a).2 b)
  | addPledgedBalance a x => some (s.addPledgedBalance a x)
  | subPledgedBalance a x => s.subPledgedBalance a x
  | addExchangerBalance a x => s.addExchangerBalance a x
  | subExchangerBalance a x => s.subExchangerBalance a x

/-- The operations between a snapshot and the revert to it: the transaction is not finalised, and
reverts go to later snapshots. -/
def Between (id : ℕ) : AccountOperation → Prop
  | database .finalise => False
  | database (.revertToSnapshot inner) => id < inner
  | _ => True

end AccountOperation

end Wormholes
