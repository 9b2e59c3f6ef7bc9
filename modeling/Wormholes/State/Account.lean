import Wormholes.State.Nft

/-!
# State.Account — approvals, pledges, exchangers, votes and active miners

The rest of `core/state/statedb.go` that transactions reach. A pledge moves an amount between two
fields of the account and appends an entry to a per-block list; the block that is written later
folds that list into the validator pool (or, for exchangers, the stake pool).
-/

namespace Wormholes

namespace StateDB

variable (H : Hasher)
variable (s : StateDB) (a nftAddr addr address approveAddr : Address) (amount : ℤ)

/-! ## Approvals -/

/-- Approves an address for all NFTs of an account. -/
def changeApproveAddress : StateDB :=
  let (s, o) := s.getOrNewStateObject addr
  if o.isApproveAddress approveAddr then s
  else
    s.change (.nftApproveAddressChange addr o.approveAddressList) addr
      { o with approveAddressList := o.approveAddressList ++ [approveAddr] }

def cancelApproveAddress : StateDB :=
  let (s, o) := s.getOrNewStateObject addr
  if o.isApproveAddress approveAddr then
    s.change (.nftApproveAddressChange addr o.approveAddressList) addr
      { o with approveAddressList := o.approveAddressList.erase approveAddr }
  else s

/-- Sets the approved address of an NFT. -/
def setNFTApproveAddress (o : StateObject) (approved : Address) : StateDB :=
  s.change (.nftApproveAddressChangeOne a o.nft.nftApproveAddressList) a
    { o with nft := { o.nft with nftApproveAddressList := approved } }

/-- Approves an address for the NFT recorded at an address. -/
def changeNFTApproveAddress : StateDB :=
  let (s, o) := s.getOrNewStateObject nftAddr
  if o.isNFTApproveAddress approveAddr then s else s.setNFTApproveAddress nftAddr o approveAddr

def cancelNFTApproveAddress : StateDB :=
  let (s, o) := s.getOrNewStateObject nftAddr
  if o.isNFTApproveAddress approveAddr then s.setNFTApproveAddress nftAddr o 0 else s

/-- Whether an address is the one approved in the account at the NFT's address. -/
def isApprovedOne : Bool :=
  match s.getStateObject nftAddr with
  | some o => o.isNFTApproveAddress addr
  | none => false

/-- Whether the NFT's owner approved an address for all its NFTs. -/
def isApprovedForAllByNFT : Bool :=
  match s.getStateObject (getNFTOwner16 H s nftAddr) with
  | some o => o.isApproveAddress addr
  | none => false

def isApproved : Bool :=
  s.isApprovedOne nftAddr addr || isApprovedForAllByNFT H s nftAddr addr

/-! ## NFT and exchanger getters -/

def getNFTExchanger : Address :=
  match s.getStateObject a with
  | some o => o.nft.exchanger
  | none => 0

def getNFTCreator : Address :=
  match s.getStateObject a with
  | some o => o.nft.creator
  | none => 0

def getNFTRoyalty : ℕ :=
  match s.getStateObject a with
  | some o => o.nft.royalty
  | none => 0

def getExchangerFlag : Bool :=
  match s.getStateObject a with
  | some o => o.exchangerFlag
  | none => false

def getFeeRate : ℕ :=
  match s.getStateObject a with
  | some o => o.feeRate
  | none => 0

/-- The block an exchanger was opened at; panics on an account that has none. -/
def getOpenExchangerTime : Option ℕ :=
  match s.getStateObject a with
  | some o => o.blockNumber
  | none => some 0

/-! ## Pledges -/

/-- Appends to the pledges of the block. -/
def appendPledge (t : PledgedToken) : StateDB :=
  { s with pools := { s.pools with pledgedTokenPool := s.pools.pledgedTokenPool ++ [t] } }

/-- Appends to the exchanger stakes of the block. -/
def appendExchanger (t : PledgedToken) : StateDB :=
  { s with pools := { s.pools with exchangerTokenPool := s.pools.exchangerTokenPool ++ [t] } }

def pledgeToken : StateDB :=
  let s := (s.getOrNewStateObject address).1
  ((s.appendPledge ⟨address, amount, true⟩).subBalance address amount).addPledgedBalance address amount

def cancelPledgedToken : Option StateDB :=
  let s := (s.getOrNewStateObject address).1
  match (s.appendPledge ⟨address, amount, false⟩).subPledgedBalance address amount with
  | none => none
  | some s => some (s.addBalance address amount)

/-! ## Exchangers -/

def setExchangerInfo (o : StateObject) (flag : Bool) (block fee : ℕ) (name url : GoString) :
    StateDB :=
  s.change
    (.openExchangerChange a o.exchangerFlag o.blockNumber o.feeRate o.exchangerName o.exchangerURL) a
    { o with
      exchangerFlag := flag, blockNumber := some block, feeRate := fee, exchangerName := name,
      exchangerURL := url }

/-- Stakes the amount, which replaces an earlier stake, and records the exchanger unless the
account is one already. -/
def openExchanger (blocknumber feerate : ℕ) (name url : GoString) : StateDB :=
  let s := (s.getOrNewStateObject addr).1
  let s := (s.appendExchanger ⟨addr, amount, true⟩).subBalance addr amount
  let (s, o) := s.getOrNewStateObject addr
  let s := s.setExchangerBalance addr o amount
  let (s, o) := s.getOrNewStateObject addr
  if o.exchangerFlag then s else s.setExchangerInfo addr o true blocknumber feerate name url

/-- Returns the stake of an exchanger opened before this block. Panics where the opening block or
the stake is absent. -/
def closeExchanger (blocknumber : ℕ) : Option StateDB :=
  let (s, o) := s.getOrNewStateObject addr
  match o.blockNumber with
  | none => none
  | some opened =>
    if blocknumber > opened then
      match o.exchangerBalance with
      | none => none
      | some amount =>
        let s := (s.appendExchanger ⟨addr, amount, false⟩).addBalance addr amount
        let (s, o) := s.getOrNewStateObject addr
        let s := s.setExchangerBalance addr o 0
        let (s, o) := s.getOrNewStateObject addr
        some (if o.exchangerFlag then s.setExchangerInfo addr o false 0 0 [] [] else s)
    else some s

def addExchangerToken : Option StateDB :=
  let s := (s.getOrNewStateObject address).1
  ((s.appendExchanger ⟨address, amount, true⟩).subBalance address amount).addExchangerBalance address
    amount

def subExchangerToken : Option StateDB :=
  let s := (s.getOrNewStateObject address).1
  match (s.appendExchanger ⟨address, amount, false⟩).subExchangerBalance address amount with
  | none => none
  | some s => some (s.addBalance address amount)

/-! ## Active miners and votes -/

/-- Records that an account was online at a block. -/
def addOrUpdateActiveMiner (balance : ℤ) (height : ℕ) : StateDB :=
  let miners := s.pools.activeMinersPool
  let miners' :=
    match miners.findIdx? (·.address = address) with
    | some k => miners.modify k fun m => { m with height := height }
    | none => miners ++ [⟨address, balance, height⟩]
  { s with pools := { s.pools with activeMinersPool := miners' } }

/-- The vote weight an account counts with; an absent account or weight counts as zero. -/
def voteWeightOf : ℤ :=
  match s.getStateObject a with
  | some o => o.voteWeight.getD 0
  | none => 0

/-- The weight behind the batch that is nominated now. -/
def nominatedWeight : ℤ :=
  match s.pools.nominatedOfficialNFT with
  | none => 0
  | some n => if n.address = 0 then 0 else s.voteWeightOf n.address

/-- Replaces the nominated batch when the new nominator has more weight. -/
def voteOfficialNFT (nominated : NominatedOfficialNFT) : StateDB :=
  if s.voteWeightOf nominated.address > s.nominatedWeight then
    { s with pools := { s.pools with nominatedOfficialNFT := some nominated } }
  else s

def nextIndex : ℤ := InjectedOfficialNFTList.maxIndex s.pools.officialNFTPool

end StateDB

end Wormholes
