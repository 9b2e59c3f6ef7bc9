import Wormholes.Core.HandleNFT

/-!
# Core.Exec — the wormholes handlers as the code runs them

`EVM.Call` returns a handler's error without reverting its snapshot, so what a handler wrote before
it failed would stay. Here a handler is a computation on the state and the call's gas that stops
with what it wrote so far: the reads, checks and writes of `HandleNFT` stand in the code's order, with
the tests it makes after a write. A `Buy*` function makes all its checks, which are those of
`Core.Sales`, before it writes; a mint's flag is tested after the mint. `Core.HandleNFT` has the same
handlers as functions of the state alone.
-/

namespace Wormholes.Core

open Common StateDB

/-- Why a call ends early. -/
inductive Stop where
  | err (msg : String)
  | panic
deriving DecidableEq

/-- What a call works on. `loaded` says that `MintDeep`, `SNFTExchangePool` and `OfficialNFTPool` are
set, as `insertChain` does before it processes a block. On the state it hands to the prefetcher they
are `nil`, and what `db` has for them is never read. The other pools work from `nil`. -/
structure Frame where
  db : StateDB
  gas : ℕ
  loaded : Bool

/-- A computation on a frame. Where it stops, what it wrote stays. -/
abbrev Exec := EStateM Stop Frame

namespace Exec

variable {α : Type}

/-- A value computed without the state. -/
def check (x : Res α) : Exec α := fun f =>
  match x with
  | .ok a => .ok a f
  | .err msg => .error (.err msg) f
  | .panic => .error .panic f

/-- Returns the error unless the condition holds. -/
def require (c : Prop) [Decidable c] (msg : String) : Exec Unit := check (Res.require c msg)

/-- A value read from the state. -/
def read (φ : StateDB → α) : Exec α := fun f => .ok (φ f.db) f

/-- A value read from the state, or an error. -/
def examine (φ : StateDB → Res α) : Exec α := fun f => check (φ f.db) f

def write (φ : StateDB → StateDB) : Exec Unit := fun f => .ok () { f with db := φ f.db }

/-- A write that may panic. -/
def writeOr (φ : StateDB → Option StateDB) : Exec Unit := fun f =>
  match φ f.db with
  | some db => .ok () { f with db := db }
  | none => .error .panic f

/-- The use of a counter or a pool that may be `nil`. -/
def deref : Exec Unit := fun f => if f.loaded then .ok () f else .error .panic f

/-- The call of a function whose error is not looked at. -/
def ignoreErr (m : Exec Unit) : Exec Unit := fun f =>
  match m f with
  | .error (.err _) g => .ok () g
  | r => r

variable (K : Crypto) (blocknumber : ℕ) (caller recipient : Address) (w : WormholesTx) (amount : ℕ)

/-! ## Minting and moving an NFT -/

/-- `GetOrNewStateObject`: a pointer, which the callers test for `nil`. -/
def getOrNewStateObject (a : Address) : Exec (Option StateObject) := do
  let found ← read (·.getStateObject a)
  match found with
  | some o => return some o
  | none =>
    write (·.createObject a)
    read (·.getStateObject a)

/-- `StateDB.CreateNFTByUser`: the address and whether the NFT was minted. -/
def createNFTByUser (exchanger owner : Address) (royalty : ℕ) (metaurl : GoString) :
    Exec (Address × Bool) := do
  deref
  let nftAddr ← read fun db => bigToAddress db.pools.mintDeep.userMint
  write (·.createAccount nftAddr)
  let stateObject ← getOrNewStateObject nftAddr
  match stateObject with
  | none => return (0, false)
  | some o =>
    write fun db => db.setNFTInfo nftAddr o
      { AccountNFT.blank with
        owner := owner, creator := owner, royalty := royalty, exchanger := exchanger,
        metaURL := metaurl }
    write fun db =>
      { db with pools :=
          { db.pools with mintDeep :=
              { db.pools.mintDeep with userMint := db.pools.mintDeep.userMint + 1 } } }
    return (nftAddr, true)

def transferNFT (nftAddr : GoString) (newOwner : Address) : Exec Unit := do
  let (address, level) ← check (getNftAddressAndLevel nftAddr)
  writeOr (changeNFTOwner K.toHasher · address newOwner level)

/-- `core.ExchangeNFTToCurrency`, which parses the address' text once more. The pool is used after the
split, but nothing in between can return. -/
def exchangeNFTToCurrency (nftaddress : GoString) : Exec Unit := do
  let (address, level) ← check (getNftAddressAndLevel nftaddress)
  deref
  writeOr (StateDB.exchangeNFTToCurrency K.toHasher · caller address blocknumber level)

/-! ## Sales of an existing NFT -/

/-- The end of the four sales: three shares, the vote weight and the handover. -/
def settleSale (p : Sale) : Exec Unit := do
  let feeRate ← read (·.getFeeRate p.beneficiary)
  let creator ← read (·.getNFTCreator p.nftAddress)
  let royalty ← read (·.getNFTRoyalty p.nftAddress)
  let nftOwnerAmount : ℤ := (amount : ℤ) - (feeOf amount feeRate + feeOf amount royalty)
  write (·.subBalance p.buyer amount)
  write (·.addBalance p.seller nftOwnerAmount)
  write (·.addBalance creator (feeOf amount royalty))
  write (·.addBalance p.beneficiary (feeOf amount feeRate))
  writeOr (·.addVoteWeight p.beneficiary amount)
  writeOr (changeNFTOwner K.toHasher · p.nftAddress p.buyer p.level)

/-- A sale of an existing NFT reads, checks, and then writes. -/
def sell (checks : StateDB → Res Sale) : Exec Unit := do
  let p ← examine checks
  settleSale K amount p

/-! ## Sales that mint -/

/-- The end of the three sales that mint: the mint and its test come first. -/
def settleMintSale (p : MintSale) : Exec Unit := do
  let (nftAddress, ok) ← createNFTByUser p.exclusive p.seller p.royalty w.seller2.metaURL
  require (ok = true) "mint nft error!"
  let feeRate ← read (·.getFeeRate p.exchanger)
  let nftOwnerAmount : ℤ := (amount : ℤ) - feeOf amount feeRate
  write (·.subBalance p.buyer amount)
  write (·.addBalance p.seller nftOwnerAmount)
  write (·.addBalance p.exchanger (feeOf amount feeRate))
  writeOr (·.addVoteWeight p.exchanger amount)
  writeOr (changeNFTOwner K.toHasher · nftAddress p.buyer 0)

/-- A sale that mints reads, checks, and then writes. -/
def sellMinted (checks : StateDB → Res MintSale) : Exec Unit := do
  let p ← examine checks
  settleMintSale K w amount p

/-- Type 24. -/
def voteOfficialNFTByApprovedExchanger : Exec Unit := do
  let originalExchanger ←
    check (recoverAddress K (exchangerMsg w.exchangerAuth) w.exchangerAuth.sig)
  require (originalExchanger = hexToAddress w.exchangerAuth.exchangerOwner)
    "exchangerAuth not correct!"
  require (hexToAddress w.exchangerAuth.toAccount = caller) "from of the tx is not approved!"
  let exchangerBlockNumber ←
    check (parse0x w.exchangerAuth.blockNumber "exchanger blocknumber is not string of 0x!")
  require ((blocknumber : ℤ) ≤ exchangerBlockNumber) "exchanger's data is expired!"
  deref
  let startIndex ← read (·.nextIndex)
  write (·.voteOfficialNFT
    { dir := w.dir, startIndex := startIndex, number := 65536, royalty := w.royalty,
      creator := w.creator, address := originalExchanger })

/-! ## The handlers -/

/-- `EVM.HandleNFT`. -/
def handleNFT : Exec Unit :=
  match w.type with
  | 0 => do
    check (checkRoyalty w.royalty)
    let exchanger ← check (mintExchanger w.exchanger)
    let _ ← createNFTByUser exchanger recipient w.royalty w.metaURL
  | 1 => do
    let (nftAddress, _) ← check (getNftAddressAndLevel w.nftAddress)
    let isOwner ← read (verifyNFTOwner K.toHasher · w.nftAddress caller)
    require (isOwner = true) "not the owner of the nft"
    -- an account is made before the transfer, which parses the address' text once more
    write fun db => if db.exist nftAddress then db else db.createAccount nftAddress
    transferNFT K w.nftAddress recipient
  | 2 => do
    let flag ← read (·.getExchangerFlag recipient)
    require (flag = true) "not exchanger"
    let (nftAddress, _) ← check (getNftAddressAndLevel w.nftAddress)
    require (isOfficialNFT nftAddress = false) "not allowed approve official nft"
    let nftOwner ← read (getNFTOwner16 K.toHasher · nftAddress)
    require (nftOwner = caller) "not the owner of the nft"
    write (·.changeNFTApproveAddress nftAddress recipient)
  | 3 => do
    let (nftAddress, _) ← check (getNftAddressAndLevel w.nftAddress)
    let nftOwner ← read (getNFTOwner16 K.toHasher · nftAddress)
    require (nftOwner = caller) "not the owner of the nft"
    write (·.cancelNFTApproveAddress nftAddress recipient)
  | 4 => do
    let flag ← read (·.getExchangerFlag recipient)
    require (flag = true) "not exchanger"
    write (·.changeApproveAddress caller recipient)
  | 5 => write (·.cancelApproveAddress caller recipient)
  | 6 => do
    let (nftAddress, _) ← check (getNftAddressAndLevel w.nftAddress)
    require (isOfficialNFT nftAddress = true) "not mint by official"
    let nftOwner ← read (getNFTOwner16 K.toHasher · nftAddress)
    require (nftOwner = caller) "not the owner of the nft"
    ignoreErr (exchangeNFTToCurrency K blocknumber caller w.nftAddress)
  | 7 => return ()
  | 8 => return ()
  | 9 => do
    require (amount ≥ 100000 * baseErb) "not more than 100000 ERB"
    let can ← read (·.canTransfer caller amount)
    require (can = true) "insufficient balance for transfer"
    write (·.pledgeToken caller amount)
  | 10 => do
    let pledged ← read (·.getPledgedBalance caller)
    require (pledged ≥ amount) "not sufficient pledged balance"
    writeOr (·.cancelPledgedToken caller amount)
  | 11 => do
    require (amount ≥ 100 * baseErb) "not more than 100 ERB"
    require (w.feeRate > 0) "feerate not more than 0"
    require (w.feeRate < 10000) "feerate not less than 10000"
    let can ← read (·.canTransfer caller amount)
    require (can = true) "insufficient balance for transfer"
    write (·.openExchanger caller amount blocknumber w.feeRate w.name w.url)
  | 12 => do
    let opened ← examine fun db => Res.ofOption (db.getOpenExchangerTime caller)
    require ((closeExchangerInterval : ℤ) ≤ (blocknumber : ℤ) - opened) "too close with openexchanger"
    writeOr (·.closeExchanger caller blocknumber)
  | 13 => do
    require (has0xPrefix w.startIndex = true) "StartIndex is not string of 0x!"
    let startIndex ← check (Res.ofOption (bigSetString (w.startIndex.drop 2)))
    deref
    write (·.injectOfficialNFT
      { dir := w.dir, startIndex := startIndex, number := w.number, royalty := w.royalty,
        creator := w.creator })
  | 14 => do
    check (checkValue amount)
    sell K amount (buyNFTBySellerOrExchangerChecks K · blocknumber caller recipient w amount)
  | 15 => do
    check (checkValue amount)
    sell K amount (buyNFTByBuyerChecks K · blocknumber caller w amount)
  | 16 => do
    check (checkValue amount)
    sellMinted K w amount (buyAndMintNFTByBuyerChecks K · blocknumber caller w amount)
  | 17 => do
    check (checkValue amount)
    sellMinted K w amount (buyAndMintNFTByExchangerChecks K · blocknumber caller recipient w amount)
  | 18 => do
    check (checkValue amount)
    sell K amount (buyNFTByApproveExchangerChecks K · blocknumber caller recipient w amount)
  | 19 => do
    check (checkValue amount)
    sellMinted K w amount
      (buyAndMintNFTByApprovedExchangerChecks K · blocknumber caller recipient w amount)
  | 20 => do
    check (checkValue amount)
    sell K amount (buyNFTByExchangerChecks K · blocknumber caller recipient w amount)
  | 21 => do
    let can ← read (·.canTransfer caller amount)
    require (can = true) "insufficient balance for transfer"
    writeOr (·.addExchangerToken caller amount)
  | 22 => do
    let balance ← read (·.getExchangerBalance caller)
    require (balance ≥ amount + 100 * baseErb) "insufficient exchanger balance for transfer"
    writeOr (·.subExchangerToken caller amount)
  | 23 => do
    deref
    let startIndex ← read (·.nextIndex)
    check (checkRoyalty w.royalty)
    write (·.voteOfficialNFT
      { dir := w.dir, startIndex := startIndex, number := 65536, royalty := w.royalty,
        creator := w.creator, address := caller })
  | 24 => do
    check (checkRoyalty w.royalty)
    voteOfficialNFTByApprovedExchanger K blocknumber caller w
  | 30 => do
    let can ← read (·.canTransfer caller amount)
    require (can = true) "insufficient balance for transfer"
    write (·.transfer caller recipient amount)
    write (·.addOrUpdateActiveMiner caller amount blocknumber)
  | _ => throw (.err "not exist nft type")

/-- `params.CallCreateDepth`. -/
def callCreateDepth : ℕ := 1024

/-- `EVM.Call` up to the callee's code. The payload is decoded after the place where an account
would be made for it, so none is. -/
def call (noRecursion : Bool) (depth : ℕ) (input : CallInput) : Exec Unit :=
  if noRecursion = true ∧ depth > 0 then return ()
  else do
    require (depth ≤ callCreateDepth) "max call depth exceeded"
    let can ← read (·.canTransfer caller amount)
    require (amount = 0 ∨ can = true) "insufficient balance for transfer"
    write (·.snapshot)
    match input with
    | .plain => write (·.transfer caller recipient amount)
    | .malformed => throw (.err "wormholes format error, can't unmarshal")
    | .wormholes w => handleNFT K blocknumber caller recipient w amount

end Exec

end Wormholes.Core
