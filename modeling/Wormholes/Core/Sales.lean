import Wormholes.Core.Orders

/-!
# Core.Sales — the seven sales and the delegated vote

The `Buy*` functions of `core/evm.go`, checks in the code's order and with its texts. Four sell an
NFT that exists (types 14, 15, 18 and 20), three mint the NFT they sell (types 16, 17 and 19).
They differ in who sends the transaction and in whose signatures it carries. None of them writes
before its last check, so each is its checks and then a settlement.
-/

namespace Wormholes.Core

open Common StateDB

variable (K : Crypto) (db : StateDB) (blocknumber : ℕ) (caller recipient : Address)
  (w : WormholesTx) (amount : ℕ)

/-! ## Sales of an existing NFT -/

/-- The parties and the NFT of a sale of an existing NFT. -/
structure Sale where
  buyer : Address
  seller : Address
  beneficiary : Address
  nftAddress : Address
  level : ℕ
deriving DecidableEq

/-- The payments and the handover of a sale. -/
def Sale.settle (H : Hasher) (db : StateDB) (amount : ℕ) (p : Sale) : Option StateDB :=
  settleSale H db p.buyer p.seller p.beneficiary p.nftAddress p.level amount

/-- A sale of an existing NFT. -/
def sell (checks : Res Sale) : Res StateDB := do
  let p ← checks
  Res.ofOption (p.settle K.toHasher db amount)

/-- Who is paid the fee when the owner or an approved account sells to a signed buyer. -/
def sellerBeneficiary (nftAddress nftOwner buyerExchanger : Address) : Res Address :=
  let exclusiveExchanger := db.getNFTExchanger nftAddress
  if caller = nftOwner then
    if exclusiveExchanger ≠ 0 ∧ db.getExchangerFlag exclusiveExchanger then .ok exclusiveExchanger
    else .ok buyerExchanger
  else if isApproved K.toHasher db nftAddress caller then
    if exclusiveExchanger ≠ 0 then
      if caller ≠ exclusiveExchanger ∧ db.getExchangerFlag exclusiveExchanger then
        .err "caller not same as created exclusive Exchanger!"
      else .ok caller
    else if caller ≠ buyerExchanger then .err ""
    else .ok caller
  else .err "no right to sell nft"

/-- Type 14: the owner, or an account approved for the NFT, sells to a buyer who signed. -/
def buyNFTBySellerOrExchangerChecks : Res Sale := do
  let buyer ← recoverAddress K (buyerMsg w.buyer) w.buyer.sig
  let buyerBlockNumber ← parse0x w.buyer.blockNumber "blocknumber is not string of 0x!"
  Res.require ((blocknumber : ℤ) ≤ buyerBlockNumber) "buyer's data is expired!"
  Res.require (recipient = buyer) "to of the tx is not buyer!"
  let buyerAmount ← parse0x w.buyer.amount "amount is not string of 0x!"
  Res.require ((amount : ℤ) = buyerAmount) "tx amount error"
  let (nftAddress, level) ← getNftAddressAndLevel w.buyer.nftAddress
  let nftOwner := getNFTOwner16 K.toHasher db nftAddress
  Res.require (nftOwner ≠ 0) "Get nft owner error!"
  Res.require (db.getBalance buyer ≥ amount) "insufficient balance"
  let beneficiary ←
    sellerBeneficiary K db caller nftAddress nftOwner (hexToAddress w.buyer.exchanger)
  .ok ⟨buyer, nftOwner, beneficiary, nftAddress, level⟩

/-- Type 15: a buyer accepts the order the owner signed. -/
def buyNFTByBuyerChecks : Res Sale := do
  let seller ← recoverAddress K (tradeMsg w.seller1) w.seller1.sig
  let sellerBlockNumber ← parse0x w.seller1.blockNumber "blocknumber is not string of 0x!"
  Res.require ((blocknumber : ℤ) ≤ sellerBlockNumber) "seller's data is expired!"
  let (nftAddress, level) ← getNftAddressAndLevel w.seller1.nftAddress
  let nftOwner := getNFTOwner16 K.toHasher db nftAddress
  Res.require (nftOwner ≠ 0) "Get nft owner error!"
  Res.require (nftOwner = seller) "don't have the nft!"
  let sellerAmount ← parse0x w.seller1.amount "amount is not string of 0x!"
  Res.require ((amount : ℤ) = sellerAmount) "tx amount error"
  Res.require (db.getBalance caller ≥ amount) "insufficient balance"
  let exclusiveExchanger := db.getNFTExchanger nftAddress
  let beneficiary :=
    if exclusiveExchanger ≠ 0 then exclusiveExchanger else hexToAddress w.seller1.exchanger
  .ok ⟨caller, seller, beneficiary, nftAddress, level⟩

/-- Who is paid the fee when an account sells under an exchanger's authorisation. -/
def approvedBeneficiary (nftAddress originalExchanger : Address) : Res Address :=
  let exclusiveExchanger := db.getNFTExchanger nftAddress
  if isApproved K.toHasher db nftAddress originalExchanger then
    if exclusiveExchanger ≠ 0 ∧ originalExchanger ≠ exclusiveExchanger ∧
        db.getExchangerFlag exclusiveExchanger then
      .err "caller not same as created exclusive Exchanger!"
    else .ok originalExchanger
  else .err "no right to sell nft"

/-- Type 18: an account authorised by an exchanger sells to a buyer who signed. -/
def buyNFTByApproveExchangerChecks : Res Sale := do
  let buyer ← recoverAddress K (buyerMsg w.buyer) w.buyer.sig
  let originalExchanger ← recoverAddress K (exchangerMsg w.exchangerAuth) w.exchangerAuth.sig
  let buyerBlockNumber ← parse0x w.buyer.blockNumber "buyer blocknumber is not string of 0x!"
  Res.require ((blocknumber : ℤ) ≤ buyerBlockNumber) "buyer's data is expired!"
  let exchangerBlockNumber ←
    parse0x w.exchangerAuth.blockNumber "exchanger blocknumber is not string of 0x!"
  Res.require ((blocknumber : ℤ) ≤ exchangerBlockNumber) "exchanger's data is expired!"
  Res.require (recipient = buyer) "to of the tx is not buyer!"
  Res.require (hexToAddress w.exchangerAuth.toAccount = caller) "from of the tx is not approved!"
  let buyerAmount ← parse0x w.buyer.amount "amount is not string of 0x!"
  Res.require ((amount : ℤ) = buyerAmount) "tx amount error"
  let (nftAddress, level) ← getNftAddressAndLevel w.buyer.nftAddress
  let nftOwner := getNFTOwner16 K.toHasher db nftAddress
  Res.require (nftOwner ≠ 0) "Get nft owner error!"
  Res.require (db.getBalance buyer ≥ amount) "insufficient balance"
  let beneficiary ← approvedBeneficiary K db nftAddress originalExchanger
  .ok ⟨buyer, nftOwner, beneficiary, nftAddress, level⟩

/-- Whether an exchanger may match two orders. -/
def matchBeneficiary (nftAddress buyerExchanger sellerExchanger : Address) : Res Address :=
  let exclusiveExchanger := db.getNFTExchanger nftAddress
  if exclusiveExchanger ≠ 0 then
    if caller ≠ exclusiveExchanger ∧ db.getExchangerFlag exclusiveExchanger then
      .err "caller not same as created exclusive Exchanger!"
    else .ok caller
  else if caller ≠ buyerExchanger ∧ caller ≠ sellerExchanger then .err "exchanger err"
  else .ok caller

/-- Type 20: an exchanger matches an order of a buyer with one of the owner. -/
def buyNFTByExchangerChecks : Res Sale := do
  let buyer ← recoverAddress K (tradeMsg w.buyer) w.buyer.sig
  let seller ← recoverAddress K (tradeMsg w.seller1) w.seller1.sig
  let buyerBlockNumber ← parse0x w.buyer.blockNumber "buyer blocknumber is not string of 0x!"
  Res.require ((blocknumber : ℤ) ≤ buyerBlockNumber) "buyer's data is expired!"
  let sellerBlockNumber ← parse0x w.seller1.blockNumber "seller blocknumber is not string of 0x!"
  Res.require ((blocknumber : ℤ) ≤ sellerBlockNumber) "seller's data is expired!"
  Res.require (recipient = buyer) "to of the tx is not buyer!"
  let buyerAmount ← parse0x w.buyer.amount "buyer's amount is not string of 0x!"
  Res.require ((amount : ℤ) = buyerAmount) "tx buyer amount error"
  let sellerAmount ← parse0x w.seller1.amount "seller's amount is not string of 0x!"
  Res.require ((amount : ℤ) = sellerAmount) "tx seller amount error"
  let (buyerNftAddress, _) ← getNftAddressAndLevel w.buyer.nftAddress
  let (sellerNftAddress, level) ← getNftAddressAndLevel w.seller1.nftAddress
  Res.require (buyerNftAddress = sellerNftAddress)
    "the nft address is not same from buyer and seller!"
  let nftOwner := getNFTOwner16 K.toHasher db sellerNftAddress
  Res.require (nftOwner ≠ 0) "Get nft owner error!"
  Res.require (db.getBalance buyer ≥ amount) "insufficient balance"
  Res.require (nftOwner = seller) "seller have no right to sell the nft"
  let beneficiary ←
    matchBeneficiary db caller sellerNftAddress (hexToAddress w.buyer.exchanger)
      (hexToAddress w.seller1.exchanger)
  .ok ⟨buyer, nftOwner, beneficiary, sellerNftAddress, level⟩

def buyNFTBySellerOrExchanger : Res StateDB :=
  sell K db amount (buyNFTBySellerOrExchangerChecks K db blocknumber caller recipient w amount)

def buyNFTByBuyer : Res StateDB :=
  sell K db amount (buyNFTByBuyerChecks K db blocknumber caller w amount)

def buyNFTByApproveExchanger : Res StateDB :=
  sell K db amount (buyNFTByApproveExchangerChecks K db blocknumber caller recipient w amount)

def buyNFTByExchanger : Res StateDB :=
  sell K db amount (buyNFTByExchangerChecks K db blocknumber caller recipient w amount)

/-! ## Sales that mint -/

/-- The parties and the NFT of a sale that mints. -/
structure MintSale where
  buyer : Address
  seller : Address
  exchanger : Address
  exclusive : Address
  royalty : ℕ
deriving DecidableEq

/-- The mint, the payments and the handover of a sale that mints. -/
def MintSale.settle (H : Hasher) (db : StateDB) (metaURL : GoString) (amount : ℕ) (p : MintSale) :
    Option StateDB :=
  settleMintSale H db p.buyer p.seller p.exchanger p.exclusive p.royalty metaURL amount

/-- A sale that mints. -/
def sellMinted (checks : Res MintSale) : Res StateDB := do
  let p ← checks
  Res.ofOption (p.settle K.toHasher db w.seller2.metaURL amount)

/-- The royalty and the exclusive exchanger a mint order asks for. -/
def mintTerms (exchanger : Address) : Res (ℕ × Address) := do
  let sellerRoyalty ← parse0x w.seller2.royalty "royalty is not string of 0x!"
  Res.require (0 < sellerRoyalty ∧ sellerRoyalty < 10000) "royalty is need range of 0-10000"
  let exclusiveFlag := trimSpace w.seller2.exclusiveFlag
  Res.require (exclusiveFlag = ['0'] ∨ exclusiveFlag = ['1']) "exclusiveFlag is wrong!"
  .ok (sellerRoyalty.toNat, if exclusiveFlag = ['1'] then exchanger else 0)

/-- Type 16: a buyer accepts a seller's order to mint. -/
def buyAndMintNFTByBuyerChecks : Res MintSale := do
  let seller ← recoverAddress K (mintSellerMsg w.seller2) w.seller2.sig
  let sellerBlockNumber ← parse0x w.seller2.blockNumber "blocknumber is not string of 0x!"
  Res.require ((blocknumber : ℤ) ≤ sellerBlockNumber) "seller's data is expired!"
  let sellerAmount ← parse0x w.seller2.amount "amount is not string of 0x!"
  Res.require ((amount : ℤ) = sellerAmount) "tx amount error"
  Res.require (db.getBalance caller ≥ amount) "insufficient balance"
  let exchanger := hexToAddress w.seller2.exchanger
  let (royalty, exclusive) ← mintTerms w exchanger
  .ok ⟨caller, seller, exchanger, exclusive, royalty⟩

/-- The amounts of a buyer's and a seller's mint order. -/
def mintAmounts : Res Unit := do
  let buyerAmount ← parse0x w.buyer.amount "buyer amount is not string of 0x!"
  let sellerAmount ← parse0x w.seller2.amount "seller amount is not string of 0x!"
  Res.require ((amount : ℤ) = buyerAmount ∧ (amount : ℤ) ≥ sellerAmount) "tx amount error"

/-- Type 17: an exchanger matches a buyer's order with a seller's order to mint. -/
def buyAndMintNFTByExchangerChecks : Res MintSale := do
  let buyer ← recoverAddress K (mintBuyerMsg w.buyer) w.buyer.sig
  let seller ← recoverAddress K (mintSellerMsg w.seller2) w.seller2.sig
  Res.require (recipient = buyer) "to of the tx is not buyer!"
  let buyerBlockNumber ← parse0x w.buyer.blockNumber "buyer blocknumber is not string of 0x!"
  Res.require ((blocknumber : ℤ) ≤ buyerBlockNumber) "buyer's data is expired!"
  let sellerBlockNumber ← parse0x w.seller2.blockNumber "seller blocknumber is not string of 0x!"
  Res.require ((blocknumber : ℤ) ≤ sellerBlockNumber) "seller's data is expired!"
  mintAmounts w amount
  Res.require (db.getBalance buyer ≥ amount) "insufficient balance"
  Res.require (db.getExchangerFlag caller = true) "from is not an exchanger"
  Res.require (hexToAddress w.buyer.exchanger = caller ∧ hexToAddress w.seller2.exchanger = caller)
    "from of tx not correct!"
  let (royalty, exclusive) ← mintTerms w caller
  .ok ⟨buyer, seller, caller, exclusive, royalty⟩

/-- Type 19: the same under an exchanger's authorisation. -/
def buyAndMintNFTByApprovedExchangerChecks : Res MintSale := do
  let buyer ← recoverAddress K (mintBuyerMsg w.buyer) w.buyer.sig
  let seller ← recoverAddress K (mintSellerMsg w.seller2) w.seller2.sig
  let originalExchanger ← recoverAddress K (exchangerMsg w.exchangerAuth) w.exchangerAuth.sig
  Res.require (hexToAddress w.exchangerAuth.toAccount = caller) "from of the tx is not approved!"
  Res.require (recipient = buyer) "to of the tx is not buyer!"
  let buyerBlockNumber ← parse0x w.buyer.blockNumber "buyer blocknumber is not string of 0x!"
  Res.require ((blocknumber : ℤ) ≤ buyerBlockNumber) "buyer's data is expired!"
  let sellerBlockNumber ← parse0x w.seller2.blockNumber "seller blocknumber is not string of 0x!"
  Res.require ((blocknumber : ℤ) ≤ sellerBlockNumber) "seller's data is expired!"
  let exchangerBlockNumber ←
    parse0x w.exchangerAuth.blockNumber "exchanger blocknumber is not string of 0x!"
  Res.require ((blocknumber : ℤ) ≤ exchangerBlockNumber) "exchanger's data is expired!"
  mintAmounts w amount
  Res.require (db.getBalance buyer ≥ amount) "insufficient balance"
  Res.require (db.getExchangerFlag originalExchanger = true) "originalExchanger is not an exchanger"
  Res.require (hexToAddress w.buyer.exchanger = originalExchanger ∧
    hexToAddress w.seller2.exchanger = originalExchanger) "exchanger not correct!"
  let (royalty, exclusive) ← mintTerms w originalExchanger
  .ok ⟨buyer, seller, originalExchanger, exclusive, royalty⟩

def buyAndMintNFTByBuyer : Res StateDB :=
  sellMinted K db w amount (buyAndMintNFTByBuyerChecks K db blocknumber caller w amount)

def buyAndMintNFTByExchanger : Res StateDB :=
  sellMinted K db w amount (buyAndMintNFTByExchangerChecks K db blocknumber caller recipient w amount)

def buyAndMintNFTByApprovedExchanger : Res StateDB :=
  sellMinted K db w amount
    (buyAndMintNFTByApprovedExchangerChecks K db blocknumber caller recipient w amount)

/-! ## The delegated vote -/

/-- Type 24: an account authorised by an exchanger nominates a batch in its name. -/
def voteOfficialNFTByApprovedExchanger : Res StateDB := do
  let originalExchanger ← recoverAddress K (exchangerMsg w.exchangerAuth) w.exchangerAuth.sig
  Res.require (originalExchanger = hexToAddress w.exchangerAuth.exchangerOwner)
    "exchangerAuth not correct!"
  Res.require (hexToAddress w.exchangerAuth.toAccount = caller) "from of the tx is not approved!"
  let exchangerBlockNumber ←
    parse0x w.exchangerAuth.blockNumber "exchanger blocknumber is not string of 0x!"
  Res.require ((blocknumber : ℤ) ≤ exchangerBlockNumber) "exchanger's data is expired!"
  .ok (db.voteOfficialNFT
    { dir := w.dir, startIndex := db.nextIndex, number := 65536, royalty := w.royalty,
      creator := w.creator, address := originalExchanger })

end Wormholes.Core
