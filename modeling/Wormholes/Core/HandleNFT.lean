import Wormholes.Core.Sales

/-!
# Core.HandleNFT — wormholes transactions and the NFT opcodes

`EVM.HandleNFT` of `core/vm/evm.go`, one case for each transaction type, and the NFT opcodes of
`core/vm/instructions.go` that write state. `evmCall` is the part of `EVM.Call` before the callee's
code runs: the balance check, the snapshot, and the payload's handling or the value transfer. A
failed payload returns its error without reverting the snapshot.
-/

namespace Wormholes.Core

open Common StateDB

variable (K : Crypto)
variable (db : StateDB) (caller toAddr : Address)

/-- `10 ^ 18` units. -/
def baseErb : ℕ := 1000000000000000000

/-- `CloseExchangerInterval`. -/
def closeExchangerInterval : ℕ := 3 * 24

/-- The exclusive exchanger of a user mint: none for a text of at most two characters. -/
def mintExchanger (exchanger : GoString) : Res Address :=
  if exchanger.length > 2 then
    if has0xPrefix exchanger then .ok (hexToAddress exchanger) else .err "exchanger format error"
  else .ok 0

/-- The range check of a royalty. -/
def checkRoyalty (royalty : ℕ) : Res Unit := do
  Res.require (royalty > 0) "royalty not more than 0"
  Res.require (royalty < 10000) "royalty not less than 10000"

/-- The check before a sale. -/
def checkValue (value : ℕ) : Res Unit := Res.require (value > 0) "trans amount must be larger than 0"

/-- Applies one wormholes payload. -/
def handleNFT (blocknumber : ℕ) (caller addr : Address) (w : WormholesTx) (value : ℕ) :
    Res StateDB :=
  match w.type with
  | 0 => do
    checkRoyalty w.royalty
    let exchanger ← mintExchanger w.exchanger
    .ok (db.createNFTByUser exchanger addr w.royalty w.metaURL).1
  | 1 => do
    let (nftAddress, _) ← getNftAddressAndLevel w.nftAddress
    Res.require (verifyNFTOwner K.toHasher db w.nftAddress caller = true) "not the owner of the nft"
    let db := if db.exist nftAddress then db else db.createAccount nftAddress
    transferNFT K.toHasher db w.nftAddress addr
  | 2 => do
    Res.require (db.getExchangerFlag addr = true) "not exchanger"
    let (nftAddress, _) ← getNftAddressAndLevel w.nftAddress
    Res.require (isOfficialNFT nftAddress = false) "not allowed approve official nft"
    Res.require (getNFTOwner16 K.toHasher db nftAddress = caller) "not the owner of the nft"
    .ok (db.changeNFTApproveAddress nftAddress addr)
  | 3 => do
    let (nftAddress, _) ← getNftAddressAndLevel w.nftAddress
    Res.require (getNFTOwner16 K.toHasher db nftAddress = caller) "not the owner of the nft"
    .ok (db.cancelNFTApproveAddress nftAddress addr)
  | 4 => do
    Res.require (db.getExchangerFlag addr = true) "not exchanger"
    .ok (db.changeApproveAddress caller addr)
  | 5 => .ok (db.cancelApproveAddress caller addr)
  | 6 => do
    let (nftAddress, level) ← getNftAddressAndLevel w.nftAddress
    Res.require (isOfficialNFT nftAddress = true) "not mint by official"
    Res.require (getNFTOwner16 K.toHasher db nftAddress = caller) "not the owner of the nft"
    Res.ofOption (exchangeNFTToCurrency K.toHasher db caller nftAddress blocknumber level)
  | 7 => .ok db
  | 8 => .ok db
  | 9 => do
    Res.require (value ≥ 100000 * baseErb) "not more than 100000 ERB"
    Res.require (db.canTransfer caller value = true) "insufficient balance for transfer"
    .ok (db.pledgeToken caller value)
  | 10 => do
    Res.require (db.getPledgedBalance caller ≥ value) "not sufficient pledged balance"
    Res.ofOption (db.cancelPledgedToken caller value)
  | 11 => do
    Res.require (value ≥ 100 * baseErb) "not more than 100 ERB"
    Res.require (w.feeRate > 0) "feerate not more than 0"
    Res.require (w.feeRate < 10000) "feerate not less than 10000"
    Res.require (db.canTransfer caller value = true) "insufficient balance for transfer"
    .ok (db.openExchanger caller value blocknumber w.feeRate w.name w.url)
  | 12 => do
    let opened ← Res.ofOption (db.getOpenExchangerTime caller)
    Res.require ((closeExchangerInterval : ℤ) ≤ (blocknumber : ℤ) - opened)
      "too close with openexchanger"
    Res.ofOption (db.closeExchanger caller blocknumber)
  | 13 => do
    Res.require (has0xPrefix w.startIndex = true) "StartIndex is not string of 0x!"
    let startIndex ← Res.ofOption (bigSetString (w.startIndex.drop 2))
    .ok (db.injectOfficialNFT
      { dir := w.dir, startIndex := startIndex, number := w.number, royalty := w.royalty,
        creator := w.creator })
  | 14 => do
    checkValue value
    buyNFTBySellerOrExchanger K db blocknumber caller addr w value
  | 15 => do
    checkValue value
    buyNFTByBuyer K db blocknumber caller w value
  | 16 => do
    checkValue value
    buyAndMintNFTByBuyer K db blocknumber caller w value
  | 17 => do
    checkValue value
    buyAndMintNFTByExchanger K db blocknumber caller addr w value
  | 18 => do
    checkValue value
    buyNFTByApproveExchanger K db blocknumber caller addr w value
  | 19 => do
    checkValue value
    buyAndMintNFTByApprovedExchanger K db blocknumber caller addr w value
  | 20 => do
    checkValue value
    buyNFTByExchanger K db blocknumber caller addr w value
  | 21 => do
    Res.require (db.canTransfer caller value = true) "insufficient balance for transfer"
    Res.ofOption (db.addExchangerToken caller value)
  | 22 => do
    Res.require (db.getExchangerBalance caller ≥ value + 100 * baseErb)
      "insufficient exchanger balance for transfer"
    Res.ofOption (db.subExchangerToken caller value)
  | 23 => do
    checkRoyalty w.royalty
    .ok (db.voteOfficialNFT
      { dir := w.dir, startIndex := db.nextIndex, number := 65536, royalty := w.royalty,
        creator := w.creator, address := caller })
  | 24 => do
    checkRoyalty w.royalty
    voteOfficialNFTByApprovedExchanger K db blocknumber caller w
  | 30 => do
    Res.require (db.canTransfer caller value = true) "insufficient balance for transfer"
    .ok ((db.transfer caller addr value).addOrUpdateActiveMiner caller value blocknumber)
  | _ => .err "not exist nft type"

/-! ## Calls -/

/-- The input of a call: an ordinary one, one with the `wormholes:` prefix whose payload does not
decode, or a decoded payload. -/
inductive CallInput where
  | plain
  | malformed
  | wormholes (w : WormholesTx)

/-- `EVM.Call` up to the callee's code: the state it leaves and whether it returns an error. -/
def evmCall (blocknumber : ℕ) (caller addr : Address) (input : CallInput) (value : ℕ) :
    Option (StateDB × Bool) :=
  if value ≠ 0 ∧ ¬ db.canTransfer caller value then some (db, true)
  else
    let db := db.snapshot
    match input with
    | .plain => some (db.transfer caller addr value, false)
    | .malformed => some (db, true)
    | .wormholes w =>
      match handleNFT K db blocknumber caller addr w value with
      | .ok db => some (db, false)
      | .err _ => some (db, true)
      | .panic => none

/-- `EVM.create` up to the init code. -/
def evmCreate (addr : Address) (value : ℕ) : StateDB × Bool :=
  if ¬ db.canTransfer caller value then (db, true)
  else
    let db := db.setNonce caller (db.getNonce caller + 1)
    if db.getNonce addr ≠ 0 ∨ db.getCode addr ≠ [] then (db, true)
    else
      let db := (db.snapshot.createAccount addr).setNonce addr 1
      (db.transfer caller addr value, false)

/-! ## NFT opcodes -/

/-- `opNTransferFrom`. An opcode that fails writes nothing; its frame reverts later. -/
def opNTransferFrom (fromAddr toAddr nftAddr : Address) : Res StateDB :=
  let owner := getNFTOwner16 K.toHasher db nftAddr
  if (owner = fromAddr ∧ owner = caller) ∨ isApproved K.toHasher db nftAddr fromAddr = true then
    Res.ofOption (changeNFTOwner K.toHasher db nftAddr toAddr 0)
  else .err "NFT Transfer Failed: caller Not owner or approved"

def opNApprove (nftAddr : Address) : Res StateDB :=
  if caller = getNFTOwner16 K.toHasher db nftAddr then .ok (db.changeNFTApproveAddress nftAddr toAddr)
  else .err "NFT Approve Failed: Caller is not owner"

def opNSetApprovalForAll (approved : Bool) : StateDB :=
  if approved then db.changeApproveAddress caller toAddr else db.cancelApproveAddress caller toAddr

/-- `opNMint`; the royalty is a stack word cut to `uint32`. -/
def opNMint (royalty : ℕ) (uri : GoString) : Res StateDB :=
  if db.getExchangerFlag caller then
    .ok (db.createNFTByUser caller toAddr (royalty % 2 ^ 32) uri).1
  else .err "NFT Mint Failed: caller Not exchanger"

/-- `opSuicide`: the balance goes to the beneficiary. -/
def opSuicide (contract beneficiary : Address) : StateDB :=
  (db.addBalance beneficiary (db.getBalance contract)).suicide contract

end Wormholes.Core
