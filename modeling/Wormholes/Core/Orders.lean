import Wormholes.Core.Result

/-!
# Core.Orders — NFT strings, signed orders and the sales they authorise

The transaction functions of `core/evm.go`. An NFT is named by a hexadecimal text: `k` digits name
the NFT of merge level `40 - k` at the address those digits start. An order is a text its signer
hashed and signed; the sale functions check the orders they are given and then pay the seller,
the creator and an exchanger and hand the NFT over.

Signature recovery is outside the repository and is the parameter `Crypto.sigToPub`.
-/

namespace Wormholes

open Lib Common

/-- The hash function and signature recovery. -/
structure Crypto extends Hasher where
  /-- `crypto.SigToPub` and `crypto.PubkeyToAddress`: the account that signed a digest. -/
  sigToPub : List ℕ → List ℕ → Except String Address

namespace Core

open StateDB

variable (s : GoString) (H : Hasher) (db : StateDB)

/-! ## Texts -/

def parseDigits : Option ℕ :=
  if s = [] then none else (s.mapM fromHexChar).map (ofDigitsBE 16)

/-- `(*big.Int).SetString` in base sixteen. -/
def bigSetString : Option ℤ :=
  match s with
  | '-' :: ds => (parseDigits ds).map fun n => -(n : ℤ)
  | '+' :: ds => (parseDigits ds).map fun n => (n : ℤ)
  | ds => (parseDigits ds).map fun n => (n : ℤ)

/-- A number written with a `0x`, or the given error. -/
def parse0x (msg : String) : Res ℤ :=
  if has0xPrefix s then
    match bigSetString (s.drop 2) with
    | some n => .ok n
    | none => .err msg
  else .err msg

/-- The bytes of the white space characters of Unicode. -/
def spaces : List GoString :=
  ([[9], [10], [11], [12], [13], [32], [0xC2, 0x85], [0xC2, 0xA0], [0xE1, 0x9A, 0x80],
    [0xE2, 0x80, 0x80], [0xE2, 0x80, 0x81], [0xE2, 0x80, 0x82], [0xE2, 0x80, 0x83],
    [0xE2, 0x80, 0x84], [0xE2, 0x80, 0x85], [0xE2, 0x80, 0x86], [0xE2, 0x80, 0x87],
    [0xE2, 0x80, 0x88], [0xE2, 0x80, 0x89], [0xE2, 0x80, 0x8A], [0xE2, 0x80, 0xA8],
    [0xE2, 0x80, 0xA9], [0xE2, 0x80, 0xAF], [0xE2, 0x81, 0x9F], [0xE3, 0x80, 0x80]] :
    List (List ℕ)).map fun bs => bs.map Char.ofNat

/-- Strips leading texts of `seqs`, at most `n` times. -/
def stripLeft (seqs : List GoString) : ℕ → GoString → GoString
  | 0, s => s
  | n + 1, s =>
    match seqs.find? fun q => q.isPrefixOf s with
    | some q => stripLeft seqs n (s.drop q.length)
    | none => s

/-- `strings.TrimSpace`. -/
def trimSpace : GoString :=
  let s := stripLeft spaces s.length s
  (stripLeft (spaces.map List.reverse) s.length s.reverse).reverse

/-! ## NFT strings -/

/-- The address and the merge level an NFT string names. -/
def getNftAddressAndLevel (nftAddress : GoString) : Res (Address × ℕ) :=
  if nftAddress.length > 42 then .err "nft address is too long"
  else if has0xPrefix nftAddress then
    let level := 42 - nftAddress.length
    .ok (hexToAddress (nftAddress ++ List.replicate level '0'), level)
  else .err "nft address is not to start with 0x"

def verifyNFTOwner (nftAddr : GoString) (owner : Address) : Bool :=
  match getNftAddressAndLevel nftAddr with
  | .ok (address, _) => getNFTOwner16 H db address = owner
  | _ => false

def transferNFT (nftAddr : GoString) (newOwner : Address) : Res StateDB := do
  let (address, level) ← getNftAddressAndLevel nftAddr
  Res.ofOption (changeNFTOwner H db address newOwner level)

/-! ## Signatures -/

/-- The digest a wallet signs for a message. -/
def hashMsg (msg : GoString) : List ℕ :=
  H.keccak256 ("\x19Ethereum Signed Message:\n".toList ++ (toString msg.length).toList ++ msg)

/-- `hexutil.MustDecode` on a text with a `0x`: panics on an odd or malformed text. -/
def mustDecode : Res (List ℕ) :=
  let digits := s.drop 2
  if digits.length % 2 = 0 ∧ digits.all (fun c => (fromHexChar c).isSome) then .ok (hex2Bytes digits)
  else .panic

/-- The account whose signature of a message this is. -/
def recoverAddress (K : Crypto) (msg sigStr : GoString) : Res Address := do
  Res.require (has0xPrefix sigStr = true) "signature must be started with 0x or 0X"
  let sigData ← mustDecode sigStr
  Res.require (sigData.length = 65) "signature must be 65 bytes long"
  Res.require (sigData.getD 64 0 = 27 ∨ sigData.getD 64 0 = 28)
    "invalid Ethereum signature (V is not 27 or 28)"
  match K.sigToPub (hashMsg K.toHasher msg) (sigData.set 64 (sigData.getD 64 0 - 27)) with
  | .ok a => .ok a
  | .error msg => .err msg

/-- The text a buyer signs, with the seller's name at its end. -/
def buyerMsg (p : Payload) : GoString :=
  p.amount ++ p.nftAddress ++ p.exchanger ++ p.blockNumber ++ p.seller

/-- The text both parties of an exchanger's sale sign. -/
def tradeMsg (p : Payload) : GoString := p.amount ++ p.nftAddress ++ p.exchanger ++ p.blockNumber

/-- The text a buyer of an NFT that is not minted yet signs. -/
def mintBuyerMsg (p : Payload) : GoString := p.amount ++ p.exchanger ++ p.blockNumber

/-- The text a seller of an NFT that is not minted yet signs. -/
def mintSellerMsg (p : MintSellPayload) : GoString :=
  p.amount ++ p.royalty ++ p.metaURL ++ p.exclusiveFlag ++ p.exchanger ++ p.blockNumber

/-- The text an exchanger signs to let another account act for it. -/
def exchangerMsg (p : ExchangerPayload) : GoString := p.exchangerOwner ++ p.toAccount ++ p.blockNumber

/-! ## Settlement -/

/-- What an exchanger takes of a sale: the fee rate in ten-thousandths of whole units. -/
def feeOf (amount rate : ℕ) : ℕ := amount / 10000 * rate

/-- The exchanger's share of a sale. -/
def exchangerAmount (beneficiary : Address) (amount : ℕ) : ℕ :=
  feeOf amount (db.getFeeRate beneficiary)

/-- The creator's share of a sale. -/
def royaltyAmount (nftAddress : Address) (amount : ℕ) : ℕ :=
  feeOf amount (db.getNFTRoyalty nftAddress)

/-- What is left for the seller, which may be negative. -/
def sellerAmount (beneficiary nftAddress : Address) (amount : ℕ) : ℤ :=
  (amount : ℤ) - (exchangerAmount db beneficiary amount + royaltyAmount db nftAddress amount)

/-- The payments and the handover that end each of the four sales. -/
def settleSale (buyer seller beneficiary nftAddress : Address) (level amount : ℕ) :
    Option StateDB :=
  let creator := db.getNFTCreator nftAddress
  let paid :=
    (((db.subBalance buyer amount).addBalance seller
      (sellerAmount db beneficiary nftAddress amount)).addBalance creator
        (royaltyAmount db nftAddress amount)).addBalance beneficiary
          (exchangerAmount db beneficiary amount)
  match paid.addVoteWeight beneficiary amount with
  | none => none
  | some db => changeNFTOwner H db nftAddress buyer level

/-- Mints the seller's NFT, pays seller and exchanger and hands the NFT to the buyer. -/
def settleMintSale (buyer seller exchanger exclusive : Address) (royalty : ℕ) (metaURL : GoString)
    (amount : ℕ) : Option StateDB :=
  let (db, nftAddress) := db.createNFTByUser exclusive seller royalty metaURL
  let exchangerAmount := feeOf amount (db.getFeeRate exchanger)
  let paid :=
    ((db.subBalance buyer amount).addBalance seller ((amount : ℤ) - exchangerAmount)).addBalance
      exchanger exchangerAmount
  match paid.addVoteWeight exchanger amount with
  | none => none
  | some db => changeNFTOwner H db nftAddress buyer 0

end Core

end Wormholes
