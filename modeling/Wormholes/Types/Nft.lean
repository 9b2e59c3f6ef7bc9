import Wormholes.Common.Address

/-!
# Types.Nft — mint counters, the exchange queue, injected batches and transaction payloads

`core/types/nfttypes.go`. Two counters say which address the next user and the next official NFT
gets. An official NFT traded in for currency joins the exchange queue, from which later blocks
mint its leaves again one by one; when the queue has nothing to give, the official counter does,
with the metadata of the injected batch its index falls in.

Big integers the code keeps non-negative are naturals; an injected batch's start index is an
integer because a transaction may give any. Machine integers (`uint64`, `uint32`, `uint8`) are
naturals, reduced where the code's arithmetic can wrap.
-/

namespace Wormholes

open Common

/-- The next address of a user NFT and of an official one. -/
structure MintDeep where
  userMint : ℕ
  officialMint : ℕ
deriving DecidableEq

/-- What an official NFT is minted with. -/
structure InjectedInfo where
  metalUrl : GoString
  royalty : ℕ
  creator : GoString
deriving DecidableEq

/-- An official NFT that was exchanged for currency, and the leaf to mint from it next. -/
structure SNFTExchange extends InjectedInfo where
  nftAddress : Address
  mergeLevel : ℕ
  currentMintAddress : Address
  blockNumber : ℕ
deriving DecidableEq

namespace SNFTExchange

/-- The last leaf the queue mints for an entry. -/
def maxNFTAddress (ex : SNFTExchange) : Address :=
  if ex.mergeLevel = 0 then ex.nftAddress
  else bigToAddress (ex.nftAddress.toNat + 256 ^ ex.mergeLevel)

end SNFTExchange

/-- The exchange queue's next leaf, unless the queue is empty or its head was exchanged in this
block or a later one. The head leaves the queue with its last leaf. -/
def popAddress (list : List SNFTExchange) (blocknumber : ℕ) :
    Option (Address × InjectedInfo × List SNFTExchange) :=
  match list with
  | [] => none
  | head :: rest =>
    if head.blockNumber ≥ blocknumber then none
    else
      let list' :=
        if head.currentMintAddress = head.maxNFTAddress then rest
        else
          { head with currentMintAddress := bigToAddress (head.currentMintAddress.toNat + 1) } :: rest
      some (head.currentMintAddress, head.toInjectedInfo, list')

/-- A pledge (`flag` set) or a cancellation of this block, for the validator or the stake pool. -/
structure PledgedToken where
  address : Address
  amount : ℤ
  flag : Bool
deriving DecidableEq

/-- A batch of official NFTs: `number` of them from `startIndex` on. -/
structure InjectedOfficialNFT where
  dir : GoString
  startIndex : ℤ
  number : ℕ
  royalty : ℕ
  creator : GoString
deriving DecidableEq

/-- The first official address. -/
def officialMask : ℕ := 0x8000000000000000000000000000000000000000

namespace InjectedOfficialNFTList

variable (list : List InjectedOfficialNFT)

/-- The first batch that an official address' index falls in, its end included. -/
def getInjectedInfo (addr : Address) : Option InjectedOfficialNFT :=
  let addrInt : ℤ := (addr.toNat : ℤ) - officialMask
  list.find? fun e =>
    e.startIndex = addrInt ∨ (e.startIndex < addrInt ∧ e.startIndex + e.number ≥ addrInt)

/-- Drops the batches before the first one that still has addresses at or above `num`; when none
has, drops nothing. -/
def deleteExpireElem (num : ℕ) : List InjectedOfficialNFT :=
  match list.findIdx? fun e => e.startIndex + e.number + officialMask > (num : ℤ) with
  | some k => list.drop k
  | none => list

/-- How many addresses the batches still hold, in `uint64` arithmetic. -/
def remainderNum (addrInt : ℕ) : ℕ :=
  list.foldl
    (fun sum e =>
      if e.startIndex ≥ (addrInt : ℤ) then (sum + e.number) % 2 ^ 64
      else
        let tempInt : ℤ := e.startIndex + e.number + officialMask
        if tempInt ≥ (addrInt : ℤ) then (sum + (tempInt - addrInt).toNat % 2 ^ 64) % 2 ^ 64
        else sum)
    0

/-- The largest batch end, or zero. -/
def maxIndex : ℤ :=
  list.foldl (fun max e => if e.startIndex + e.number > max then e.startIndex + e.number else max) 0

end InjectedOfficialNFTList

/-- The batch nominated for injection and who nominated it. -/
structure NominatedOfficialNFT extends InjectedOfficialNFT where
  address : Address
deriving DecidableEq

/-- An account that proved itself online at block `height`. -/
structure ActiveMiner where
  address : Address
  balance : ℤ
  height : ℕ
deriving DecidableEq

/-! ## Transaction payloads -/

/-- A signed order of a buyer or a seller. -/
structure Payload where
  amount : GoString
  nftAddress : GoString
  exchanger : GoString
  blockNumber : GoString
  seller : GoString
  sig : GoString
deriving DecidableEq

/-- A seller's signed order for an NFT that the sale mints. -/
structure MintSellPayload where
  amount : GoString
  royalty : GoString
  metaURL : GoString
  exclusiveFlag : GoString
  exchanger : GoString
  blockNumber : GoString
  sig : GoString
deriving DecidableEq

/-- An exchanger's signed authorisation of another account. -/
structure ExchangerPayload where
  exchangerOwner : GoString
  toAccount : GoString
  blockNumber : GoString
  sig : GoString
deriving DecidableEq

/-- The decoded payload of a transaction whose input starts with `wormholes:`. The code's
`Version` field is read by nothing and left out. -/
structure WormholesTx where
  type : ℕ
  nftAddress : GoString
  exchanger : GoString
  royalty : ℕ
  metaURL : GoString
  feeRate : ℕ
  name : GoString
  url : GoString
  dir : GoString
  startIndex : GoString
  number : ℕ
  buyer : Payload
  seller1 : Payload
  seller2 : MintSellPayload
  exchangerAuth : ExchangerPayload
  creator : GoString
deriving DecidableEq

end Wormholes
