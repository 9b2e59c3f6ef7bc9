import Wormholes.Common.Encoding

/-!
# State.Snapshot — the two stored forms of an account and how they are read

`core/state/snapshot/account.go`, `updateStateObject` and `getDeletedStateObject` of
`core/state/statedb.go`. An account is written to the trie as it is and, when snapshots are on, to
the snapshot in a slim form whose empty storage root and empty code hash are left out. The copies
between the three records are written out field by field, in the source's order.

Here an account has every field the source's record has, with nil kept apart from zero. The hash of no
code is a parameter. Writing an account panics when it cannot be encoded: that is the `none` of
`updateStateObject`.
-/

namespace Wormholes.Snapshot

open Lib Common Rlp

/-- `AccountNFT`, the same record in both packages. -/
structure AccountNFT where
  name : GoString
  symbol : GoString
  price : Option ℤ
  direction : UInt8
  owner : Address
  nftApproveAddressList : Address
  mergeLevel : UInt8
  creator : Address
  royalty : UInt32
  exchanger : Address
  metaURL : GoString
deriving DecidableEq

/-- An account record; `R` is the type of its storage root. -/
structure AccountOf (R : Type) where
  nonce : UInt64
  balance : Option ℤ
  root : R
  codeHash : Option (List ℕ)
  pledgedBalance : Option ℤ
  exchangerFlag : Bool
  blockNumber : Option ℤ
  exchangerBalance : Option ℤ
  voteWeight : Option ℤ
  feeRate : UInt32
  exchangerName : GoString
  exchangerURL : GoString
  approveAddressList : List Address
  nftBalance : UInt64
  nft : AccountNFT
deriving DecidableEq

/-- `state.Account`. -/
abbrev Account := AccountOf Hash

/-- `snapshot.Account`: "a modified version of a state.Account, where the root is replaced with a byte
slice". -/
abbrev Slim := AccountOf (Option (List ℕ))

/-! ## Encodings -/

def AccountNFT.item (n : AccountNFT) : Option Item := do
  let price ← bigItem n.price
  some (.list [stringItem n.name, stringItem n.symbol, price, uint8Item n.direction,
    addressItem n.owner, addressItem n.nftApproveAddressList, uint8Item n.mergeLevel,
    addressItem n.creator, uint32Item n.royalty, addressItem n.exchanger, stringItem n.metaURL])

def AccountNFT.ofItem : Item → Option AccountNFT
  | .list [name, symbol, price, direction, owner, nftApproveAddressList, mergeLevel, creator,
      royalty, exchanger, metaURL] => do
    let name ← asString name
    let symbol ← asString symbol
    let price ← asBig price
    let direction ← asUint8 direction
    let owner ← asAddress owner
    let nftApproveAddressList ← asAddress nftApproveAddressList
    let mergeLevel ← asUint8 mergeLevel
    let creator ← asAddress creator
    let royalty ← asUint32 royalty
    let exchanger ← asAddress exchanger
    let metaURL ← asString metaURL
    some ⟨name, symbol, price, direction, owner, nftApproveAddressList, mergeLevel, creator, royalty,
      exchanger, metaURL⟩
  | _ => none

/-- The item of an account, its root written by `write`. -/
def AccountOf.item {R : Type} (write : R → Item) (a : AccountOf R) : Option Item := do
  let balance ← bigItem a.balance
  let pledgedBalance ← bigItem a.pledgedBalance
  let blockNumber ← bigItem a.blockNumber
  let exchangerBalance ← bigItem a.exchangerBalance
  let voteWeight ← bigItem a.voteWeight
  let nft ← a.nft.item
  some (.list [uint64Item a.nonce, balance, write a.root, bytesItem a.codeHash, pledgedBalance,
    bool a.exchangerFlag, blockNumber, exchangerBalance, voteWeight, uint32Item a.feeRate,
    stringItem a.exchangerName, stringItem a.exchangerURL,
    .list (a.approveAddressList.map addressItem), uint64Item a.nftBalance, nft])

def AccountOf.ofItem {R : Type} (read : Item → Option R) : Item → Option (AccountOf R)
  | .list [nonce, balance, root, codeHash, pledgedBalance, exchangerFlag, blockNumber,
      exchangerBalance, voteWeight, feeRate, exchangerName, exchangerURL, approveAddressList,
      nftBalance, nft] => do
    let nonce ← asUint64 nonce
    let balance ← asBig balance
    let root ← read root
    let codeHash ← asBytes codeHash
    let pledgedBalance ← asBig pledgedBalance
    let exchangerFlag ← asBool exchangerFlag
    let blockNumber ← asBig blockNumber
    let exchangerBalance ← asBig exchangerBalance
    let voteWeight ← asBig voteWeight
    let feeRate ← asUint32 feeRate
    let exchangerName ← asString exchangerName
    let exchangerURL ← asString exchangerURL
    let approveAddressList ← asListOf asAddress approveAddressList
    let nftBalance ← asUint64 nftBalance
    let nft ← AccountNFT.ofItem nft
    some ⟨nonce, balance, root, codeHash, pledgedBalance, exchangerFlag, blockNumber,
      exchangerBalance, voteWeight, feeRate, exchangerName, exchangerURL, approveAddressList,
      nftBalance, nft⟩
  | _ => none

/-- `rlp.EncodeToBytes` of an account. -/
def Account.encodeToBytes (a : Account) : Option (List ℕ) :=
  (a.item hashItem).bind Rlp.encodeToBytes

def Account.decodeBytes (bs : List ℕ) : Option Account :=
  (Rlp.decodeBytes bs).bind (AccountOf.ofItem asHash)

/-- `rlp.EncodeToBytes` of a snapshot's account. -/
def Slim.encodeToBytes (a : Slim) : Option (List ℕ) := (a.item bytesItem).bind Rlp.encodeToBytes

def Slim.decodeBytes (bs : List ℕ) : Option Slim :=
  (Rlp.decodeBytes bs).bind (AccountOf.ofItem asBytes)

/-! ## Copies -/

/-- The root of an empty trie. -/
def emptyRoot : Hash := 0x56e81f171bcc55a6ff8345e692c0f86e5b48e01b996cadc001622fb5e363b421#256

/-- A byte slice's content; nil has none. -/
def content (bs : Option (List ℕ)) : List ℕ := bs.getD []

variable (emptyCode : List ℕ)

def slimAccount (nonce : UInt64) (balance : Option ℤ) (root : Hash) (codehash : Option (List ℕ))
    (pledgedbalance : Option ℤ) (exchangerflag : Bool) (blocknumber : Option ℤ)
    (exchangerbalance : Option ℤ) (voteweight : Option ℤ) (feerate : UInt32)
    (exchangername : GoString) (exchangerurl : GoString) (approveaddresslist : List Address)
    (nftbalance : UInt64) (name : GoString) (symbol : GoString) (price : Option ℤ)
    (direction : UInt8) (owner : Address) (nftapproveaddresslist : Address) (mergelevel : UInt8)
    (creator : Address) (royalty : UInt32) (exchanger : Address) (metaurl : GoString) : Slim where
  nonce := nonce
  balance := balance
  pledgedBalance := pledgedbalance
  exchangerFlag := exchangerflag
  blockNumber := blocknumber
  exchangerBalance := exchangerbalance
  voteWeight := voteweight
  feeRate := feerate
  exchangerName := exchangername
  exchangerURL := exchangerurl
  nftBalance := nftbalance
  nft :=
    { name := name
      symbol := symbol
      price := price
      direction := direction
      owner := owner
      mergeLevel := mergelevel
      creator := creator
      royalty := royalty
      exchanger := exchanger
      metaURL := metaurl
      nftApproveAddressList := nftapproveaddresslist }
  approveAddressList := approveaddresslist
  root := if root ≠ emptyRoot then some (hashBytes root) else none
  codeHash := if content codehash ≠ emptyCode then codehash else none

/-- `SlimAccountRLP`, applied to the fields of an object's data as `updateStateObject` passes them;
its panic is `none`. -/
def slimAccountRLP (data : Account) : Option (List ℕ) :=
  (slimAccount emptyCode data.nonce data.balance data.root data.codeHash data.pledgedBalance
    data.exchangerFlag data.blockNumber data.exchangerBalance data.voteWeight data.feeRate
    data.exchangerName data.exchangerURL data.approveAddressList data.nftBalance data.nft.name
    data.nft.symbol data.nft.price data.nft.direction data.nft.owner data.nft.nftApproveAddressList
    data.nft.mergeLevel data.nft.creator data.nft.royalty data.nft.exchanger
    data.nft.metaURL).encodeToBytes

/-- `FullAccount`. -/
def fullAccount (data : List ℕ) : Option Slim :=
  match Slim.decodeBytes data with
  | none => none
  | some account =>
    let account := if (content account.root).length = 0 then
      { account with root := some (hashBytes emptyRoot) } else account
    some (if (content account.codeHash).length = 0 then
      { account with codeHash := some emptyCode } else account)

def fullAccountRLP (data : List ℕ) : Option (List ℕ) :=
  (fullAccount emptyCode data).bind Slim.encodeToBytes

/-! ## Writing and loading -/

/-- `newObject`: the fields it fills in. -/
def newObject (data : Account) : Account :=
  let data := if data.balance = none then { data with balance := some 0 } else data
  let data := if data.codeHash = none then { data with codeHash := some emptyCode } else data
  if data.root = zeroHash then { data with root := emptyRoot } else data

/-- `updateStateObject`: the bytes written to the trie and to the snapshot. -/
def updateStateObject (data : Account) : Option (List ℕ × List ℕ) := do
  let enc ← Account.encodeToBytes data
  let slim ← slimAccountRLP emptyCode data
  some (enc, slim)

/-- The copy of a snapshot's account that `getDeletedStateObject` makes. -/
def accountOfSlim (acc : Slim) : Account :=
  let data : Account :=
    { nonce := acc.nonce
      balance := acc.balance
      codeHash := acc.codeHash
      root := bytesToHash (content acc.root)
      pledgedBalance := acc.pledgedBalance
      exchangerFlag := acc.exchangerFlag
      blockNumber := acc.blockNumber
      exchangerBalance := acc.exchangerBalance
      voteWeight := acc.voteWeight
      feeRate := acc.feeRate
      exchangerName := acc.exchangerName
      exchangerURL := acc.exchangerURL
      nftBalance := acc.nftBalance
      nft :=
        { name := acc.nft.name
          symbol := acc.nft.symbol
          price := acc.nft.price
          direction := acc.nft.direction
          owner := acc.nft.owner
          mergeLevel := acc.nft.mergeLevel
          creator := acc.nft.creator
          royalty := acc.nft.royalty
          exchanger := acc.nft.exchanger
          metaURL := acc.nft.metaURL
          nftApproveAddressList := acc.nft.nftApproveAddressList }
      approveAddressList := acc.approveAddressList }
  let data := if (content data.codeHash).length = 0 then
    { data with codeHash := some emptyCode } else data
  if data.root = zeroHash then { data with root := emptyRoot } else data

/-- `getDeletedStateObject` from the snapshot: no account for no bytes. -/
def loadFromSnapshot (slim : List ℕ) : Option Account :=
  if slim.length = 0 then none
  else
    match Slim.decodeBytes slim with
    | none => none
    | some acc => some (newObject emptyCode (accountOfSlim emptyCode acc))

/-- `getDeletedStateObject` from the trie. -/
def loadFromTrie (enc : List ℕ) : Option Account :=
  if enc.length = 0 then none
  else
    match Account.decodeBytes enc with
    | none => none
    | some data => some (newObject emptyCode data)

end Wormholes.Snapshot
