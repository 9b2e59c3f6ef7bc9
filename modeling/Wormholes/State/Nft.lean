import Wormholes.State.Database

/-!
# State.Nft — the merge tree of official NFTs: owner lookup, split, merge, mint and exchange

The NFT part of `core/state/statedb.go`. An official NFT of merge level `l` at address `A` stands
for the `16 ^ l` leaves from `A` on; only the account at `A` records it. The owner of a leaf is
found by walking up: at depth `d` the last `d` hexadecimal digits are zero, and the walk stops at
the first account with an owner whose merge level is `d`. Sixteen siblings of one owner and level
merge into their parent; a part of a merged NFT is split off before it changes hands.

All addresses are computed on the address' text, as in the code. `parentOf`, `siblingAddr`,
`mergedAddr` and `splitAddr` name the texts' results. A `none` is a Go panic, or for
`mergeNFT16` an exhausted recursion bound; each merge raises the level by one and level forty has
no parent text, so the bound is never what stops it.
-/

namespace Wormholes

open Common

namespace StateDB

variable (H : Hasher)
variable (s : StateDB) (a nftAddr : Address) (o : StateObject) (storeAddr : Address)

/-! ## Owner lookup -/

/-- Whether the top bit of the first byte is set. -/
def isOfficialNFT : Bool := a.msb

/-- `QUERYDEPTHLIMIT16`. -/
def queryDepthLimit16 : ℕ := 6

/-- The address with its last `depth + 1` digits replaced by zeros. -/
def parentOf (depth : ℕ) : Address :=
  hexToAddress ((a.string H).take (42 - (depth + 1)) ++ List.replicate (depth + 1) '0')

/-- The walk of `getNFTStoreAddress16`; the depth limit bounds it by eight calls. -/
def storeWalk (s : StateDB) : ℕ → Address → ℕ → Option (Address × Address)
  | 0, _, _ => none
  | calls + 1, a, depth =>
    if depth > queryDepthLimit16 then none
    else
      match s.getStateObject a with
      | none => none
      | some o =>
        if o.nft.owner ≠ 0 ∧ o.nft.mergeLevel = depth then some (a, o.nft.owner)
        else storeWalk s calls (parentOf H a depth) (depth + 1)

/-- The address of the NFT that holds `a`, and its owner. -/
def getNFTStoreAddress16 (depth : ℕ) : Option (Address × Address) :=
  storeWalk H s 8 a depth

/-- The owner of a leaf, or the zero address. -/
def getNFTOwner16 : Address :=
  match getNFTStoreAddress16 H s a 0 with
  | some (storeAddr, _) =>
    match s.getStateObject storeAddr with
    | some o => o.nft.owner
    | none => 0
  | none => 0

/-! ## Writing the NFT part of an account -/

def setNFTInfo (info : AccountNFT) : StateDB :=
  s.change (.nftInfoChange a o.nft) a { o with nft := info }

def cleanNFT : StateDB := s.setNFTInfo a o .blank

/-- `SetNFTInfo` on the account at an address, created first if absent. -/
def putNFTInfo (info : AccountNFT) : StateDB :=
  let (s, o) := s.getOrNewStateObject a
  s.setNFTInfo a o info

/-- `stateObject.ChangeNFTOwner`: a new owner, and no approved address. -/
def changeObjectOwner (newOwner : Address) : StateDB :=
  if o.nft.owner = newOwner then s
  else
    let o' := { o with nft := { o.nft with owner := newOwner } }
    let s' := s.change (.nftOwnerChange a o.nft.owner) a o'
    s'.change (.nftApproveAddressChangeOne a o'.nft.nftApproveAddressList) a
      { o' with nft := { o'.nft with nftApproveAddressList := 0 } }

/-- A meta URL with its last path component replaced by an address' text. Panics without `/`. -/
def retarget (url : GoString) (a : Address) : Option GoString :=
  match url.reverse.findIdx? (· = '/') with
  | none => none
  | some k => some (url.take (url.length - 1 - k) ++ '/' :: a.string H)

/-! ## Merge -/

/-- The digits of an address' text without its last `level + 1`. Panics if there are fewer. -/
def parentDigits (level : ℕ) : Option GoString :=
  if (level + 1) % 256 ≤ 40 then some (((a.string H).drop 2).take (40 - (level + 1) % 256)) else none

/-- The `i`-th sibling text: the parent's number shifted by one digit plus `i`, padded to the
level's width and followed by the level's zeros. -/
def siblingAddr (parentAddrS : GoString) (level i : ℕ) : Address :=
  let siblingInt := bigSetString16 parentAddrS * 16 + i
  let siblingAddrS := hexEncode (bigBytes siblingInt)
  hexToAddress (List.replicate (40 - level - siblingAddrS.length) '0' ++ siblingAddrS ++
    List.replicate level '0')

/-- The parent text filled up with zeros. -/
def mergedAddr (parentAddrS : GoString) : Address :=
  hexToAddress (parentAddrS ++ List.replicate (40 - parentAddrS.length) '0')

/-- Whether the fifteen siblings of an NFT exist with its owner and merge level. -/
def isCanMergeNFT16 : Option Bool :=
  match s.getStateObject nftAddr with
  | none => none
  | some o =>
    match parentDigits H nftAddr o.nft.mergeLevel with
    | none => none
    | some parentAddrS =>
      some ((List.range 16).all fun i =>
        let sibling := siblingAddr parentAddrS o.nft.mergeLevel i
        decide (sibling = nftAddr) ||
          match s.getStateObject sibling with
          | none => false
          | some so => so.nft.owner = o.nft.owner && so.nft.mergeLevel = o.nft.mergeLevel)

/-- Cleans the NFT part of each listed account; panics on an absent one. -/
def cleanAll (s : StateDB) : List Address → Option StateDB
  | [] => some s
  | a :: rest =>
    match s.getStateObject a with
    | none => none
    | some o => cleanAll (s.cleanNFT a o) rest

/-- One merge: the siblings are cleaned and the parent takes the NFT's data one level up. -/
def mergeOnce : Option (StateDB × Address) :=
  match parentDigits H nftAddr o.nft.mergeLevel with
  | none => none
  | some parentAddrS =>
    match s.cleanAll ((List.range 16).map (siblingAddr parentAddrS o.nft.mergeLevel)) with
    | none => none
    | some s =>
      let newMergedAddr := mergedAddr parentAddrS
      match retarget H o.nft.metaURL newMergedAddr with
      | none => none
      | some metaUrl =>
        some (s.putNFTInfo newMergedAddr
          { o.nft with mergeLevel := (o.nft.mergeLevel + 1) % 256, metaURL := metaUrl }, newMergedAddr)

/-- Merges as long as the siblings allow. -/
def mergeWalk : ℕ → StateDB → Address → Option StateDB
  | 0, _, _ => none
  | calls + 1, s, nftAddr =>
    match s.isCanMergeNFT16 H nftAddr with
    | none => none
    | some false => some s
    | some true =>
      match s.getStateObject nftAddr with
      | none => none
      | some o =>
        match s.mergeOnce H nftAddr o with
        | none => none
        | some (s', merged) => mergeWalk calls s' merged

def mergeNFT16 : Option StateDB := mergeWalk H 64 s nftAddr

/-! ## Split -/

/-- The upper-case hexadecimal digit the code writes. -/
def splitDigit (j : ℕ) : Char := if j < 10 then Char.ofNat (j + 48) else Char.ofNat (j + 55)

/-- The text the code requires of an address inside a stored NFT. -/
def shouldNFTAddr (nftAddr : Address) (mergeLevel level : ℕ) : GoString :=
  (storeAddr.string H).take (42 - mergeLevel) ++
    (((nftAddr.string H).take (42 - level)).drop (42 - mergeLevel)) ++
    (storeAddr.string H).drop (42 - level)

/-- The `j`-th child on the way down from the stored NFT to `nftAddr`, `i` levels below it. -/
def splitAddr (nftAddr : Address) (mergeLevel i j : ℕ) : Address :=
  let splitAddrBytes :=
    (storeAddr.string H).take (42 - mergeLevel) ++
      (((nftAddr.string H).take (42 - mergeLevel + i)).drop (42 - mergeLevel)) ++
      (storeAddr.string H).drop (42 - mergeLevel + i)
  hexToAddress (splitAddrBytes.set (42 - mergeLevel + i) (splitDigit j))

/-- Writes one child of a split. -/
def splitPut (store : AccountNFT) (level : ℕ) (s : StateDB) (child : Address) : Option StateDB :=
  match retarget H store.metaURL child with
  | none => none
  | some metaUrl => some (s.putNFTInfo child { store with mergeLevel := level, metaURL := metaUrl })

/-- The sixteen children at one step of the way down. -/
def splitRow (nftAddr : Address) (store : AccountNFT) (s : StateDB) (i : ℕ) : Option StateDB :=
  (List.range 16).foldlM
    (fun s j => splitPut H store (store.mergeLevel - (i + 1)) s
      (splitAddr H storeAddr nftAddr store.mergeLevel i j)) s

/-- Splits the NFT that holds `nftAddr` down to `level`. Does nothing when there is no such NFT,
when it is not above `level`, or when the two addresses' texts do not match. -/
def splitNFT16 (level : ℕ) : Option StateDB :=
  match getNFTStoreAddress16 H s nftAddr 0 with
  | none => some s
  | some (storeAddr, _) =>
    match s.getStateObject storeAddr with
    | none => none
    | some store =>
      if store.nft.mergeLevel ≤ level then some s
      else if shouldNFTAddr H storeAddr nftAddr store.nft.mergeLevel level ≠ nftAddr.string H then
        some s
      else
        (List.range (store.nft.mergeLevel - level)).foldlM (splitRow H storeAddr nftAddr store.nft) s

/-! ## Change of owner, exchange and mint -/

/-- Gives an NFT to a new owner. An official one is cut out of the larger NFT it is a part of first, and
merged with what the new owner has afterwards. -/
def changeNFTOwner (newOwner : Address) (level : ℕ) : Option StateDB :=
  let s := (s.getOrNewStateObject nftAddr).1
  match if isOfficialNFT nftAddr then splitNFT16 H s nftAddr level else some s with
  | none => none
  | some s =>
    let (s, o) := s.getOrNewStateObject nftAddr
    let s := s.changeObjectOwner nftAddr o newOwner
    if isOfficialNFT nftAddr then s.mergeNFT16 H nftAddr else some s

/-- What an exchanged NFT of a merge level is worth. -/
def calculateExchangeAmount (level : ℕ) : ℕ :=
  16 ^ level *
    if level < 2 then 100000000000000000
    else if level = 2 then 150000000000000000
    else if level = 3 then 225000000000000000
    else 300000000000000000

/-- Trades the NFT stored at an address for currency and queues its leaves for minting. -/
def exchangeNFTToCurrency (address nftaddress : Address) (blocknumber level : ℕ) : Option StateDB :=
  match splitNFT16 H s nftaddress level with
  | none => none
  | some s =>
    let (s, o) := s.getOrNewStateObject nftaddress
    let s := (s.getOrNewStateObject address).1
    let nftExchange : SNFTExchange :=
      { nftAddress := nftaddress, mergeLevel := o.nft.mergeLevel, currentMintAddress := nftaddress,
        blockNumber := blocknumber, metalUrl := o.nft.metaURL, royalty := o.nft.royalty,
        creator := o.nft.creator.string H }
    let s :=
      { s with pools :=
          { s.pools with snftExchangePool := s.pools.snftExchangePool ++ [nftExchange] } }
    let s := s.cleanNFT nftaddress o
    some (s.addBalance address (calculateExchangeAmount o.nft.mergeLevel))

/-- Mints the next user NFT; its address is returned. -/
def createNFTByUser (exchanger owner : Address) (royalty : ℕ) (metaurl : GoString) :
    StateDB × Address :=
  let nftAddr := bigToAddress s.pools.mintDeep.userMint
  let s := (s.createAccount nftAddr).putNFTInfo nftAddr
    { AccountNFT.blank with
      owner := owner, creator := owner, royalty := royalty, exchanger := exchanger,
      metaURL := metaurl }
  ({ s with pools :=
      { s.pools with mintDeep :=
          { s.pools.mintDeep with userMint := s.pools.mintDeep.userMint + 1 } } }, nftAddr)

/-- The default batch an election injects. -/
def defaultInjected (startIndex : ℤ) : InjectedOfficialNFT where
  dir := "/ipfs/QmYgBEB9CEx356zqJaDd4yjvY92qE276Gh1y2baWeDY3By".toList
  startIndex := startIndex
  number := 65536
  royalty := 100
  creator := "0x35636d53Ac3DfF2b2347dDfa37daD7077b3f5b6F".toList

def getVoteWeight : Option ℤ :=
  match s.getStateObject a with
  | some o => o.voteWeight
  | none => some 0

/-- Appends a batch to the official pool. -/
def injectOfficialNFT (e : InjectedOfficialNFT) : StateDB :=
  { s with pools := { s.pools with officialNFTPool := s.pools.officialNFTPool ++ [e] } }

/-- The default batch after every batch of the pool. -/
def nextDefault : InjectedOfficialNFT :=
  defaultInjected (InjectedOfficialNFTList.maxIndex s.pools.officialNFTPool)

/-- Injects the nominated batch, or the default one when nothing is nominated. -/
def electNominatedOfficialNFT : Option StateDB :=
  match s.pools.nominatedOfficialNFT with
  | none => some (s.injectOfficialNFT s.nextDefault)
  | some nominated =>
    if nominated.address = 0 then some (s.injectOfficialNFT s.nextDefault)
    else
      let s := s.injectOfficialNFT nominated.toInjectedOfficialNFT
      match s.getVoteWeight nominated.address with
      | none => none
      | some voteWeight =>
        match s.subVoteWeight nominated.address voteWeight with
        | none => none
        | some s =>
          let reset : NominatedOfficialNFT := { toInjectedOfficialNFT := s.nextDefault, address := 0 }
          some { s with pools := { s.pools with nominatedOfficialNFT := some reset } }

/-- The metadata and the address of the next official mint: from the exchange queue, else from
the counter; `none` when the counter's batch is not injected. The flag says which. -/
def nextOfficial (blocknumber : ℕ) : Option (StateDB × Address × InjectedInfo × Bool) :=
  match popAddress s.pools.snftExchangePool blocknumber with
  | some (nftAddr, info, rest) =>
    some ({ s with pools := { s.pools with snftExchangePool := rest } }, nftAddr, info, true)
  | none =>
    let nftAddr := bigToAddress s.pools.mintDeep.officialMint
    match InjectedOfficialNFTList.getInjectedInfo s.pools.officialNFTPool nftAddr with
    | none => none
    | some injectedInfo =>
      some (s, nftAddr,
        { metalUrl := injectedInfo.dir ++ '/' :: nftAddr.string H, royalty := injectedInfo.royalty,
          creator := injectedInfo.creator }, false)

/-- One official mint: the account is written anew at level zero and merged upwards. -/
def mintOfficial (owner : Address) (info : InjectedInfo) : Option StateDB :=
  ((s.createAccount nftAddr).putNFTInfo nftAddr
    { AccountNFT.blank with
      owner := owner, creator := hexToAddress info.creator, royalty := info.royalty,
      metaURL := info.metalUrl }).mergeNFT16 H nftAddr

/-- The counter after a mint that used it. -/
def advanceOfficial : StateDB :=
  { s with pools :=
      { s.pools with
        officialNFTPool :=
          InjectedOfficialNFTList.deleteExpireElem s.pools.officialNFTPool s.pools.mintDeep.officialMint
        mintDeep := { s.pools.mintDeep with officialMint := s.pools.mintDeep.officialMint + 1 } } }

/-- The mint loop. The flag says whether it ran to its end: it stops, and skips the election, at
the first owner there is no address for. -/
def mintLoop (s : StateDB) (blocknumber : ℕ) : List Address → Option (StateDB × Bool)
  | [] => some (s, true)
  | owner :: owners =>
    match nextOfficial H s blocknumber with
    | none => some (s, false)
    | some (s, nftAddr, info, popped) =>
      match s.mintOfficial H nftAddr owner info with
      | none => none
      | some s => mintLoop (if popped then s else s.advanceOfficial) blocknumber owners

/-- Mints one official NFT for each owner and elects a new batch when supply runs low. -/
def createNFTByOfficial16 (owners : List Address) (blocknumber : ℕ) : Option StateDB :=
  match s.mintLoop H blocknumber owners with
  | none => none
  | some (s, false) => some s
  | some (s, true) =>
    if InjectedOfficialNFTList.remainderNum s.pools.officialNFTPool s.pools.mintDeep.officialMint ≤ 110
    then s.electNominatedOfficialNFT
    else some s

end StateDB

end Wormholes
