import Wormholes.Types.Nft

/-!
# State.Object — accounts, the account journal and its undo

`core/state/state_object.go` and `core/state/journal.go`. One account record serves as an ordinary
account, an exchanger and an NFT: an NFT lives in the account at its address. Three balances are
absent (`nil`) on an account made in the current block and read as zero once reloaded from disk.

Every setter of an account appends one journal entry that holds the overwritten value; undoing an
entry writes that value back. An entry that names an account the state no longer has dereferences
a nil pointer, which is the `none` below.

Left out: the NFT fields `Price` and `Direction` and the account field `NFTBalance`, which nothing
writes; logs, preimages, the refund counter and access lists, which no modelled function reads.
-/

namespace Wormholes

/-- The NFT part of an account. -/
structure AccountNFT where
  name : GoString
  symbol : GoString
  owner : Address
  nftApproveAddressList : Address
  mergeLevel : ℕ
  creator : Address
  royalty : ℕ
  exchanger : Address
  metaURL : GoString
deriving DecidableEq

/-- The NFT part of an account that holds no NFT. -/
def AccountNFT.blank : AccountNFT where
  name := []
  symbol := []
  owner := 0
  nftApproveAddressList := 0
  mergeLevel := 0
  creator := 0
  royalty := 0
  exchanger := 0
  metaURL := []

/-- An account and its life-cycle flag. -/
structure StateObject where
  nonce : ℕ
  balance : ℤ
  code : GoString
  storage : ℕ → ℕ
  pledgedBalance : Option ℤ
  exchangerFlag : Bool
  blockNumber : Option ℕ
  exchangerBalance : Option ℤ
  voteWeight : Option ℤ
  feeRate : ℕ
  exchangerName : GoString
  exchangerURL : GoString
  approveAddressList : List Address
  nft : AccountNFT
  suicided : Bool

namespace StateObject

/-- `newObject` on the empty account. -/
def fresh : StateObject where
  nonce := 0
  balance := 0
  code := []
  storage := fun _ => 0
  pledgedBalance := none
  exchangerFlag := false
  blockNumber := none
  exchangerBalance := none
  voteWeight := none
  feeRate := 0
  exchangerName := []
  exchangerURL := []
  approveAddressList := []
  nft := AccountNFT.blank
  suicided := false

/-- The length of the approved address of an NFT: the code takes `len` of a twenty-byte array
where the field was once a list. -/
def nftApproveAddressLen : ℕ := 20

/-- Whether the code considers an account empty. -/
def empty (o : StateObject) : Bool :=
  o.nonce = 0 && o.balance = 0 && o.code = [] && o.pledgedBalance = none && !o.exchangerFlag &&
    o.blockNumber = none && o.feeRate = 0 && o.exchangerName = [] && o.exchangerURL = [] &&
    o.approveAddressList = [] && o.nft.name = [] && o.nft.symbol = [] && o.nft.owner = 0 &&
    nftApproveAddressLen = 0 && o.nft.mergeLevel = 0 && o.nft.creator = 0 && o.nft.royalty = 0 &&
    o.nft.exchanger = 0 && o.nft.metaURL = []

def isApproveAddress (o : StateObject) (a : Address) : Bool := o.approveAddressList.contains a

def isNFTApproveAddress (o : StateObject) (a : Address) : Bool := a = o.nft.nftApproveAddressList

end StateObject

/-! ## The journal -/

/-- The accounts of a state. -/
abbrev Accounts := Address → Option StateObject

/-- The accounts with the one at `a` replaced. -/
def Accounts.set (m : Accounts) (a : Address) (o : Option StateObject) : Accounts :=
  fun x => if x = a then o else m x

/-- One undoable change of an account, with the overwritten value. -/
inductive JournalEntry where
  | createObjectChange (account : Address)
  | resetObjectChange (account : Address) (prev : StateObject)
  | suicideChange (account : Address) (prev : Bool) (prevbalance : ℤ)
  | balanceChange (account : Address) (prev : ℤ)
  | nonceChange (account : Address) (prev : ℕ)
  | storageChange (account : Address) (key prevalue : ℕ)
  | codeChange (account : Address) (prevcode : GoString)
  | touchChange (account : Address)
  | nftOwnerChange (nftAddr : Address) (oldOwner : Address)
  | nftApproveAddressChange (nftAddr : Address) (oldApproveAddressList : List Address)
  | nftApproveAddressChangeOne (nftAddr : Address) (oldNFTApproveAddressList : Address)
  | openExchangerChange (address : Address) (oldExchangerFlag : Bool) (oldBlockNumber : Option ℕ)
      (oldFeeRate : ℕ) (oldExchangerName oldExchangerURL : GoString)
  | nftInfoChange (address : Address) (old : AccountNFT)
  | pledgedBalanceChange (account : Address) (prev : ℤ)
  | exchangerBalanceChange (account : Address) (prev : ℤ)
  | voteWeightChange (account : Address) (prev : ℤ)

namespace JournalEntry

/-- The write-back of an entry that changes one existing account. -/
def restore (m : Accounts) (a : Address) (f : StateObject → StateObject) : Option Accounts :=
  match m a with
  | none => none
  | some o => some (m.set a (some (f o)))

/-- Undoes one entry. -/
def revert (e : JournalEntry) (m : Accounts) : Option Accounts :=
  match e with
  | createObjectChange a => some (m.set a none)
  | resetObjectChange a prev => some (m.set a (some prev))
  | suicideChange a prev prevbalance =>
    match m a with
    | none => some m
    | some o => some (m.set a (some { o with suicided := prev, balance := prevbalance }))
  | balanceChange a prev => restore m a fun o => { o with balance := prev }
  | nonceChange a prev => restore m a fun o => { o with nonce := prev }
  | storageChange a key prevalue =>
    restore m a fun o => { o with storage := fun k => if k = key then prevalue else o.storage k }
  | codeChange a prevcode => restore m a fun o => { o with code := prevcode }
  | touchChange _ => some m
  | nftOwnerChange a old => restore m a fun o => { o with nft := { o.nft with owner := old } }
  | nftApproveAddressChange a old => restore m a fun o => { o with approveAddressList := old }
  | nftApproveAddressChangeOne a old =>
    restore m a fun o => { o with nft := { o.nft with nftApproveAddressList := old } }
  | openExchangerChange a flag block fee name url =>
    restore m a fun o =>
      { o with
        exchangerFlag := flag, blockNumber := block, feeRate := fee, exchangerName := name,
        exchangerURL := url }
  | nftInfoChange a old => restore m a fun o => { o with nft := old }
  | pledgedBalanceChange a prev => restore m a fun o => { o with pledgedBalance := some prev }
  | exchangerBalanceChange a prev => restore m a fun o => { o with exchangerBalance := some prev }
  | voteWeightChange a prev => restore m a fun o => { o with voteWeight := some prev }

/-- The account an entry marks as touched. Writing a fresh account over an old one marks none. -/
def dirtied : JournalEntry → Option Address
  | createObjectChange a => some a
  | resetObjectChange _ _ => none
  | suicideChange a _ _ => some a
  | balanceChange a _ => some a
  | nonceChange a _ => some a
  | storageChange a _ _ => some a
  | codeChange a _ => some a
  | touchChange a => some a
  | nftOwnerChange a _ => some a
  | nftApproveAddressChange a _ => some a
  | nftApproveAddressChangeOne a _ => some a
  | openExchangerChange a _ _ _ _ _ => some a
  | nftInfoChange a _ => some a
  | pledgedBalanceChange a _ => some a
  | exchangerBalanceChange a _ => some a
  | voteWeightChange a _ => some a

end JournalEntry

end Wormholes
