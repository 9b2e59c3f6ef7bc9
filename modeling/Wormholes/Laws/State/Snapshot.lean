import Wormholes.State.Snapshot
import Wormholes.Laws.Common.Encoding

/-!
# Laws.State.Snapshot — the snapshot and the trie hold the same account

An account read back from its encoding is `readBack` of it: nil integers are zero and no slice is
nil (`ofItem_item`). The slim form leaves out the empty root and the empty code hash, and both readers
of it put them back, so loading from the snapshot gives what loading from the trie gives, and filling
the slim bytes gives the trie's bytes.

Premises: the account has a code hash that is not empty and a root that is not zero, as `newObject`
leaves them, and `updateStateObject` wrote it.
-/

namespace Wormholes.Snapshot

open Lib Common Rlp

variable {x : Item} {R : Type} {slim : List ℕ}

/-! ## Reading an account back -/

/-- The NFT part as it is read back. -/
def AccountNFT.readBack (n : AccountNFT) : AccountNFT := { n with price := some (n.price.getD 0) }

/-- An account as it is read back: nil integers are zero, no slice is nil. -/
def AccountOf.readBack {R : Type} (a : AccountOf R) : AccountOf R :=
  { a with
    balance := some (a.balance.getD 0)
    codeHash := some (content a.codeHash)
    pledgedBalance := some (a.pledgedBalance.getD 0)
    blockNumber := some (a.blockNumber.getD 0)
    exchangerBalance := some (a.exchangerBalance.getD 0)
    voteWeight := some (a.voteWeight.getD 0)
    nft := a.nft.readBack }

theorem AccountNFT.ofItem_item {n : AccountNFT} (h : n.item = some x) :
    ofItem x = some n.readBack := by
  obtain ⟨price, hprice, hx⟩ := Option.bind_eq_some_iff.mp h
  cases hx
  simp [ofItem, readBack, asBig_bigItem hprice]

theorem AccountOf.ofItem_item {write : R → Item} {read : Item → Option R} {a : AccountOf R} {r : R}
    (h : a.item write = some x) (hread : read (write a.root) = some r) :
    ofItem read x = some { a.readBack with root := r } := by
  obtain ⟨balance, hbalance, h⟩ := Option.bind_eq_some_iff.mp h
  obtain ⟨pledged, hpledged, h⟩ := Option.bind_eq_some_iff.mp h
  obtain ⟨number, hnumber, h⟩ := Option.bind_eq_some_iff.mp h
  obtain ⟨exchanger, hexchanger, h⟩ := Option.bind_eq_some_iff.mp h
  obtain ⟨weight, hweight, h⟩ := Option.bind_eq_some_iff.mp h
  obtain ⟨nft, hnft, hx⟩ := Option.bind_eq_some_iff.mp h
  cases hx
  simp [ofItem, readBack, content, hread, asBig_bigItem hbalance, asBig_bigItem hpledged,
    asBig_bigItem hnumber, asBig_bigItem hexchanger, asBig_bigItem hweight,
    AccountNFT.ofItem_item hnft, asListOf_map asAddress_addressItem]

/-! ## Encoding what was read back -/

theorem bigItem_getD (n : Option ℤ) : bigItem (some (n.getD 0)) = bigItem n := by
  cases n <;> rfl

theorem AccountNFT.item_readBack (n : AccountNFT) : n.readBack.item = n.item := by
  simp only [item, readBack, bigItem_getD]

/-- Reading back does not change what is written. -/
theorem AccountOf.item_readBack (write : R → Item) (a : AccountOf R) :
    a.readBack.item write = a.item write := by
  simp only [item, readBack, bigItem_getD, AccountNFT.item_readBack, bytesItem, content,
    Option.getD_some]

/-! ## The slim form -/

section

variable {emptyCode : List ℕ} {a : Account}

/-- The slim form of an account. -/
def slimOf (emptyCode : List ℕ) (a : Account) : Slim where
  nonce := a.nonce
  balance := a.balance
  root := if a.root ≠ emptyRoot then some (hashBytes a.root) else none
  codeHash := if content a.codeHash ≠ emptyCode then a.codeHash else none
  pledgedBalance := a.pledgedBalance
  exchangerFlag := a.exchangerFlag
  blockNumber := a.blockNumber
  exchangerBalance := a.exchangerBalance
  voteWeight := a.voteWeight
  feeRate := a.feeRate
  exchangerName := a.exchangerName
  exchangerURL := a.exchangerURL
  approveAddressList := a.approveAddressList
  nftBalance := a.nftBalance
  nft := a.nft

theorem slimAccountRLP_eq (emptyCode : List ℕ) (a : Account) :
    slimAccountRLP emptyCode a = (slimOf emptyCode a).encodeToBytes := rfl

/-- The root and code hash an account has once `newObject` made it. -/
structure Filled (a : Account) : Prop where
  root : a.root ≠ zeroHash
  codeHash : content a.codeHash ≠ []

theorem newObject_eq (emptyCode : List ℕ) (data : Account) :
    newObject emptyCode data =
      { data with
        balance := some (data.balance.getD 0)
        codeHash := some (data.codeHash.getD emptyCode)
        root := if data.root = zeroHash then emptyRoot else data.root } := by
  obtain ⟨nonce, balance, root, codeHash⟩ := data
  cases balance <;> cases codeHash <;> by_cases hr : root = zeroHash <;> simp [newObject, hr]

theorem newObject_filled {emptyCode : List ℕ} (hempty : emptyCode ≠ []) {data : Account}
    (hdata : data.codeHash ≠ some []) : Filled (newObject emptyCode data) := by
  rw [newObject_eq]
  constructor
  · change (if data.root = zeroHash then emptyRoot else data.root) ≠ zeroHash
    split
    next => decide
    next hr => exact hr
  · cases hc : data.codeHash with
    | none => exact hempty
    | some c => exact fun hnil => hdata (by rw [hc]; exact congrArg some hnil)

/-- A filled account that is read back has nothing left to fill. -/
theorem newObject_readBack (h : Filled a) : newObject emptyCode a.readBack = a.readBack := by
  simp [newObject_eq, AccountOf.readBack, h.root]

/-- The copy of a slim account, with what it fills in. -/
theorem accountOfSlim_eq (emptyCode : List ℕ) (acc : Slim) :
    accountOfSlim emptyCode acc =
      { nonce := acc.nonce
        balance := acc.balance
        root := if bytesToHash (content acc.root) = zeroHash then emptyRoot
          else bytesToHash (content acc.root)
        codeHash := if content acc.codeHash = [] then some emptyCode else acc.codeHash
        pledgedBalance := acc.pledgedBalance
        exchangerFlag := acc.exchangerFlag
        blockNumber := acc.blockNumber
        exchangerBalance := acc.exchangerBalance
        voteWeight := acc.voteWeight
        feeRate := acc.feeRate
        exchangerName := acc.exchangerName
        exchangerURL := acc.exchangerURL
        approveAddressList := acc.approveAddressList
        nftBalance := acc.nftBalance
        nft := acc.nft } := by
  by_cases hc : content acc.codeHash = [] <;> by_cases hr : bytesToHash (content acc.root) = zeroHash <;>
    simp [accountOfSlim, hc, hr]

/-- The slim form as it is read back. -/
def slimBack (emptyCode : List ℕ) (a : Account) : Slim :=
  { (slimOf emptyCode a).readBack with root := some (content (slimOf emptyCode a).root) }

/-- What the readers of the slim form make of its code hash. -/
theorem fill_codeHash (h : Filled a) :
    (if content (slimBack emptyCode a).codeHash = [] then some emptyCode
      else (slimBack emptyCode a).codeHash) = some (content a.codeHash) := by
  by_cases hc : content a.codeHash = emptyCode
  · simp only [content] at hc
    simp [slimBack, slimOf, AccountOf.readBack, hc, content]
  · have hne := h.codeHash
    simp only [content] at hc hne
    simp [slimBack, slimOf, AccountOf.readBack, hc, hne, content]

/-- What the readers of the slim form make of its root. -/
theorem fill_root (emptyCode : List ℕ) (a : Account) :
    (if content (slimBack emptyCode a).root = [] then some (hashBytes emptyRoot)
      else (slimBack emptyCode a).root) = some (hashBytes a.root) := by
  by_cases hr : a.root = emptyRoot
  · simp [slimBack, slimOf, hr, content]
  · have hne : hashBytes a.root ≠ [] := by
      intro hnil
      have hlen := length_hashBytes a.root
      rw [hnil] at hlen
      cases hlen
    simp [slimBack, slimOf, hr, content, hne]

theorem accountOfSlim_slimBack (h : Filled a) :
    accountOfSlim emptyCode (slimBack emptyCode a) = a.readBack := by
  rw [accountOfSlim_eq, fill_codeHash h]
  by_cases hr : a.root = emptyRoot
  · have hzero : bytesToHash [] = zeroHash := rfl
    simp [slimBack, slimOf, AccountOf.readBack, hr, content, hzero]
  · have hne := h.root
    simp [slimBack, slimOf, AccountOf.readBack, hr, content, hne]

theorem fullAccount_eq (emptyCode : List ℕ) (data : List ℕ) :
    fullAccount emptyCode data = (Slim.decodeBytes data).map fun acc =>
      { acc with
        root := if content acc.root = [] then some (hashBytes emptyRoot) else acc.root
        codeHash := if content acc.codeHash = [] then some emptyCode else acc.codeHash } := by
  unfold fullAccount
  cases Slim.decodeBytes data with
  | none => rfl
  | some acc =>
    by_cases hr : content acc.root = [] <;> by_cases hc : content acc.codeHash = [] <;>
      simp [hr, hc]

/-- The filled slim form is written as the account in the trie is. -/
theorem fullAccountRLP_eq (h : Filled a)
    (hslim : Slim.decodeBytes slim = some (slimBack emptyCode a)) :
    fullAccountRLP emptyCode slim = Account.encodeToBytes a := by
  rw [fullAccountRLP, fullAccount_eq, hslim, Option.map_some, fill_root, fill_codeHash h,
    Option.bind_some, Slim.encodeToBytes, Account.encodeToBytes, ← AccountOf.item_readBack hashItem a]
  simp only [AccountOf.item, AccountOf.readBack, slimBack, slimOf, bytesItem, hashItem,
    Option.getD_some]

/-! ## Agreement -/

theorem encodeToBytes_ne_nil {bs : List ℕ} (h : Rlp.encodeToBytes x = some bs) : bs ≠ [] := by
  rw [Rlp.encodeToBytes] at h
  split at h
  next =>
    cases h
    exact encode_ne_nil x
  next => cases h

theorem decode_encode_account {enc : List ℕ} (h : Account.encodeToBytes a = some enc) :
    Account.decodeBytes enc = some a.readBack ∧ enc ≠ [] := by
  obtain ⟨x, hx, henc⟩ := Option.bind_eq_some_iff.mp h
  refine ⟨?_, encodeToBytes_ne_nil henc⟩
  rw [Account.decodeBytes, decodeBytes_of_encodeToBytes henc, Option.bind_some,
    AccountOf.ofItem_item hx (asHash_hashItem a.root)]
  rfl

theorem decode_encode_slim (h : slimAccountRLP emptyCode a = some slim) :
    Slim.decodeBytes slim = some (slimBack emptyCode a) ∧ slim ≠ [] := by
  rw [slimAccountRLP_eq] at h
  obtain ⟨x, hx, henc⟩ := Option.bind_eq_some_iff.mp h
  refine ⟨?_, encodeToBytes_ne_nil henc⟩
  rw [Slim.decodeBytes, decodeBytes_of_encodeToBytes henc, Option.bind_some,
    AccountOf.ofItem_item hx (asBytes_bytesItem _)]
  rfl

end

/-- **The snapshot and the trie agree.** Whatever account `updateStateObject` writes, loading it from
the slim bytes and from the trie's bytes gives the same account, which is the one written with nil read
as zero; and filling the slim bytes gives the trie's bytes. -/
theorem snapshot_agrees_with_trie (emptyCode : List ℕ) {a : Account} (h : Filled a)
    {enc slim : List ℕ} (hw : updateStateObject emptyCode a = some (enc, slim)) :
    loadFromSnapshot emptyCode slim = loadFromTrie emptyCode enc ∧
      loadFromTrie emptyCode enc = some a.readBack ∧ fullAccountRLP emptyCode slim = some enc := by
  obtain ⟨enc', henc, hw⟩ := Option.bind_eq_some_iff.mp hw
  obtain ⟨slim', hslim, hw⟩ := Option.bind_eq_some_iff.mp hw
  cases hw
  obtain ⟨hdec, hne⟩ := decode_encode_account henc
  obtain ⟨hslimDec, hslimNe⟩ := decode_encode_slim hslim
  have htrie : loadFromTrie emptyCode enc = some a.readBack := by
    rw [loadFromTrie, if_neg (by simpa using hne), hdec]
    exact congrArg some (newObject_readBack h)
  have hsnap : loadFromSnapshot emptyCode slim = some a.readBack := by
    rw [loadFromSnapshot, if_neg (by simpa using hslimNe), hslimDec]
    simp only [accountOfSlim_slimBack h, newObject_readBack h]
  refine ⟨hsnap.trans htrie.symm, htrie, ?_⟩
  rw [fullAccountRLP_eq h hslimDec, henc]

/-- An exchanger with code, storage, two approvals and an NFT of its own; no two fields agree. -/
def exchangerAccount : Account where
  nonce := 1
  balance := some 1000
  root := 0x77
  codeHash := some [9]
  pledgedBalance := some 200
  exchangerFlag := true
  blockNumber := some 12
  exchangerBalance := some 300
  voteWeight := some 40
  feeRate := 50
  exchangerName := "ex".toList
  exchangerURL := "url".toList
  approveAddressList := [0xa1, 0xa2]
  nftBalance := 2
  nft := ⟨"name".toList, "sym".toList, some 6, 3, 0xb1, 0xb2, 4, 0xb3, 70, 0xb4, "/ipfs".toList⟩

/-- The exchanger's account is written, and loads from both forms as it was. -/
theorem snapshot_agrees_exchanger : ∃ enc slim,
    updateStateObject [7] exchangerAccount = some (enc, slim) ∧
      loadFromSnapshot [7] slim = some exchangerAccount ∧
        loadFromTrie [7] enc = some exchangerAccount := by
  have hw : (updateStateObject [7] exchangerAccount).isSome = true := by decide +kernel
  obtain ⟨⟨enc, slim⟩, hw⟩ := Option.isSome_iff_exists.mp hw
  have hfilled : Filled exchangerAccount := ⟨by decide, by decide⟩
  obtain ⟨hsame, htrie, -⟩ := snapshot_agrees_with_trie [7] hfilled hw
  exact ⟨enc, slim, hw, hsame.trans htrie, htrie⟩

end Wormholes.Snapshot
