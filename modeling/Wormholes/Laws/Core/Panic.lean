import Wormholes.Laws.Core.HandleNFT
import Wormholes.Laws.State.Handover
import Wormholes.Laws.State.Writes

/-!
# Laws.Core.Panic — when a wormholes payload panics

A panic ends the node. `Safe` says of a state and a payload, before it is handled, that none occurs:
the signatures that are read decode, a sale that passes its checks finds a vote weight at the account
it pays the fee to and can hand its NFT over, an exchanger that closes was opened, a batch's start
index is a number, a stake that grows exists. `handleNFT_eq_panic_iff` says that nothing else
panics and that each of these does.
-/

namespace Wormholes.Core

open Common StateDB

variable {K : Crypto} {db t : StateDB} {blocknumber : ℕ} {caller addr : Address} {w : WormholesTx}
  {value : ℕ}
variable {sig text : GoString} {nftAddress buyerExchanger a : Address} {paid : StateDB}
  {l : List Address} {H : Hasher} {level : ℕ} {x : ℤ}

/-! ## Signatures -/

/-- A signature's text has an even number of hexadecimal digits, or no `0x` at all. -/
def SigText (sig : GoString) : Prop :=
  has0xPrefix sig = true →
    (sig.drop 2).length % 2 = 0 ∧ (sig.drop 2).all (fun c => (fromHexChar c).isSome) = true

/-- The signatures of a payload with the texts they sign, in the order in which they are read. -/
def signatures (w : WormholesTx) : List (GoString × GoString) :=
  let mintSeller := (mintSellerMsg w.seller2, w.seller2.sig)
  let exchanger := (exchangerMsg w.exchangerAuth, w.exchangerAuth.sig)
  match w.type with
  | 14 => [(buyerMsg w.buyer, w.buyer.sig)]
  | 15 => [(tradeMsg w.seller1, w.seller1.sig)]
  | 16 => [mintSeller]
  | 17 => [(mintBuyerMsg w.buyer, w.buyer.sig), mintSeller]
  | 18 => [(buyerMsg w.buyer, w.buyer.sig), exchanger]
  | 19 => [(mintBuyerMsg w.buyer, w.buyer.sig), mintSeller, exchanger]
  | 20 => [(tradeMsg w.buyer, w.buyer.sig), (tradeMsg w.seller1, w.seller1.sig)]
  | 24 => [exchanger]
  | _ => []

/-- Every signature that is read decodes; the ones after a refused one are not read. -/
def Decodes (K : Crypto) : List (GoString × GoString) → Prop
  | [] => True
  | (msg, sig) :: rest => SigText sig ∧ ∀ a, recoverAddress K msg sig = .ok a → Decodes K rest

theorem mustDecode_eq_panic_iff :
    mustDecode sig = .panic ↔
      ¬ ((sig.drop 2).length % 2 = 0 ∧ (sig.drop 2).all (fun c => (fromHexChar c).isSome) = true) := by
  simp only [mustDecode]
  split
  next h => exact ⟨fun h' => (by cases h'), fun h' => absurd h h'⟩
  next h => exact ⟨fun _ => h, fun _ => rfl⟩

/-- Only the hexadecimal text of a signature can panic; a signature of any bytes is an error at worst. -/
theorem recoverAddress_eq_panic_iff {msg : GoString} :
    recoverAddress K msg sig = .panic ↔ ¬ SigText sig := by
  simp only [recoverAddress, Res.bind_eq_panic, Res.require_ne_panic, Res.require_eq_ok,
    mustDecode_eq_panic_iff, false_or]
  constructor
  · rintro ⟨-, h0x, hnot | ⟨bytes, -, -, -, -, -, hmatch⟩⟩ hsig
    · exact hnot (hsig h0x)
    · split at hmatch <;> cases hmatch
  · intro h
    obtain ⟨h0x, hnot⟩ := Classical.not_imp.mp h
    exact ⟨(), h0x, Or.inl hnot⟩

/-! ## Checks -/

theorem parse0x_ne_panic {msg : String} : parse0x text msg ≠ .panic := by
  unfold parse0x
  split
  · split <;> simp
  · simp

theorem getNftAddressAndLevel_ne_panic : getNftAddressAndLevel text ≠ .panic := by
  unfold getNftAddressAndLevel
  split
  · simp
  · split <;> simp

theorem mintTerms_ne_panic {exchanger : Address} : mintTerms w exchanger ≠ .panic := by
  simp [mintTerms, Res.bind_eq_panic, parse0x_ne_panic]

theorem mintAmounts_ne_panic : mintAmounts w value ≠ .panic := by
  simp [mintAmounts, Res.bind_eq_panic, parse0x_ne_panic]

theorem sellerBeneficiary_ne_panic {nftOwner : Address} :
    sellerBeneficiary K db caller nftAddress nftOwner buyerExchanger ≠ .panic := by
  simp only [sellerBeneficiary]
  split_ifs <;> simp

theorem approvedBeneficiary_ne_panic {originalExchanger : Address} :
    approvedBeneficiary K db nftAddress originalExchanger ≠ .panic := by
  simp only [approvedBeneficiary]
  split_ifs <;> simp

theorem matchBeneficiary_ne_panic {sellerExchanger : Address} :
    matchBeneficiary db caller nftAddress buyerExchanger sellerExchanger ≠ .panic := by
  simp only [matchBeneficiary]
  split_ifs <;> simp

/-- The checks of the four sales of an existing NFT, by the type of the payload. -/
def checkedSale (K : Crypto) (db : StateDB) (blocknumber : ℕ) (caller recipient : Address)
    (w : WormholesTx) (amount : ℕ) : Res Sale :=
  match w.type with
  | 14 => buyNFTBySellerOrExchangerChecks K db blocknumber caller recipient w amount
  | 15 => buyNFTByBuyerChecks K db blocknumber caller w amount
  | 18 => buyNFTByApproveExchangerChecks K db blocknumber caller recipient w amount
  | 20 => buyNFTByExchangerChecks K db blocknumber caller recipient w amount
  | _ => .err "not exist nft type"

/-- The checks of the three sales that mint, by the type of the payload. -/
def checkedMint (K : Crypto) (db : StateDB) (blocknumber : ℕ) (caller recipient : Address)
    (w : WormholesTx) (amount : ℕ) : Res MintSale :=
  match w.type with
  | 16 => buyAndMintNFTByBuyerChecks K db blocknumber caller w amount
  | 17 => buyAndMintNFTByExchangerChecks K db blocknumber caller recipient w amount
  | 19 => buyAndMintNFTByApprovedExchangerChecks K db blocknumber caller recipient w amount
  | _ => .err "not exist nft type"

section Sales

variable (htype : w.type = 14 ∨ w.type = 15 ∨ w.type = 18 ∨ w.type = 20)
include htype

/-- A sale is its checks and then its settlement. -/
theorem handleNFT_sale : handleNFT K db blocknumber caller addr w value =
    (checkValue value >>= fun _ => checkedSale K db blocknumber caller addr w value >>= fun p =>
      Res.ofOption (p.settle K.toHasher db value)) := by
  rcases htype with htype | htype | htype | htype
  all_goals
    simp only [handleNFT, htype, checkedSale]
    rfl

/-- Of the checks of a sale only the decoding of its signatures panics. -/
theorem checkedSale_eq_panic_iff :
    checkedSale K db blocknumber caller addr w value = .panic ↔ ¬ Decodes K (signatures w) := by
  rcases htype with htype | htype | htype | htype <;>
  simp [checkedSale, htype, buyNFTBySellerOrExchangerChecks, buyNFTByBuyerChecks,
    buyNFTByApproveExchangerChecks, buyNFTByExchangerChecks, signatures, Decodes, Res.bind_eq_panic,
    parse0x_ne_panic,
    getNftAddressAndLevel_ne_panic, sellerBeneficiary_ne_panic, approvedBeneficiary_ne_panic,
    matchBeneficiary_ne_panic, recoverAddress_eq_panic_iff, -not_and, Classical.not_and_iff_not_or_not]

end Sales

section MintSales

variable (htype : w.type = 16 ∨ w.type = 17 ∨ w.type = 19)
include htype

theorem handleNFT_mintSale : handleNFT K db blocknumber caller addr w value =
    (checkValue value >>= fun _ => checkedMint K db blocknumber caller addr w value >>= fun p =>
      Res.ofOption (p.settle K.toHasher db w.seller2.metaURL value)) := by
  rcases htype with htype | htype | htype
  all_goals
    simp only [handleNFT, htype, checkedMint]
    rfl

/-- The checks of a mint sale panic at a signature that cannot be decoded and nowhere else. -/
theorem checkedMint_eq_panic_iff :
    checkedMint K db blocknumber caller addr w value = .panic ↔ ¬ Decodes K (signatures w) := by
  rcases htype with htype | htype | htype <;>
  simp [checkedMint, htype, buyAndMintNFTByBuyerChecks, buyAndMintNFTByExchangerChecks,
    buyAndMintNFTByApprovedExchangerChecks, signatures, Decodes, Res.bind_eq_panic, parse0x_ne_panic,
    mintTerms_ne_panic, mintAmounts_ne_panic, recoverAddress_eq_panic_iff, -not_and,
    Classical.not_and_iff_not_or_not]

end MintSales

/-! ## Settlement -/

/-- The merge levels of a state leave the texts of official addresses a digit, and address zero has
no NFT of the level below the root. -/
structure Levels (db : StateDB) : Prop where
  official : ∀ a, isOfficialNFT a = true → (nftAt db a).mergeLevel ≤ 39
  top : (nftAt db 0).mergeLevel ≠ 39

theorem Levels.of_parts (h : Levels db) (hparts : nftAt t = nftAt db) : Levels t :=
  ⟨by rw [hparts]; exact h.official, by rw [hparts]; exact h.top⟩

theorem Levels.written (h : Levels db) (a : Address) {i : AccountNFT} (hi : i.mergeLevel = 0) :
    Levels (db.written a i) := by
  refine ⟨fun b hb => ?_, ?_⟩
  · rw [nftAt_written, Function.update_apply]
    split
    · omega
    · exact h.official b hb
  · rw [nftAt_written, Function.update_apply]
    split
    · omega
    · exact h.top

/-- The account the fee goes to has a vote weight, and the NFT can be handed over once the accounts
of the parties are opened. -/
def Sale.Settles (H : Hasher) (db : StateDB) (p : Sale) : Prop :=
  view (·.voteWeight) db p.beneficiary ≠ none ∧
    HandoverSafe H
      (db.opened [p.buyer, p.seller, db.getNFTCreator p.nftAddress, p.beneficiary, p.nftAddress])
      p.nftAddress p.buyer p.level

/-- The exchanger has a vote weight that the mint does not overwrite, and the NFT that is minted can
be handed over once the accounts of the parties are opened. -/
def MintSale.Settles (H : Hasher) (db : StateDB) (metaURL : GoString) (p : MintSale) : Prop :=
  let nftAddress := bigToAddress db.pools.mintDeep.userMint
  (p.exchanger ≠ nftAddress ∧ view (·.voteWeight) db p.exchanger ≠ none) ∧
    HandoverSafe H
      ((db.createNFTByUser p.exclusive p.seller p.royalty metaURL).1.opened
        [p.buyer, p.seller, p.exchanger, nftAddress])
      nftAddress p.buyer 0

/-- After the last payment and its vote, opening the NFT's account opens what opening all of them
does. -/
theorem sameParts_voted {u : StateDB} {amount : ℤ} (hparts : SameParts (db.opened (l ++ [a])) paid)
    (hvoted : paid.addVoteWeight a amount = some u) (A : Address) :
    SameParts (db.opened (l ++ [a, A])) (u.getOrNewStateObject A).1 := by
  have hu : SameParts (db.opened (l ++ [a])) u := by
    refine SameParts.trans ?_ (sameParts_addVoteWeight hvoted)
    have hagain := hparts.getOrNew a
    simp only [opened, List.foldl_append, List.foldl_cons, List.foldl_nil] at hagain ⊢
    rwa [getOrNewStateObject_of_some (getOrNewStateObject_found _ a)] at hagain
  simpa only [opened, List.foldl_append, List.foldl_cons, List.foldl_nil] using hu.getOrNew A

/-- Adding a vote weight to the account that was paid last, and changing the owner. -/
theorem voted_isSome_iff {A N : Address} {amount : ℕ} (hlevels : Levels db) (hamount : 0 < amount)
    (hsteps : Steps BalanceOnly db paid) (hparts : SameParts (db.opened (l ++ [a])) paid) :
    (match paid.addVoteWeight a amount with
      | none => none
      | some db => changeNFTOwner H db A N level).isSome ↔
      view (·.voteWeight) db a ≠ none ∧ HandoverSafe H (db.opened (l ++ [a, A])) A N level := by
  have hweight := addVoteWeight_isSome_iff (s := paid) (a := a) (x := (amount : ℤ))
  rw [or_iff_right (by omega), hsteps.view_eq (by rintro _ _ _ ⟨_, rfl⟩; rfl)] at hweight
  cases hvoted : paid.addVoteWeight a amount with
  | none =>
    rw [hvoted] at hweight
    exact iff_of_false Bool.false_ne_true fun h => Bool.false_ne_true (hweight.mpr h.1)
  | some u =>
    rw [hvoted] at hweight
    have hopened := sameParts_voted hparts hvoted A
    have hlevels' : Levels u := by
      refine hlevels.of_parts ?_
      rw [← nftAt_getOrNewStateObject A, hopened.parts, nftAt_opened]
    rw [and_iff_right (hweight.mp rfl), ← hopened.handoverSafe_iff]
    exact changeNFTOwner_isSome_iff (hlevels'.official A) hlevels'.top

theorem sameParts_paid (buyer seller creator beneficiary : Address) (x y z w : ℤ) :
    SameParts (db.opened [buyer, seller, creator, beneficiary])
      ((((db.subBalance buyer x).addBalance seller y).addBalance creator z).addBalance beneficiary
        w) := by
  have h₁ := sameParts_subBalance db buyer x
  have h₂ := (h₁.getOrNew seller).trans (sameParts_addBalance _ _ y)
  have h₃ := (h₂.getOrNew creator).trans (sameParts_addBalance _ _ z)
  exact (h₃.getOrNew beneficiary).trans (sameParts_addBalance _ _ w)

theorem Sale.settle_isSome_iff (p : Sale) (hlevels : Levels db) (hvalue : 0 < value) :
    (p.settle H db value).isSome ↔ p.Settles H db :=
  voted_isSome_iff (l := [p.buyer, p.seller, db.getNFTCreator p.nftAddress]) hlevels hvalue
    ((((subBalance_steps _ _ _).trans (addBalance_steps _ _ _)).trans (addBalance_steps _ _ _)).trans
      (addBalance_steps _ _ _)) (sameParts_paid _ _ _ _ _ _ _ _)

theorem voteWeight_written (a b : Address) (i : AccountNFT) :
    view (·.voteWeight) (db.written a i) b =
      if b = a then none else view (·.voteWeight) db b := by
  rw [written, (putNFTInfo_nftWrite _ a i).steps.view_eq (by rintro _ _ _ ⟨_, rfl⟩; rfl)]
  split
  next hb =>
    obtain ⟨x, hx⟩ := createAccount_found db a
    rw [hb, view_of_some _ hx]
    rfl
  next hb =>
    exact (createAccount_steps db a (P := fun c _ _ => c = a) fun _ => rfl).view_eq_at
      fun h => absurd h hb

theorem MintSale.settle_isSome_iff {metaURL : GoString} (p : MintSale) (hlevels : Levels db)
    (hvalue : 0 < value) : (p.settle H db metaURL value).isSome ↔ p.Settles H db metaURL := by
  have hminted : Levels (db.createNFTByUser p.exclusive p.seller p.royalty metaURL).1 :=
    (hlevels.written (bigToAddress db.pools.mintDeep.userMint) rfl).of_parts rfl
  have hweight : view (·.voteWeight) (db.createNFTByUser p.exclusive p.seller p.royalty metaURL).1
      p.exchanger ≠ none ↔ p.exchanger ≠ bigToAddress db.pools.mintDeep.userMint ∧
        view (·.voteWeight) db p.exchanger ≠ none := by
    rw [show view (·.voteWeight) (db.createNFTByUser p.exclusive p.seller p.royalty metaURL).1
      p.exchanger = _ from voteWeight_written _ p.exchanger _]
    split <;> simp_all
  have h₁ := sameParts_subBalance (db.createNFTByUser p.exclusive p.seller p.royalty metaURL).1
    p.buyer value
  have h₂ := (h₁.getOrNew p.seller).trans (sameParts_addBalance _ _ ((value : ℤ) - feeOf value
    ((db.createNFTByUser p.exclusive p.seller p.royalty metaURL).1.getFeeRate p.exchanger)))
  have h₃ := (h₂.getOrNew p.exchanger).trans (sameParts_addBalance _ _ (feeOf value
    ((db.createNFTByUser p.exclusive p.seller p.royalty metaURL).1.getFeeRate p.exchanger)))
  refine (voted_isSome_iff (l := [p.buyer, p.seller]) hminted hvalue
    (((subBalance_steps _ _ _).trans (addBalance_steps _ _ _)).trans (addBalance_steps _ _ _))
      h₃).trans ?_
  exact and_congr hweight Iff.rfl

/-! ## Payloads -/

/-- An account that closes as an exchanger has an opening block, and a stake once it may close. An
account that does not exist counts as opened at block zero. -/
def CloseSafe (db : StateDB) (blocknumber : ℕ) (caller : Address) : Prop :=
  match db.accounts caller with
  | none => blocknumber < closeExchangerInterval
  | some o => ∃ opened, o.blockNumber = some opened ∧
      (opened + closeExchangerInterval ≤ blocknumber → o.exchangerBalance ≠ none)

/-- Handling a payload meets nothing that panics. -/
def Safe (K : Crypto) (db : StateDB) (blocknumber : ℕ) (caller addr : Address) (w : WormholesTx)
    (value : ℕ) : Prop :=
  match w.type with
  | 1 => ∀ nftAddress level, getNftAddressAndLevel w.nftAddress = .ok (nftAddress, level) →
      getNFTOwner16 K.toHasher db nftAddress = caller →
      HandoverSafe K.toHasher (db.opened [nftAddress]) nftAddress addr level
  | 6 => ∀ nftAddress level, getNftAddressAndLevel w.nftAddress = .ok (nftAddress, level) →
      isOfficialNFT nftAddress = true → getNFTOwner16 K.toHasher db nftAddress = caller →
      SplitSafe K.toHasher db nftAddress level
  | 12 => CloseSafe db blocknumber caller
  | 13 => has0xPrefix w.startIndex = true → (bigSetString (w.startIndex.drop 2)).isSome
  | 14 | 15 | 18 | 20 => 0 < value → Decodes K (signatures w) ∧
      ∀ p, checkedSale K db blocknumber caller addr w value = .ok p → p.Settles K.toHasher db
  | 16 | 17 | 19 => 0 < value → Decodes K (signatures w) ∧
      ∀ p, checkedMint K db blocknumber caller addr w value = .ok p →
        p.Settles K.toHasher db w.seller2.metaURL
  | 21 => db.canTransfer caller value = true → value ≠ 0 →
      view (·.exchangerBalance) db caller ≠ none
  | 24 => 0 < w.royalty ∧ w.royalty < 10000 → Decodes K (signatures w)
  | _ => True

/-- An account that is made if absent is the account that is found or made. -/
theorem getOrNew_ensured (db : StateDB) (a : Address) :
    ((if db.exist a then db else db.createAccount a).getOrNewStateObject a).1 = db.opened [a] := by
  unfold opened StateDB.exist
  cases ha : db.getStateObject a with
  | some o => rfl
  | none =>
    have hcreated : db.createAccount a = (db.getOrNewStateObject a).1 := by
      simp [createAccount, getOrNewStateObject, ha]
    have hagain := getOrNewStateObject_of_some (getOrNewStateObject_found db a)
    simp only [Option.isSome_none, Bool.false_eq_true, if_false, hcreated, hagain, List.foldl_cons,
      List.foldl_nil]

theorem nftAt_ensured (db : StateDB) (a : Address) :
    nftAt (if db.exist a then db else db.createAccount a) = nftAt db := by
  have hopened := nftAt_opened db [a]
  rwa [← getOrNew_ensured, nftAt_getOrNewStateObject] at hopened

theorem transferNFT_eq_panic_iff (hlevels : Levels db)
    (hnft : getNftAddressAndLevel w.nftAddress = .ok (nftAddress, level)) :
    transferNFT K.toHasher (if db.exist nftAddress then db else db.createAccount nftAddress)
        w.nftAddress addr = .panic ↔
      ¬ HandoverSafe K.toHasher (db.opened [nftAddress]) nftAddress addr level := by
  have hlevels' := hlevels.of_parts (nftAt_ensured db nftAddress)
  rw [transferNFT, hnft, Res.ok_bind, Res.ofOption_eq_panic, ← Option.not_isSome_iff_eq_none,
    changeNFTOwner_isSome_iff (hlevels'.official nftAddress) hlevels'.top, getOrNew_ensured]

/-- Checks that panic on undecodable signatures only, and a settlement. -/
theorem settled_eq_panic_iff {α : Type} {checks : Res α} {settle : α → Option StateDB} {D : Prop}
    {S : α → Prop} (hchecks : checks = .panic ↔ ¬ D)
    (hsettle : 0 < value → ∀ p, (settle p).isSome ↔ S p) :
    (checkValue value >>= fun _ => checks >>= fun p => Res.ofOption (settle p)) = .panic ↔
      ¬ (0 < value → D ∧ ∀ p, checks = .ok p → S p) := by
  by_cases hvalue : 0 < value
  · have hpaid : checkValue value = .ok () := if_pos hvalue
    simp only [hpaid, Res.ok_bind, Res.bind_eq_panic, Res.ofOption_eq_panic, hchecks, hvalue,
      forall_const, not_and_or, not_forall, exists_prop, ← hsettle hvalue,
      Option.not_isSome_iff_eq_none]
  · have hunpaid : checkValue value = .err "trans amount must be larger than 0" := if_neg hvalue
    rw [hunpaid]
    exact iff_of_false (fun h => by cases h) (not_not_intro fun h => absurd h hvalue)

theorem closeExchanger_eq_none_iff :
    db.closeExchanger caller blocknumber = none ↔
      ∀ opened, (db.getOrNewStateObject caller).2.blockNumber = some opened →
        opened < blocknumber ∧ (db.getOrNewStateObject caller).2.exchangerBalance = none := by
  unfold closeExchanger
  simp only
  cases hopened : (db.getOrNewStateObject caller).2.blockNumber with
  | none => simp
  | some opened =>
    by_cases hlate : blocknumber > opened
    · simp only [if_pos hlate]
      cases hstake : (db.getOrNewStateObject caller).2.exchangerBalance with
      | none => simpa using hlate
      | some amount => simp
    · simp [hlate]

theorem closed_eq_panic_iff :
    (do
      let opened ← Res.ofOption (db.getOpenExchangerTime caller)
      Res.require ((closeExchangerInterval : ℤ) ≤ (blocknumber : ℤ) - opened)
        "too close with openexchanger"
      Res.ofOption (db.closeExchanger caller blocknumber)) = .panic ↔
      ¬ CloseSafe db blocknumber caller := by
  have hinterval : 0 < closeExchangerInterval := by decide
  simp only [Res.bind_eq_panic, Res.ofOption_eq_panic, Res.ofOption_eq_ok, Res.require_ne_panic,
    Res.require_eq_ok, false_or, CloseSafe, getOpenExchangerTime, closeExchanger_eq_none_iff]
  cases hacc : db.accounts caller with
  | none =>
    simp only [getOrNewStateObject, getStateObject, hacc]
    simp [StateObject.fresh]
  | some o =>
    simp only [getOrNewStateObject_of_some hacc, getStateObject, hacc]
    cases o.blockNumber with
    | none => simp
    | some opened =>
      have hlate : ((closeExchangerInterval : ℤ) ≤ (blocknumber : ℤ) - opened ∧ opened < blocknumber) ↔
          opened + closeExchangerInterval ≤ blocknumber := by omega
      simp [← hlate]

/-! Tokens are added to and taken from a stake or a pledge that exists. -/

theorem addExchangerBalance_eq_none_iff :
    db.addExchangerBalance caller x = none ↔
      x ≠ 0 ∧ view (·.exchangerBalance) db caller = none := by
  rw [← field_getOrNewStateObject]
  unfold addExchangerBalance
  by_cases hx : x = 0
  · simp [hx]
  · cases hstake : (db.getOrNewStateObject caller).2.exchangerBalance with
    | none => simp [hx, hstake]
    | some v => simp [hx, hstake]

theorem subPledgedBalance_eq_none_iff :
    db.subPledgedBalance caller x = none ↔ x ≠ 0 ∧ view (·.pledgedBalance) db caller = none := by
  rw [← field_getOrNewStateObject]
  unfold subPledgedBalance
  by_cases hx : x = 0
  · simp [hx]
  · cases hpledge : (db.getOrNewStateObject caller).2.pledgedBalance with
    | none => simp [hx, hpledge]
    | some v => simp [hx, hpledge]

theorem addExchangerToken_eq_none_iff :
    db.addExchangerToken caller value = none ↔
      value ≠ 0 ∧ view (·.exchangerBalance) db caller = none := by
  rw [addExchangerToken, addExchangerBalance_eq_none_iff,
    (staked_steps db caller _ _).view_eq (by rintro _ _ _ ⟨_, rfl⟩; rfl), Nat.cast_ne_zero]

theorem getPledgedBalance_eq_getD :
    db.getPledgedBalance caller = (view (·.pledgedBalance) db caller).getD 0 := by
  unfold getPledgedBalance view getStateObject
  cases db.accounts caller <;> rfl

theorem getExchangerBalance_eq_getD :
    db.getExchangerBalance caller = (view (·.exchangerBalance) db caller).getD 0 := by
  unfold getExchangerBalance view getStateObject
  cases db.accounts caller <;> rfl

theorem cancelPledgedToken_ne_none (h : db.getPledgedBalance caller ≥ value) :
    db.cancelPledgedToken caller value ≠ none := by
  have hview : view (·.pledgedBalance) ((db.getOrNewStateObject caller).1.appendPledge
      ⟨caller, value, false⟩) caller = view (·.pledgedBalance) db caller :=
    view_getOrNewStateObject db caller _ caller
  intro hnone
  have hsub : ((db.getOrNewStateObject caller).1.appendPledge
      ⟨caller, value, false⟩).subPledgedBalance caller value = none := by
    unfold cancelPledgedToken at hnone
    simp only at hnone
    split at hnone
    next hsub => exact hsub
    · cases hnone
  obtain ⟨hvalue, habsent⟩ := subPledgedBalance_eq_none_iff.mp hsub
  rw [getPledgedBalance_eq_getD, ← hview, habsent] at h
  simp only [Option.getD_none] at h
  omega

theorem subExchangerToken_ne_none (h : db.getExchangerBalance caller ≥ value + 100 * baseErb) :
    db.subExchangerToken caller value ≠ none := by
  have hview : view (·.exchangerBalance) ((db.getOrNewStateObject caller).1.appendExchanger
      ⟨caller, value, false⟩) caller = view (·.exchangerBalance) db caller :=
    view_getOrNewStateObject db caller _ caller
  intro hnone
  have hsub : ((db.getOrNewStateObject caller).1.appendExchanger
      ⟨caller, value, false⟩).subExchangerBalance caller value = none := by
    unfold subExchangerToken at hnone
    simp only at hnone
    split at hnone
    next hsub => exact hsub
    · cases hnone
  obtain ⟨-, habsent⟩ := addExchangerBalance_eq_none_iff.mp hsub
  rw [getExchangerBalance_eq_getD, ← hview, habsent] at h
  simp only [Option.getD_none, baseErb] at h
  omega

/-- A wormholes payload panics exactly if it is not safe. -/
theorem handleNFT_eq_panic_iff (hlevels : Levels db) :
    handleNFT K db blocknumber caller addr w value = .panic ↔
      ¬ Safe K db blocknumber caller addr w value := by
  by_cases hsale : w.type = 14 ∨ w.type = 15 ∨ w.type = 18 ∨ w.type = 20
  · rw [handleNFT_sale hsale, settled_eq_panic_iff (checkedSale_eq_panic_iff hsale)
      fun hvalue p => p.settle_isSome_iff hlevels hvalue]
    rcases hsale with htype | htype | htype | htype <;> simp only [Safe, htype]
  by_cases hmint : w.type = 16 ∨ w.type = 17 ∨ w.type = 19
  · rw [handleNFT_mintSale hmint, settled_eq_panic_iff (checkedMint_eq_panic_iff hmint)
      fun hvalue p => p.settle_isSome_iff hlevels hvalue]
    rcases hmint with htype | htype | htype <;> simp only [Safe, htype]
  unfold handleNFT
  split
  next htype =>
    have hexchanger : mintExchanger w.exchanger ≠ .panic := by
      unfold mintExchanger
      split_ifs <;> simp
    simp [Safe, htype, Res.bind_eq_panic, checkRoyalty, hexchanger]
  next htype =>
    simp only [Safe, htype]
    cases hnft : getNftAddressAndLevel w.nftAddress with
    | ok found =>
      obtain ⟨nftAddress, level⟩ := found
      simp [Res.ok_bind, Res.bind_eq_panic, verifyNFTOwner, hnft, Res.require_eq_ok,
        transferNFT_eq_panic_iff hlevels hnft]
    | err msg => simp [Res.err_bind]
    | panic => exact absurd hnft getNftAddressAndLevel_ne_panic
  next htype => simp [Safe, htype, Res.bind_eq_panic, getNftAddressAndLevel_ne_panic]
  next htype => simp [Safe, htype, Res.bind_eq_panic, getNftAddressAndLevel_ne_panic]
  next htype => simp [Safe, htype, Res.bind_eq_panic]
  next htype => simp [Safe, htype]
  next htype =>
    simp only [Safe, htype]
    cases hnft : getNftAddressAndLevel w.nftAddress with
    | ok found =>
      obtain ⟨nftAddress, level⟩ := found
      by_cases hoff : isOfficialNFT nftAddress = true
      · have hexchange : exchangeNFTToCurrency K.toHasher db caller nftAddress blocknumber level =
            none ↔ ¬ SplitSafe K.toHasher db nftAddress level := by
          rw [← exchangeNFTToCurrency_isSome_iff hoff, Option.not_isSome_iff_eq_none]
        simp [Res.ok_bind, Res.bind_eq_panic, Res.require_eq_ok, Res.ofOption_eq_panic, hoff,
          hexchange]
      · simp [Res.ok_bind, Res.bind_eq_panic, Res.require_eq_ok, hoff]
    | err msg => simp [Res.err_bind]
    | panic => exact absurd hnft getNftAddressAndLevel_ne_panic
  next htype => simp [Safe, htype]
  next htype => simp [Safe, htype]
  next htype => simp [Safe, htype, Res.bind_eq_panic]
  next htype =>
    simp only [Safe, htype, Res.bind_eq_panic, Res.require_ne_panic, Res.require_eq_ok,
      Res.ofOption_eq_panic, false_or, not_true_eq_false, iff_false]
    rintro ⟨-, hfunds, hnone⟩
    exact cancelPledgedToken_ne_none hfunds hnone
  next htype => simp [Safe, htype, Res.bind_eq_panic]
  next htype =>
    simp only [Safe, htype]
    exact closed_eq_panic_iff
  next htype =>
    simp [Safe, htype, Res.bind_eq_panic, Res.require_eq_ok, Res.ofOption_eq_panic]
  next htype => simp [htype] at hsale
  next htype => simp [htype] at hsale
  next htype => simp [htype] at hmint
  next htype => simp [htype] at hmint
  next htype => simp [htype] at hsale
  next htype => simp [htype] at hmint
  next htype => simp [htype] at hsale
  next htype =>
    simp [Safe, htype, Res.bind_eq_panic, Res.require_eq_ok, Res.ofOption_eq_panic,
      addExchangerToken_eq_none_iff]
  next htype =>
    simp only [Safe, htype, Res.bind_eq_panic, Res.require_ne_panic, Res.require_eq_ok,
      Res.ofOption_eq_panic, false_or, not_true_eq_false, iff_false]
    rintro ⟨-, hfunds, hnone⟩
    exact subExchangerToken_ne_none hfunds hnone
  next htype => simp [Safe, htype, Res.bind_eq_panic, checkRoyalty]
  next htype =>
    simp [Safe, htype, Res.bind_eq_panic, checkRoyalty, voteOfficialNFTByApprovedExchanger,
      Res.bind_eq_ok, Res.require_eq_ok, parse0x_ne_panic, recoverAddress_eq_panic_iff, signatures,
      Decodes, and_assoc]
  next htype => simp [Safe, htype, Res.bind_eq_panic]
  next => simp [Safe]

end Wormholes.Core
