import Wormholes.Core.HandleNFT
import Wormholes.Laws.State.Account

/-!
# Laws.Core.HandleNFT — what a successful wormholes transaction did

`handleNFT_inv` says once what each transaction type can do: the state function it ended in, and
of its checks those that later proofs use. The four sales of an existing NFT share one case: they
differ in the authority they were checked against (`SaleAuthority`).
-/

namespace Wormholes.Core

open Common StateDB

variable {K : Crypto} {db t : StateDB} {blocknumber : ℕ} {caller addr : Address} {w : WormholesTx}
  {value : ℕ}
variable {nftAddress beneficiary exchanger buyer seller : Address} {amount : ℕ} {x y z : ℤ}
  {paid : StateDB}
variable {exclusive a creator : Address} {royalty : ℕ} {H : Hasher} {o o' : StateObject} {u : ℤ}

/-- The NFT a transaction hands over, its level, and who gets it. -/
def handedOver (caller addr : Address) (w : WormholesTx) : Option (Address × ℕ × Address) :=
  let named (text : GoString) (newOwner : Address) : Option (Address × ℕ × Address) :=
    match getNftAddressAndLevel text with
    | .ok (nftAddress, level) => some (nftAddress, level, newOwner)
    | _ => none
  match w.type with
  | 1 => named w.nftAddress addr
  | 14 | 18 => named w.buyer.nftAddress addr
  | 15 => named w.seller1.nftAddress caller
  | 20 => named w.seller1.nftAddress addr
  | _ => none

/-- The NFT that a sale of an existing NFT is about, and who is paid the fee. -/
def saleTerms (K : Crypto) (db : StateDB) (caller : Address) (w : WormholesTx) :
    Option (Address × Address) :=
  let terms (text : GoString) (beneficiary : Address → Res Address) : Option (Address × Address) :=
    match getNftAddressAndLevel text with
    | .ok (nftAddress, _) =>
      match beneficiary nftAddress with
      | .ok b => some (nftAddress, b)
      | _ => none
    | _ => none
  match w.type with
  | 14 => terms w.buyer.nftAddress fun nftAddress =>
      sellerBeneficiary K db caller nftAddress (getNFTOwner16 K.toHasher db nftAddress)
        (hexToAddress w.buyer.exchanger)
  | 15 => terms w.seller1.nftAddress fun nftAddress =>
      .ok (if db.getNFTExchanger nftAddress ≠ 0 then db.getNFTExchanger nftAddress
        else hexToAddress w.seller1.exchanger)
  | 18 =>
    match recoverAddress K (exchangerMsg w.exchangerAuth) w.exchangerAuth.sig with
    | .ok exchanger => terms w.buyer.nftAddress fun nftAddress =>
        approvedBeneficiary K db nftAddress exchanger
    | _ => none
  | 20 => terms w.seller1.nftAddress fun nftAddress =>
      matchBeneficiary db caller nftAddress (hexToAddress w.buyer.exchanger)
        (hexToAddress w.seller1.exchanger)
  | _ => none

/-- A number written with a `0x` that a block number has not passed. -/
def Unexpired (blocknumber : ℕ) (text : GoString) : Prop :=
  ∃ msg n, parse0x text msg = .ok n ∧ (blocknumber : ℤ) ≤ n

/-- What a sale of an existing NFT was allowed by. -/
inductive SaleAuthority (K : Crypto) (db : StateDB) (blocknumber : ℕ) (caller : Address)
    (w : WormholesTx) (nftAddress : Address) (level : ℕ) (owner : Address) : Prop
  | owner (hcaller : caller = owner)
  | approved (happroved : isApproved K.toHasher db nftAddress caller = true)
  | delegated (exchanger : Address)
      (hsig : recoverAddress K (exchangerMsg w.exchangerAuth) w.exchangerAuth.sig = .ok exchanger)
      (hunexpired : Unexpired blocknumber w.exchangerAuth.blockNumber)
      (hto : hexToAddress w.exchangerAuth.toAccount = caller)
      (happroved : isApproved K.toHasher db nftAddress exchanger = true)
  | order (hsig : recoverAddress K (tradeMsg w.seller1) w.seller1.sig = .ok owner)
      (hunexpired : Unexpired blocknumber w.seller1.blockNumber)
      (hnft : getNftAddressAndLevel w.seller1.nftAddress = .ok (nftAddress, level))

variable (K db blocknumber caller addr w value) in
/-- The outcomes of a wormholes transaction. -/
inductive Handled : StateDB → Prop
  | userMint {exchanger : Address} (htype : w.type = 0) :
      Handled (db.createNFTByUser exchanger addr w.royalty w.metaURL).1
  | transfer {nftAddress : Address} {level : ℕ} {t : StateDB} (htype : w.type = 1)
      (hnft : getNftAddressAndLevel w.nftAddress = .ok (nftAddress, level))
      (howner : getNFTOwner16 K.toHasher db nftAddress = caller)
      (h : changeNFTOwner K.toHasher
        (if db.exist nftAddress then db else db.createAccount nftAddress) nftAddress addr level =
          some t) : Handled t
  | approve {nftAddress : Address} {level : ℕ} (htype : w.type = 2)
      (hnft : getNftAddressAndLevel w.nftAddress = .ok (nftAddress, level))
      (howner : getNFTOwner16 K.toHasher db nftAddress = caller) :
      Handled (db.changeNFTApproveAddress nftAddress addr)
  | unapprove {nftAddress : Address} {level : ℕ} (htype : w.type = 3)
      (hnft : getNftAddressAndLevel w.nftAddress = .ok (nftAddress, level)) :
      Handled (db.cancelNFTApproveAddress nftAddress addr)
  | approveAll (htype : w.type = 4) : Handled (db.changeApproveAddress caller addr)
  | unapproveAll (htype : w.type = 5) : Handled (db.cancelApproveAddress caller addr)
  | exchange {nftAddress : Address} {level : ℕ} {t : StateDB} (htype : w.type = 6)
      (hnft : getNftAddressAndLevel w.nftAddress = .ok (nftAddress, level))
      (hofficial : isOfficialNFT nftAddress = true)
      (howner : getNFTOwner16 K.toHasher db nftAddress = caller)
      (h : exchangeNFTToCurrency K.toHasher db caller nftAddress blocknumber level = some t) : Handled t
  | nothing (htype : w.type = 7 ∨ w.type = 8) : Handled db
  | pledge (htype : w.type = 9) (hfunds : db.getBalance caller ≥ value) :
      Handled (db.pledgeToken caller value)
  | unpledge {t : StateDB} (htype : w.type = 10) (hfunds : db.getPledgedBalance caller ≥ value)
      (h : db.cancelPledgedToken caller value = some t) : Handled t
  | openExchanger (htype : w.type = 11) (hrate : w.feeRate < 10000)
      (hfunds : db.getBalance caller ≥ value) :
      Handled (db.openExchanger caller value blocknumber w.feeRate w.name w.url)
  | closeExchanger {t : StateDB} (htype : w.type = 12)
      (h : db.closeExchanger caller blocknumber = some t) : Handled t
  | inject {e : InjectedOfficialNFT} (htype : w.type = 13) : Handled (db.injectOfficialNFT e)
  | sale {nftAddress buyer beneficiary : Address} {level : ℕ} {t : StateDB}
      (hmoved : handedOver caller addr w = some (nftAddress, level, buyer))
      (hterms : saleTerms K db caller w = some (nftAddress, beneficiary)) (hvalue : 0 < value)
      (howner : getNFTOwner16 K.toHasher db nftAddress ≠ 0)
      (hfunds : db.getBalance buyer ≥ value)
      (hauth : SaleAuthority K db blocknumber caller w nftAddress level
        (getNFTOwner16 K.toHasher db nftAddress))
      (h : settleSale K.toHasher db buyer (getNFTOwner16 K.toHasher db nftAddress) beneficiary
        nftAddress level value = some t) : Handled t
  | mintSale {buyer seller exchanger exclusive : Address} {royalty : ℕ} {t : StateDB}
      (htype : w.type = 16 ∨ w.type = 17 ∨ w.type = 19) (hfunds : db.getBalance buyer ≥ value)
      (hroyalty : royalty < 10000)
      (h : settleMintSale K.toHasher db buyer seller exchanger exclusive royalty w.seller2.metaURL
        value = some t) : Handled t
  | addStake {t : StateDB} (htype : w.type = 21) (hfunds : db.getBalance caller ≥ value)
      (h : db.addExchangerToken caller value = some t) : Handled t
  | subStake {t : StateDB} (htype : w.type = 22) (hfunds : db.getExchangerBalance caller ≥ value)
      (h : db.subExchangerToken caller value = some t) : Handled t
  | vote {n : NominatedOfficialNFT} (htype : w.type = 23 ∨ w.type = 24) : Handled (db.voteOfficialNFT n)
  | online (htype : w.type = 30) (hfunds : db.getBalance caller ≥ value) :
      Handled ((db.transfer caller addr value).addOrUpdateActiveMiner caller value blocknumber)

theorem getBalance_ge_of_canTransfer (h : db.canTransfer caller value = true) :
    db.getBalance caller ≥ value :=
  of_decide_eq_true h

/-! ## Sales of an existing NFT -/

theorem sellerBeneficiary_inv {nftOwner buyerExchanger : Address}
    (h : sellerBeneficiary K db caller nftAddress nftOwner buyerExchanger = .ok beneficiary) :
    caller = nftOwner ∨ isApproved K.toHasher db nftAddress caller = true := by
  simp only [sellerBeneficiary] at h
  by_cases howner : caller = nftOwner
  · exact Or.inl howner
  · rw [if_neg howner] at h
    by_cases happroved : isApproved K.toHasher db nftAddress caller = true
    · exact Or.inr happroved
    · rw [if_neg happroved] at h
      cases h

theorem approvedBeneficiary_inv {originalExchanger : Address}
    (h : approvedBeneficiary K db nftAddress originalExchanger = .ok beneficiary) :
    isApproved K.toHasher db nftAddress originalExchanger = true := by
  simp only [approvedBeneficiary] at h
  by_contra happroved
  rw [if_neg happroved] at h
  cases h

theorem buyNFTBySellerOrExchanger_handled (htype : w.type = 14) (hvalue : 0 < value)
    (h : buyNFTBySellerOrExchanger K db blocknumber caller addr w value = .ok t) :
    Handled K db blocknumber caller addr w value t := by
  simp only [buyNFTBySellerOrExchanger, sell, buyNFTBySellerOrExchangerChecks, Sale.settle, Res.bind_assoc,
    Res.ok_bind, Res.bind_eq_ok, Res.require_eq_ok, Res.ofOption_eq_ok] at h
  obtain ⟨buyer, -, -, -, -, -, -, hto, -, -, -, -, ⟨nftAddress, level⟩, hnft, -, howner, -, hfunds,
    beneficiary, hbeneficiary, hsettle⟩ := h
  subst hto
  refine .sale ?_ ?_ hvalue howner hfunds ?_ hsettle
  · simp [handedOver, htype, hnft]
  · simp [saleTerms, htype, hnft, hbeneficiary]
  · rcases sellerBeneficiary_inv hbeneficiary with hcaller | happroved
    · exact .owner hcaller
    · exact .approved happroved

theorem buyNFTByBuyer_handled (htype : w.type = 15) (hvalue : 0 < value)
    (h : buyNFTByBuyer K db blocknumber caller w value = .ok t) :
    Handled K db blocknumber caller addr w value t := by
  simp only [buyNFTByBuyer, sell, buyNFTByBuyerChecks, Sale.settle, Res.bind_assoc,
    Res.ok_bind, Res.bind_eq_ok, Res.require_eq_ok, Res.ofOption_eq_ok] at h
  obtain ⟨seller, hsig, n, hn, -, hunexpired, ⟨nftAddress, level⟩, hnft, -, howner, -, hseller, -, -, -,
    -, -, hfunds, hsettle⟩ := h
  subst hseller
  refine .sale ?_ ?_ hvalue howner hfunds (.order hsig ⟨_, n, hn, hunexpired⟩ hnft) hsettle
  · simp [handedOver, htype, hnft]
  · simp [saleTerms, htype, hnft]

theorem buyNFTByApproveExchanger_handled (htype : w.type = 18) (hvalue : 0 < value)
    (h : buyNFTByApproveExchanger K db blocknumber caller addr w value = .ok t) :
    Handled K db blocknumber caller addr w value t := by
  simp only [buyNFTByApproveExchanger, sell, buyNFTByApproveExchangerChecks, Sale.settle, Res.bind_assoc,
    Res.ok_bind, Res.bind_eq_ok, Res.require_eq_ok, Res.ofOption_eq_ok] at h
  obtain ⟨buyer, -, exchanger, hsig, -, -, -, -, n, hn, -, hunexpired, -, hto, -, hcaller, -, -, -, -,
    ⟨nftAddress, level⟩, hnft, -, howner, -, hfunds, beneficiary, hbeneficiary, hsettle⟩ := h
  subst hto
  refine .sale ?_ ?_ hvalue howner hfunds ?_ hsettle
  · simp [handedOver, htype, hnft]
  · simp [saleTerms, htype, hsig, hnft, hbeneficiary]
  · exact .delegated exchanger hsig ⟨_, n, hn, hunexpired⟩ hcaller
      (approvedBeneficiary_inv hbeneficiary)

theorem buyNFTByExchanger_handled (htype : w.type = 20) (hvalue : 0 < value)
    (h : buyNFTByExchanger K db blocknumber caller addr w value = .ok t) :
    Handled K db blocknumber caller addr w value t := by
  simp only [buyNFTByExchanger, sell, buyNFTByExchangerChecks, Sale.settle, Res.bind_assoc,
    Res.ok_bind, Res.bind_eq_ok, Res.require_eq_ok, Res.ofOption_eq_ok] at h
  obtain ⟨buyer, -, seller, hsig, -, -, -, -, n, hn, -, hunexpired, -, hto, -, -, -, -, -, -, -, -, -, -,
    ⟨nftAddress, level⟩, hnft, -, -, -, howner, -, hfunds, -, hseller, beneficiary, hbeneficiary,
    hsettle⟩ := h
  subst hto hseller
  refine .sale ?_ ?_ hvalue howner hfunds (.order hsig ⟨_, n, hn, hunexpired⟩ hnft) hsettle
  · simp [handedOver, htype, hnft]
  · simp [saleTerms, htype, hnft, hbeneficiary]

/-! ## Sales that mint -/

theorem mintTerms_inv (h : mintTerms w exchanger = .ok (royalty, exclusive)) : royalty < 10000 := by
  simp only [mintTerms, Res.bind_eq_ok, Res.require_eq_ok] at h
  obtain ⟨r, -, -, ⟨hpos, hlt⟩, -, -, hok⟩ := h
  simp only [Res.ok.injEq, Prod.mk.injEq] at hok
  omega

theorem buyAndMintNFTByBuyer_handled (htype : w.type = 16)
    (h : buyAndMintNFTByBuyer K db blocknumber caller w value = .ok t) :
    Handled K db blocknumber caller addr w value t := by
  simp only [buyAndMintNFTByBuyer, sellMinted, buyAndMintNFTByBuyerChecks, MintSale.settle,
    Res.bind_assoc, Res.ok_bind, Res.bind_eq_ok, Res.require_eq_ok, Res.ofOption_eq_ok] at h
  obtain ⟨seller, -, -, -, -, -, -, -, -, -, -, hfunds, ⟨royalty, exclusive⟩, hterms, hsettle⟩ := h
  exact .mintSale (Or.inl htype) hfunds (mintTerms_inv hterms) hsettle

theorem buyAndMintNFTByExchanger_handled (htype : w.type = 17)
    (h : buyAndMintNFTByExchanger K db blocknumber caller addr w value = .ok t) :
    Handled K db blocknumber caller addr w value t := by
  simp only [buyAndMintNFTByExchanger, sellMinted, buyAndMintNFTByExchangerChecks, MintSale.settle,
    Res.bind_assoc, Res.ok_bind, Res.bind_eq_ok, Res.require_eq_ok, Res.ofOption_eq_ok] at h
  obtain ⟨buyer, -, seller, -, -, -, -, -, -, -, -, -, -, -, -, -, -, hfunds, -, -, -, -,
    ⟨royalty, exclusive⟩, hterms, hsettle⟩ := h
  exact .mintSale (Or.inr (Or.inl htype)) hfunds (mintTerms_inv hterms) hsettle

theorem buyAndMintNFTByApprovedExchanger_handled (htype : w.type = 19)
    (h : buyAndMintNFTByApprovedExchanger K db blocknumber caller addr w value = .ok t) :
    Handled K db blocknumber caller addr w value t := by
  simp only [buyAndMintNFTByApprovedExchanger, sellMinted, buyAndMintNFTByApprovedExchangerChecks, MintSale.settle,
    Res.bind_assoc, Res.ok_bind, Res.bind_eq_ok, Res.require_eq_ok, Res.ofOption_eq_ok] at h
  obtain ⟨buyer, -, seller, -, exchanger, -, -, -, -, -, -, -, -, -, -, -, -, -, -, -, -, -, -, -, -,
    hfunds, -, -, -, -, ⟨royalty, exclusive⟩, hterms, hsettle⟩ := h
  exact .mintSale (Or.inr (Or.inr htype)) hfunds (mintTerms_inv hterms) hsettle

/-! ## Every type -/

/-- A successful wormholes transaction did one of the listed things. -/
theorem handleNFT_inv (h : handleNFT K db blocknumber caller addr w value = .ok t) :
    Handled K db blocknumber caller addr w value t := by
  unfold handleNFT at h
  split at h <;> try simp only [Res.bind_eq_ok, Res.require_eq_ok, Res.ofOption_eq_ok, checkValue,
    voteOfficialNFTByApprovedExchanger] at h
  next htype =>
    obtain ⟨-, -, exchanger, -, hok⟩ := h
    cases hok
    exact .userMint htype
  next htype =>
    obtain ⟨⟨nftAddress, level⟩, hnft, -, hverify, htransfer⟩ := h
    have howner : getNFTOwner16 K.toHasher db nftAddress = caller := by
      simpa [verifyNFTOwner, hnft] using hverify
    simp only [transferNFT, Res.bind_eq_ok, Res.ofOption_eq_ok] at htransfer
    obtain ⟨⟨nftAddress', level'⟩, hnft', hchange⟩ := htransfer
    cases hnft.symm.trans hnft'
    exact .transfer htype hnft howner hchange
  next htype =>
    obtain ⟨-, -, ⟨nftAddress, level⟩, hnft, -, -, -, howner, hok⟩ := h
    cases hok
    exact .approve htype hnft howner
  next htype =>
    obtain ⟨⟨nftAddress, level⟩, hnft, -, -, hok⟩ := h
    cases hok
    exact .unapprove htype hnft
  next htype =>
    obtain ⟨-, -, hok⟩ := h
    cases hok
    exact .approveAll htype
  next htype => cases h; exact .unapproveAll htype
  next htype =>
    obtain ⟨⟨nftAddress, level⟩, hnft, -, hofficial, -, howner, hexchange⟩ := h
    exact .exchange htype hnft hofficial howner hexchange
  next htype => cases h; exact .nothing (Or.inl htype)
  next htype => cases h; exact .nothing (Or.inr htype)
  next htype =>
    obtain ⟨-, -, -, hfunds, hok⟩ := h
    cases hok
    exact .pledge htype (getBalance_ge_of_canTransfer hfunds)
  next htype =>
    obtain ⟨-, hfunds, hcancel⟩ := h
    exact .unpledge htype hfunds hcancel
  next htype =>
    obtain ⟨-, -, -, -, -, hrate, -, hfunds, hok⟩ := h
    cases hok
    exact .openExchanger htype hrate (getBalance_ge_of_canTransfer hfunds)
  next htype =>
    obtain ⟨-, -, -, -, hclose⟩ := h
    exact .closeExchanger htype hclose
  next htype =>
    obtain ⟨-, -, startIndex, -, hok⟩ := h
    cases hok
    exact .inject htype
  next htype =>
    obtain ⟨-, hvalue, hsale⟩ := h
    exact buyNFTBySellerOrExchanger_handled htype hvalue hsale
  next htype =>
    obtain ⟨-, hvalue, hsale⟩ := h
    exact buyNFTByBuyer_handled htype hvalue hsale
  next htype =>
    obtain ⟨-, -, hsale⟩ := h
    exact buyAndMintNFTByBuyer_handled htype hsale
  next htype =>
    obtain ⟨-, -, hsale⟩ := h
    exact buyAndMintNFTByExchanger_handled htype hsale
  next htype =>
    obtain ⟨-, hvalue, hsale⟩ := h
    exact buyNFTByApproveExchanger_handled htype hvalue hsale
  next htype =>
    obtain ⟨-, -, hsale⟩ := h
    exact buyAndMintNFTByApprovedExchanger_handled htype hsale
  next htype =>
    obtain ⟨-, hvalue, hsale⟩ := h
    exact buyNFTByExchanger_handled htype hvalue hsale
  next htype =>
    obtain ⟨-, hfunds, hadd⟩ := h
    exact .addStake htype (getBalance_ge_of_canTransfer hfunds) hadd
  next htype =>
    obtain ⟨-, hfunds, hsub⟩ := h
    refine .subStake htype ?_ hsub
    have hstake : (0 : ℤ) ≤ 100 * (baseErb : ℤ) := by positivity
    linarith
  next htype =>
    obtain ⟨-, -, hok⟩ := h
    cases hok
    exact .vote (Or.inl htype)
  next htype =>
    obtain ⟨-, -, exchanger, -, -, -, -, -, -, -, -, -, hok⟩ := h
    cases hok
    exact .vote (Or.inr htype)
  next htype =>
    obtain ⟨-, hfunds, hok⟩ := h
    cases hok
    exact .online htype (getBalance_ge_of_canTransfer hfunds)
  next => cases h

/-! ## What the outcomes are made of -/

/-- A sale pays the parties and then changes the owner. -/
theorem settleSale_inv {level : ℕ}
    (h : settleSale H db buyer seller beneficiary nftAddress level amount = some t) :
    ∃ paid, ((((db.subBalance buyer amount).addBalance seller
        (sellerAmount db beneficiary nftAddress amount)).addBalance (db.getNFTCreator nftAddress)
          (royaltyAmount db nftAddress amount)).addBalance beneficiary
            (exchangerAmount db beneficiary amount)).addVoteWeight beneficiary amount = some paid ∧
      changeNFTOwner H paid nftAddress buyer level = some t := by
  simp only [settleSale] at h
  split at h
  · cases h
  next paid hpaid => exact ⟨paid, hpaid, h⟩

/-- Only the balance and the vote weight change. -/
def PaymentOnly (_ : Address) (o o' : StateObject) : Prop :=
  ∃ b v, o' = { o with balance := b, voteWeight := v }

theorem paymentOnly_of_balanceOnly (h : BalanceOnly a o o') : PaymentOnly a o o' := by
  obtain ⟨b, rfl⟩ := h
  exact ⟨b, _, rfl⟩

theorem paymentOnly_of_voteOnly (h : VoteOnly a o o') : PaymentOnly a o o' := by
  obtain ⟨v, rfl⟩ := h
  exact ⟨_, v, rfl⟩

theorem paid_steps
    (h : ((((db.subBalance buyer x).addBalance seller y).addBalance creator z).addBalance beneficiary
      u).addVoteWeight beneficiary amount = some paid) : Steps PaymentOnly db paid :=
  (((((subBalance_steps db buyer x).trans (addBalance_steps _ seller y)).trans
    (addBalance_steps _ creator z)).trans (addBalance_steps _ beneficiary u)).mono
      paymentOnly_of_balanceOnly).trans ((addVoteWeight_steps _ _ h).mono paymentOnly_of_voteOnly)

theorem paid_pools
    (h : ((((db.subBalance buyer x).addBalance seller y).addBalance creator z).addBalance beneficiary
      u).addVoteWeight beneficiary amount = some paid) : paid.pools = db.pools := by
  rw [addVoteWeight_pools _ _ h]
  simp

/-- A sale that mints: the mint, the payments, the change of owner. -/
theorem settleMintSale_inv {metaURL : GoString}
    (h : settleMintSale H db buyer seller exchanger exclusive royalty metaURL amount = some t) :
    let minted := (db.createNFTByUser exclusive seller royalty metaURL).1
    let fee := feeOf amount (minted.getFeeRate exchanger)
    ∃ paid, (((minted.subBalance buyer amount).addBalance seller ((amount : ℤ) - fee)).addBalance
        exchanger fee).addVoteWeight exchanger amount = some paid ∧
      changeNFTOwner H paid (bigToAddress db.pools.mintDeep.userMint) buyer 0 = some t := by
  simp only [settleMintSale] at h
  split at h
  · cases h
  next paid hpaid => exact ⟨paid, hpaid, h⟩

theorem mintPaid_steps
    (h : (((db.subBalance buyer x).addBalance seller y).addBalance exchanger z).addVoteWeight
      exchanger amount = some paid) : Steps PaymentOnly db paid :=
  ((((subBalance_steps db buyer x).trans (addBalance_steps _ seller y)).trans
    (addBalance_steps _ exchanger z)).mono paymentOnly_of_balanceOnly).trans
      ((addVoteWeight_steps _ _ h).mono paymentOnly_of_voteOnly)

theorem mintPaid_pools
    (h : (((db.subBalance buyer x).addBalance seller y).addBalance exchanger z).addVoteWeight
      exchanger amount = some paid) : paid.pools = db.pools := by
  rw [addVoteWeight_pools _ _ h]
  simp

/-! ## Kinds of writing -/

section Kinds

variable {P : Address → StateObject → StateObject → Prop} {A : Address}

/-- A kind of rewriting that covers what transactions write, exchangers apart. -/
structure AllowsPlain (P : Address → StateObject → StateObject → Prop) : Prop extends AllowsMints P where
  amounts : ∀ {a o} b p v, P a o { o with balance := b, pledgedBalance := p, voteWeight := v }
  code : ∀ {a o} n c st, P a o { o with nonce := n, code := c, storage := st }
  approvals : ∀ {a o} l, P a o { o with approveAddressList := l }
  suicided : ∀ {a o}, P a o { o with suicided := true, balance := 0 }

/-- One that covers what is written of exchangers, too. -/
structure AllowsAll (P : Address → StateObject → StateObject → Prop) : Prop extends AllowsPlain P where
  stake : ∀ {a o} x, P a o { o with exchangerBalance := x }
  opened : ∀ {a o} block fee name url,
    P a o { o with
      exchangerFlag := true, blockNumber := some block, feeRate := fee, exchangerName := name,
      exchangerURL := url }
  closed : ∀ {a o},
    P a o { o with
      exchangerFlag := false, blockNumber := some 0, feeRate := 0, exchangerName := [],
      exchangerURL := [] }

namespace AllowsPlain

section

variable (hP : AllowsPlain P)
include hP

theorem of_balanceOnly (h : BalanceOnly a o o') : P a o o' := by
  obtain ⟨b, rfl⟩ := h
  exact hP.amounts b _ _

theorem of_pledgingOnly (h : PledgingOnly a o o') : P a o o' := by
  obtain ⟨b, p, rfl⟩ := h
  exact hP.amounts b p _

theorem of_paymentOnly (h : PaymentOnly a o o') : P a o o' := by
  obtain ⟨b, v, rfl⟩ := h
  exact hP.amounts b _ v

theorem of_codeOnly (h : CodeOnly a o o') : P a o o' := by
  obtain ⟨n, c, st, rfl⟩ := h
  exact hP.code n c st

theorem of_approveAllOnly (h : ApproveAllOnly a o o') : P a o o' := by
  obtain ⟨l, rfl⟩ := h
  exact hP.approvals l

theorem of_approveOnly (h : ApproveOnly A a o o') : P a o o' := by
  obtain ⟨-, x, rfl⟩ := h
  exact hP.approve x

theorem changeNFTOwner {nftAddr newOwner : Address} {level : ℕ}
    (h : changeNFTOwner H db nftAddr newOwner level = some t) : Steps P db t :=
  (changeNFTOwner_partWrite hP.toAllowsParts h).steps

end

end AllowsPlain

namespace AllowsAll

theorem of_stakeOnly (hP : AllowsAll P) (h : StakeOnly a o o') : P a o o' := by
  obtain ⟨x, rfl⟩ := h
  exact hP.stake x

theorem openExchanger (hP : AllowsAll P) (db : StateDB) (a : Address) (x : ℤ) (bn fee : ℕ)
    (name url : GoString) : Steps P db (db.openExchanger a x bn fee name url) :=
  ((staked_steps db a _ x).mono hP.of_balanceOnly).trans
    ((openExchanger_inv db a x bn fee name url).steps (fun _ => hP.stake _)
      fun _ => hP.opened bn fee name url)

theorem closeExchanger (hP : AllowsAll P) (h : db.closeExchanger a blocknumber = some t) :
    Steps P db t := by
  rcases closeExchanger_inv h with rfl | ⟨amount, -, ht⟩
  · exact getOrNewStateObject_steps db a
  · exact ((unstaked_steps db a _ amount).mono hP.of_balanceOnly).trans
      (ht.steps (fun _ => hP.stake _) fun _ => hP.closed)

theorem addExchangerToken (hP : AllowsAll P) (h : db.addExchangerToken a x = some t) :
    Steps P db t :=
  ((staked_steps db a _ x).mono hP.of_balanceOnly).trans
    ((addExchangerBalance_steps _ _ h).mono hP.of_stakeOnly)

theorem subExchangerToken (hP : AllowsAll P) (h : db.subExchangerToken a x = some t) :
    Steps P db t := by
  obtain ⟨u, hu, rfl⟩ := subExchangerToken_inv h
  exact ((queued_steps db a _).trans ((addExchangerBalance_steps _ _ hu).mono hP.of_stakeOnly)).trans
    ((addBalance_steps _ _ _).mono hP.of_balanceOnly)

end AllowsAll

/-- The types that open, close, raise or lower the stake of an exchanger. -/
def writesExchanger (w : WormholesTx) : Prop :=
  w.type = 11 ∨ w.type = 12 ∨ w.type = 21 ∨ w.type = 22

/-- What a payload writes is of every kind that covers it. -/
theorem Handled.steps (hP : AllowsPlain P) (hexchanger : writesExchanger w → AllowsAll P)
    (h : Handled K db blocknumber caller addr w value t) : Steps P db t := by
  cases h with
  | userMint => exact createNFTByUser_allowed hP.toAllowsMints _ _ _ _ _
  | transfer _ _ _ h => exact (ensure_steps db _).trans (hP.changeNFTOwner h)
  | approve => exact (changeNFTApproveAddress_steps _ _ _).mono hP.of_approveOnly
  | unapprove => exact (cancelNFTApproveAddress_steps _ _ _).mono hP.of_approveOnly
  | approveAll => exact (changeApproveAddress_steps _ _ _).mono hP.of_approveAllOnly
  | unapproveAll => exact (cancelApproveAddress_steps _ _ _).mono hP.of_approveAllOnly
  | exchange _ _ _ _ h =>
    exact exchangeNFTToCurrency_allowed hP.toAllowsParts (hP.amounts _ _ _) h
  | nothing => exact .refl db
  | pledge => exact (pledgeToken_steps _ _ _).mono hP.of_pledgingOnly
  | unpledge _ _ h => exact (cancelPledgedToken_steps h).mono hP.of_pledgingOnly
  | openExchanger htype => exact (hexchanger (Or.inl htype)).openExchanger _ _ _ _ _ _ _
  | closeExchanger htype h => exact (hexchanger (Or.inr (Or.inl htype))).closeExchanger h
  | inject => exact injectOfficialNFT_steps _ _
  | sale _ _ _ _ _ _ h =>
    obtain ⟨paid, hpaid, hchange⟩ := settleSale_inv h
    exact ((paid_steps hpaid).mono hP.of_paymentOnly).trans (hP.changeNFTOwner hchange)
  | mintSale _ _ _ h =>
    obtain ⟨paid, hpaid, hchange⟩ := settleMintSale_inv h
    exact ((createNFTByUser_allowed hP.toAllowsMints _ _ _ _ _).trans
      ((mintPaid_steps hpaid).mono hP.of_paymentOnly)).trans (hP.changeNFTOwner hchange)
  | addStake htype _ h =>
    exact (hexchanger (Or.inr (Or.inr (Or.inl htype)))).addExchangerToken h
  | subStake htype _ h =>
    exact (hexchanger (Or.inr (Or.inr (Or.inr htype)))).subExchangerToken h
  | vote => exact voteOfficialNFT_steps _ _
  | online =>
    exact ((transfer_steps _ _ _ _).mono hP.of_balanceOnly).trans (addOrUpdateActiveMiner_steps _ _ _ _)

theorem allowsAll_true : AllowsAll fun _ _ _ => True := by
  repeat' constructor
  all_goals
    intros
    trivial

end Kinds

end Wormholes.Core
