import Wormholes.Laws.Chain.Funds
import Wormholes.Laws.State.Tree

/-!
# Laws.Chain.Royalty — the terms a sale goes by

Whose an NFT is, a sale finds out through the merged NFT that holds it. The creator, the royalty and
the exclusive exchanger it reads at the address itself. Merging clears the accounts of all siblings but
one, so a fragment of a merged NFT is sold without its creator's royalty (`fragment_pays_no_royalty`).
`sale_terms_of_store_iff` says which terms a sale goes by and when they are those of the NFT that holds
the address.
-/

namespace Wormholes

open Lib Common Core StateDB

variable {K : Crypto} {db t : StateDB} {caller addr : Address} {w : WormholesTx} {bn value : ℕ}
variable {nftAddress beneficiary : Address}

/-- What a sale goes by of an NFT: who gets the royalty, its rate, and the exclusive exchanger. -/
@[ext]
structure NFTTerms where
  creator : Address
  royalty : ℕ
  exclusive : Address
deriving DecidableEq

/-- The terms recorded in the account at an address. -/
def termsAt (db : StateDB) (a : Address) : NFTTerms :=
  ⟨db.getNFTCreator a, db.getNFTRoyalty a, db.getNFTExchanger a⟩

/-- Who is paid the fee if `exclusive` is the NFT's exclusive exchanger. -/
def feeReceiver (K : Crypto) (db : StateDB) (caller : Address) (w : WormholesTx)
    (nftAddress exclusive : Address) : Option Address :=
  match w.type with
  | 14 =>
    if caller = getNFTOwner16 K.toHasher db nftAddress then
      if exclusive ≠ 0 ∧ db.getExchangerFlag exclusive then some exclusive
      else some (hexToAddress w.buyer.exchanger)
    else if isApproved K.toHasher db nftAddress caller then
      if exclusive ≠ 0 then
        if caller ≠ exclusive ∧ db.getExchangerFlag exclusive then none else some caller
      else if caller ≠ hexToAddress w.buyer.exchanger then none
      else some caller
    else none
  | 15 => some (if exclusive ≠ 0 then exclusive else hexToAddress w.seller1.exchanger)
  | 18 =>
    match recoverAddress K (exchangerMsg w.exchangerAuth) w.exchangerAuth.sig with
    | .ok exchanger =>
      if isApproved K.toHasher db nftAddress exchanger then
        if exclusive ≠ 0 ∧ exchanger ≠ exclusive ∧ db.getExchangerFlag exclusive then none
        else some exchanger
      else none
    | _ => none
  | 20 =>
    if exclusive ≠ 0 then
      if caller ≠ exclusive ∧ db.getExchangerFlag exclusive then none else some caller
    else if caller ≠ hexToAddress w.buyer.exchanger ∧ caller ≠ hexToAddress w.seller1.exchanger then
      none
    else some caller
  | _ => none

/-- A sale as it is carried out: who trades what, who is paid the fee, and the terms it goes by. -/
structure Sale where
  nftAddress : Address
  level : ℕ
  buyer : Address
  seller : Address
  beneficiary : Address
  terms : NFTTerms

/-- The payments and the handover of a sale. No record of an NFT is read for the payments. -/
def Sale.settle (x : Sale) (H : Hasher) (db : StateDB) (amount : ℕ) : Option StateDB :=
  let fee := exchangerAmount db x.beneficiary amount
  let royalty := feeOf amount x.terms.royalty
  let paid :=
    (((db.subBalance x.buyer amount).addBalance x.seller ((amount : ℤ) - (fee + royalty))).addBalance
      x.terms.creator royalty).addBalance x.beneficiary fee
  match paid.addVoteWeight x.beneficiary amount with
  | none => none
  | some db => changeNFTOwner H db x.nftAddress x.buyer x.level

/-- The sale a transaction asks for, by the terms recorded at the address it names. -/
def saleOf (K : Crypto) (db : StateDB) (caller addr : Address) (w : WormholesTx) : Option Sale :=
  match handedOver caller addr w with
  | none => none
  | some (nftAddress, level, buyer) =>
    (feeReceiver K db caller w nftAddress (db.getNFTExchanger nftAddress)).map fun beneficiary =>
      { nftAddress := nftAddress, level := level, buyer := buyer,
        seller := getNFTOwner16 K.toHasher db nftAddress, beneficiary := beneficiary,
        terms := termsAt db nftAddress }

/-! ## The sales of the code -/

theorem feeReceiver_of_seller (htype : w.type = 14)
    (h : sellerBeneficiary K db caller nftAddress (getNFTOwner16 K.toHasher db nftAddress)
      (hexToAddress w.buyer.exchanger) = .ok beneficiary) :
    feeReceiver K db caller w nftAddress (db.getNFTExchanger nftAddress) = some beneficiary := by
  simp only [sellerBeneficiary] at h
  simp only [feeReceiver, htype]
  split_ifs at h ⊢ <;> cases h <;> rfl

theorem feeReceiver_of_approved {exchanger : Address} (htype : w.type = 18)
    (hsig : recoverAddress K (exchangerMsg w.exchangerAuth) w.exchangerAuth.sig = .ok exchanger)
    (h : approvedBeneficiary K db nftAddress exchanger = .ok beneficiary) :
    feeReceiver K db caller w nftAddress (db.getNFTExchanger nftAddress) = some beneficiary := by
  simp only [approvedBeneficiary] at h
  simp only [feeReceiver, htype, hsig]
  split_ifs at h ⊢
  cases h
  rfl

theorem feeReceiver_of_match (htype : w.type = 20)
    (h : matchBeneficiary db caller nftAddress (hexToAddress w.buyer.exchanger)
      (hexToAddress w.seller1.exchanger) = .ok beneficiary) :
    feeReceiver K db caller w nftAddress (db.getNFTExchanger nftAddress) = some beneficiary := by
  simp only [matchBeneficiary] at h
  simp only [feeReceiver, htype]
  split_ifs at h ⊢ <;> cases h <;> rfl

/-- The code pays the fee to whom the exchanger recorded at the address gives it. -/
theorem feeReceiver_of_saleTerms (htype : sellsNFT w)
    (h : saleTerms K db caller w = some (nftAddress, beneficiary)) :
    feeReceiver K db caller w nftAddress (db.getNFTExchanger nftAddress) = some beneficiary := by
  unfold saleTerms at h
  rcases htype with htype | htype | htype | htype <;> simp only [htype] at h
  · split at h
    · split at h <;> cases h
      exact feeReceiver_of_seller htype (by assumption)
    · cases h
  · split at h <;> cases h
    simp only [feeReceiver, htype]
  · split at h
    next exchanger hsig =>
      split at h
      · split at h <;> cases h
        exact feeReceiver_of_approved htype hsig (by assumption)
      · cases h
    · cases h
  · split at h
    · split at h <;> cases h
      exact feeReceiver_of_match htype (by assumption)
    · cases h

/-- Settling by the terms recorded at the address is what the code does. -/
theorem Sale.settle_termsAt (H : Hasher) (nftAddress buyer seller beneficiary : Address)
    (level amount : ℕ) :
    Sale.settle ⟨nftAddress, level, buyer, seller, beneficiary, termsAt db nftAddress⟩ H db amount =
      settleSale H db buyer seller beneficiary nftAddress level amount := by
  unfold Sale.settle settleSale sellerAmount royaltyAmount termsAt
  rfl

/-- A successful sale of the code is the one its transaction asks for, of an NFT that has an owner. -/
theorem handled_saleOf (htype : sellsNFT w) (h : handleNFT K db bn caller addr w value = .ok t) :
    ∃ x, saleOf K db caller addr w = some x ∧ x.settle K.toHasher db value = some t ∧ x.seller ≠ 0 ∧
      x.seller = getNFTOwner16 K.toHasher db x.nftAddress ∧ x.terms = termsAt db x.nftAddress := by
  have hhandled := handleNFT_inv h
  have htypes := htype
  unfold sellsNFT at htypes
  cases hhandled with
  | @sale nftAddress buyer beneficiary level _ hmoved hterms _ howner _ _ hsettle =>
    refine ⟨⟨nftAddress, level, buyer, getNFTOwner16 K.toHasher db nftAddress, beneficiary,
      termsAt db nftAddress⟩, ?_, ?_, howner, rfl, rfl⟩
    · simp only [saleOf, hmoved, feeReceiver_of_saleTerms htype hterms, Option.map_some]
    · rw [Sale.settle_termsAt]
      exact hsettle
  | _ => omega

/-- The creator, the royalty and the exclusive exchanger of every successful sale are those of the NFT
that holds the address if and only if the account at the address records the same ones. -/
theorem sale_terms_of_store_iff (htype : sellsNFT w)
    (h : handleNFT K db bn caller addr w value = .ok t) :
    ∃ x S, saleOf K db caller addr w = some x ∧ x.settle K.toHasher db value = some t ∧
      getNFTStoreAddress16 K.toHasher db x.nftAddress 0 = some (S, x.seller) ∧
      ((x.terms.creator = db.getNFTCreator S ∧ x.terms.royalty = db.getNFTRoyalty S ∧
          x.terms.exclusive = db.getNFTExchanger S) ↔
        S = x.nftAddress ∨ termsAt db x.nftAddress = termsAt db S) := by
  obtain ⟨x, hsale, hsettle, howned, howner, hterms⟩ := handled_saleOf htype h
  obtain ⟨S, hstore⟩ : ∃ S, getNFTStoreAddress16 K.toHasher db x.nftAddress 0 = some (S, x.seller) := by
    rw [getNFTOwner16_eq] at howner
    cases hfound : getNFTStoreAddress16 K.toHasher db x.nftAddress 0 with
    | none =>
      rw [hfound] at howner
      exact absurd howner howned
    | some r =>
      rw [hfound] at howner
      exact ⟨r.1, by rw [howner]; rfl⟩
  refine ⟨x, S, hsale, hsettle, hstore, ?_⟩
  rw [hterms]
  constructor
  · intro hagree
    obtain ⟨hcreator, hroyalty, hexclusive⟩ := hagree
    exact Or.inr (NFTTerms.ext hcreator hroyalty hexclusive)
  · intro hagree
    rcases hagree with hself | hagree
    · rw [hself]
      exact ⟨rfl, rfl, rfl⟩
    · rw [hagree]
      exact ⟨rfl, rfl, rfl⟩

/-! ## A fragment -/

/-- The text of the second official NFT. -/
def secondOfficialNFT : GoString := "0x8000000000000000000000000000000000000001".toList

/-- The creator of the official NFTs of a small genesis. -/
def creatorAddress : Address := 0x35636d53Ac3DfF2b2347dDfa37daD7077b3f5b6F

/-- The buyer accepts the owner's order for an NFT over 100000 units. -/
def orderFor (nft : GoString) : WormholesTx :=
  { saleTx with seller1 := { saleTx.seller1 with nftAddress := nft } }

/-- The chain after a block whose first `n` NFTs go to one owner, and the sale of the second of them. -/
def officialSale (n : ℕ) : Option (Chain × StateDB) :=
  (runAll (Chain.step saleCrypto) [.finalizeBlock (List.replicate n 0x5e)] saleGenesis.chain).bind
    fun c =>
      match handleNFT saleCrypto c.db c.number 0xb0 0xb0 (orderFor secondOfficialNFT) 100000 with
      | .ok t => some (c, t)
      | _ => none

theorem officialSale_inv {n : ℕ} {c : Chain} (h : officialSale n = some (c, t)) :
    Run (Chain.step saleCrypto) (fun _ _ => True) saleGenesis.chain
        [.finalizeBlock (List.replicate n 0x5e)] c ∧
      handleNFT saleCrypto c.db c.number 0xb0 0xb0 (orderFor secondOfficialNFT) 100000 = .ok t := by
  obtain ⟨c', hc', hsale⟩ := Option.bind_eq_some_iff.mp h
  split at hsale
  next t' ht' =>
    cases hsale
    exact ⟨Run.of_runAll (fun _ _ _ => trivial) hc', ht'⟩
  · cases hsale

/-- After a block of `n` official mints the second NFT is sold, by the terms of the NFT that holds it or by
others. -/
def SellsSecond (n : ℕ) (own : Bool) : Prop :=
  ∃ c t, Run (Chain.step saleCrypto) (fun _ _ => True) saleGenesis.chain
      [.finalizeBlock (List.replicate n 0x5e)] c ∧
    handleNFT saleCrypto c.db c.number 0xb0 0xb0 (orderFor secondOfficialNFT) 100000 = .ok t ∧
    ∃ x S, saleOf saleCrypto c.db 0xb0 0xb0 (orderFor secondOfficialNFT) = some x ∧
      x.settle saleCrypto.toHasher c.db 100000 = some t ∧
      getNFTStoreAddress16 saleCrypto.toHasher c.db x.nftAddress 0 = some (S, x.seller) ∧
      ((x.terms.creator = c.db.getNFTCreator S ∧ x.terms.royalty = c.db.getNFTRoyalty S ∧
          x.terms.exclusive = c.db.getNFTExchanger S) ↔ own = true)

/-- Of two official NFTs the second one is sold by its own terms; of sixteen, which are merged, it is
sold by terms that are not the merged NFT's. -/
theorem sale_terms_of_store_second : SellsSecond 2 true ∧ SellsSecond 16 false := by
  have hsells : ∀ n own, (officialSale n).map (fun p =>
      (saleOf saleCrypto p.1.db 0xb0 0xb0 (orderFor secondOfficialNFT)).map fun x =>
        (getNFTStoreAddress16 saleCrypto.toHasher p.1.db x.nftAddress 0).map fun r =>
          decide (r.1 = x.nftAddress ∨ termsAt p.1.db x.nftAddress = termsAt p.1.db r.1)) =
      some (some (some own)) → SellsSecond n own := by
    intro n own hend
    obtain ⟨⟨c, t⟩, hsale, hvalues⟩ := Option.map_eq_some_iff.mp hend
    obtain ⟨hrun, ht⟩ := officialSale_inv hsale
    obtain ⟨x, S, hx, hsettle, hstore, hiff⟩ := sale_terms_of_store_iff (Or.inr (Or.inl rfl)) ht
    refine ⟨c, t, hrun, ht, x, S, hx, hsettle, hstore, hiff.trans ?_⟩
    simp only [hx, hstore, Option.map_some, Option.some.injEq] at hvalues
    rw [← hvalues, decide_eq_true_iff]
  exact ⟨hsells 2 true (by decide +kernel), hsells 16 false (by decide +kernel)⟩

/-- Sixteen official NFTs of one owner are merged. The second of them is sold for 100000, of which the
creator, whose royalty is one percent, gets nothing. -/
theorem fragment_pays_no_royalty :
    ∃ (g : Genesis) (es : List Event) (c : Chain) (w : WormholesTx) (caller addr A S : Address)
      (t : StateDB),
      Run (Chain.step saleCrypto) (fun _ _ => True) g.chain es c ∧ sellsNFT w ∧
        handedOver caller addr w = some (A, 0, caller) ∧
        handleNFT saleCrypto c.db c.number caller addr w 100000 = .ok t ∧
        getNFTStoreAddress16 saleCrypto.toHasher c.db A 0 = some (S, 0x5e) ∧ S ≠ A ∧
        c.db.getNFTRoyalty S = 100 ∧ c.db.getNFTCreator S ≠ 0 ∧
        t.getBalance (c.db.getNFTCreator S) = c.db.getBalance (c.db.getNFTCreator S) ∧
        t.getBalance 0x5e = c.db.getBalance 0x5e + 100000 ∧
        termsAt c.db A = ⟨0, 0, 0⟩ := by
  have hend : (officialSale 16).map (fun p =>
      (getNFTStoreAddress16 saleCrypto.toHasher p.1.db (hexToAddress secondOfficialNFT) 0,
        (termsAt p.1.db (bigToAddress officialMask), termsAt p.1.db (hexToAddress secondOfficialNFT)),
        (p.1.db.getBalance creatorAddress, p.2.getBalance creatorAddress),
        (p.1.db.getBalance 0x5e, p.2.getBalance 0x5e))) =
      some (some (bigToAddress officialMask, 0x5e), (⟨creatorAddress, 100, 0⟩, ⟨0, 0, 0⟩), (0, 0),
        (0, 100000)) := by
    decide +kernel
  obtain ⟨⟨c, t⟩, hsale, hvalues⟩ := Option.map_eq_some_iff.mp hend
  obtain ⟨hrun, ht⟩ := officialSale_inv hsale
  simp only [Prod.mk.injEq] at hvalues
  obtain ⟨hstore, ⟨hmerged, hterms⟩, ⟨hbefore, hafter⟩, hpaid, hpaid'⟩ := hvalues
  have hcreator : c.db.getNFTCreator (bigToAddress officialMask) = creatorAddress :=
    congrArg NFTTerms.creator hmerged
  have hroyalty : c.db.getNFTRoyalty (bigToAddress officialMask) = 100 :=
    congrArg NFTTerms.royalty hmerged
  refine ⟨saleGenesis, _, c, orderFor secondOfficialNFT, 0xb0, 0xb0, hexToAddress secondOfficialNFT,
    bigToAddress officialMask, t, hrun, Or.inr (Or.inl rfl), by decide +kernel, ht, hstore,
    by decide +kernel, hroyalty, ?_, ?_, ?_, hterms⟩
  · rw [hcreator]
    decide
  · rw [hcreator, hbefore, hafter]
  · rw [hpaid, hpaid']
    rfl

end Wormholes
