import Wormholes.Laws.Chain.Accounts
import Wormholes.Laws.Chain.Funds

/-!
# Laws.Chain.Intent — what the sales enforce of the signed orders

A sale of an existing NFT pays a fee to an exchanger and the rest to the NFT's owner. The four sales
choose the exchanger in different ways, and none reads the seller a buyer names. `SignedIntent` is
what the orders ask for and `FollowsOrders` the exact condition under which a successful sale does it.
-/

namespace Wormholes

open Lib Common Core StateDB

variable {K : Crypto} {db : StateDB} {caller : Address} {w : WormholesTx} {nftAddress : Address}

/-- The exchangers that the signed orders of a sale name. -/
def namedExchangers (w : WormholesTx) : List Address :=
  match w.type with
  | 14 | 18 => [hexToAddress w.buyer.exchanger]
  | 15 => [hexToAddress w.seller1.exchanger]
  | 20 => [hexToAddress w.buyer.exchanger, hexToAddress w.seller1.exchanger]
  | _ => []

/-- The seller that a signed buyer's order names. Only the orders of types 14 and 18 are signed with
one. -/
def namedSeller (w : WormholesTx) : Option Address :=
  if (w.type = 14 ∨ w.type = 18) ∧ w.buyer.seller ≠ [] then some (hexToAddress w.buyer.seller) else none

/-- What the signed orders ask of a sale. -/
structure SignedIntent (K : Crypto) (db : StateDB) (w : WormholesTx) (nftAddress beneficiary : Address)
    (value : ℕ) : Prop where
  exchanger : beneficiary = db.getNFTExchanger nftAddress ∨ beneficiary ∈ namedExchangers w
  isExchanger : exchangerAmount db beneficiary value ≠ 0 → db.getExchangerFlag beneficiary = true
  seller : ∀ a, namedSeller w = some a → getNFTOwner16 K.toHasher db nftAddress = a

/-- An account that acts as exchanger is the NFT's own one or named, unless the NFT has none or one
that is open. -/
def ActsAsNamed (db : StateDB) (w : WormholesTx) (nftAddress exchanger : Address) : Prop :=
  db.getNFTExchanger nftAddress = 0 ∨ db.getExchangerFlag (db.getNFTExchanger nftAddress) = true ∨
    exchanger = db.getNFTExchanger nftAddress ∨ exchanger ∈ namedExchangers w

/-- The submitted sale follows the orders: the buyer's named seller owns the NFT, an exchanger that
steps in for a closed exclusive one is named, and so is one that authorised the caller. -/
def FollowsOrders (K : Crypto) (db : StateDB) (caller : Address) (w : WormholesTx)
    (nftAddress : Address) : Prop :=
  (∀ a, namedSeller w = some a → getNFTOwner16 K.toHasher db nftAddress = a) ∧
    match w.type with
    | 14 => caller = getNFTOwner16 K.toHasher db nftAddress ∨ ActsAsNamed db w nftAddress caller
    | 18 => ∀ exchanger,
        recoverAddress K (exchangerMsg w.exchangerAuth) w.exchangerAuth.sig = .ok exchanger →
          exchanger = db.getNFTExchanger nftAddress ∨ exchanger ∈ namedExchangers w
    | 20 => ActsAsNamed db w nftAddress caller
    | _ => True

/-! ## Who is paid the fee -/

/-- Type 14: an owner's sale pays the open exclusive exchanger or the named one; any other pays its
caller. -/
theorem sellerBeneficiary_eq {nftOwner named beneficiary : Address}
    (h : sellerBeneficiary K db caller nftAddress nftOwner named = .ok beneficiary) :
    (caller = nftOwner ∧ (beneficiary = db.getNFTExchanger nftAddress ∨ beneficiary = named)) ∨
      (caller ≠ nftOwner ∧ beneficiary = caller ∧
        (db.getNFTExchanger nftAddress = 0 → caller = named) ∧
        (db.getExchangerFlag (db.getNFTExchanger nftAddress) = true →
          db.getNFTExchanger nftAddress = 0 ∨ caller = db.getNFTExchanger nftAddress)) := by
  simp only [sellerBeneficiary] at h
  by_cases howner : caller = nftOwner
  · rw [if_pos howner] at h
    split_ifs at h <;> cases h
    · exact Or.inl ⟨howner, Or.inl rfl⟩
    · exact Or.inl ⟨howner, Or.inr rfl⟩
  · rw [if_neg howner] at h
    refine Or.inr ⟨howner, ?_⟩
    split_ifs at h with _ hexclusive hother hnamed <;> cases h
    · refine ⟨rfl, fun hzero => absurd hzero hexclusive, fun hopen => Or.inr ?_⟩
      by_contra hne
      exact hother ⟨hne, hopen⟩
    · exact ⟨rfl, fun _ => not_not.mp hnamed, fun _ => Or.inl (not_not.mp hexclusive)⟩

/-- Type 20: the caller is paid; for an NFT without an exclusive exchanger it is named. -/
theorem matchBeneficiary_eq {named named' beneficiary : Address}
    (h : matchBeneficiary db caller nftAddress named named' = .ok beneficiary) :
    beneficiary = caller ∧
      (db.getNFTExchanger nftAddress = 0 → caller = named ∨ caller = named') ∧
      (db.getExchangerFlag (db.getNFTExchanger nftAddress) = true →
        db.getNFTExchanger nftAddress = 0 ∨ caller = db.getNFTExchanger nftAddress) := by
  simp only [matchBeneficiary] at h
  split_ifs at h with hexclusive hother hnamed <;> cases h
  · refine ⟨rfl, fun hzero => absurd hzero hexclusive, fun hopen => Or.inr ?_⟩
    by_contra hne
    exact hother ⟨hne, hopen⟩
  · refine ⟨rfl, fun _ => ?_, fun _ => Or.inl (not_not.mp hexclusive)⟩
    by_contra hneither
    exact hnamed (not_or.mp hneither)

/-- Where the code checks the caller against an open exclusive exchanger, or against the named ones if
there is none, acting as named is being exclusive or named. -/
theorem actsAsNamed_iff
    (hnone : db.getNFTExchanger nftAddress = 0 → caller ∈ namedExchangers w)
    (hopen : db.getExchangerFlag (db.getNFTExchanger nftAddress) = true →
      db.getNFTExchanger nftAddress = 0 ∨ caller = db.getNFTExchanger nftAddress) :
    (caller = db.getNFTExchanger nftAddress ∨ caller ∈ namedExchangers w) ↔
      ActsAsNamed db w nftAddress caller := by
  constructor
  · rintro (hexclusive | hnamed)
    · exact Or.inr (Or.inr (Or.inl hexclusive))
    · exact Or.inr (Or.inr (Or.inr hnamed))
  · rintro (hzero | hflag | hexclusive | hnamed)
    · exact Or.inr (hnone hzero)
    · rcases hopen hflag with hzero | hexclusive
      · exact Or.inr (hnone hzero)
      · exact Or.inl hexclusive
    · exact Or.inl hexclusive
    · exact Or.inr hnamed

/-- The exchanger of a sale is the NFT's own one or a named one exactly if the sale follows the orders
in this. -/
theorem named_iff {beneficiary : Address} (htype : sellsNFT w)
    (h : saleTerms K db caller w = some (nftAddress, beneficiary)) :
    (beneficiary = db.getNFTExchanger nftAddress ∨ beneficiary ∈ namedExchangers w) ↔
      match w.type with
      | 14 => caller = getNFTOwner16 K.toHasher db nftAddress ∨ ActsAsNamed db w nftAddress caller
      | 18 => ∀ exchanger,
          recoverAddress K (exchangerMsg w.exchangerAuth) w.exchangerAuth.sig = .ok exchanger →
            exchanger = db.getNFTExchanger nftAddress ∨ exchanger ∈ namedExchangers w
      | 20 => ActsAsNamed db w nftAddress caller
      | _ => True := by
  unfold saleTerms at h
  rcases htype with htype | htype | htype | htype <;> simp only [htype] at h ⊢
  · have hnames : namedExchangers w = [hexToAddress w.buyer.exchanger] := by
      simp [namedExchangers, htype]
    have hpaid : sellerBeneficiary K db caller nftAddress (getNFTOwner16 K.toHasher db nftAddress)
        (hexToAddress w.buyer.exchanger) = .ok beneficiary := by
      split at h
      · split at h <;> cases h
        assumption
      · cases h
    rcases sellerBeneficiary_eq hpaid with ⟨howner, hpaid⟩ | ⟨howner, rfl, hnone, hopen⟩
    · simp [howner, hnames, hpaid]
    · rw [actsAsNamed_iff (fun hzero => by simp [hnames, hnone hzero]) hopen]
      exact ⟨Or.inr, fun h => h.resolve_left howner⟩
  · have hnames : namedExchangers w = [hexToAddress w.seller1.exchanger] := by
      simp [namedExchangers, htype]
    split at h <;> cases h
    simp only [hnames, List.mem_singleton, iff_true]
    split_ifs
    · exact Or.inl rfl
    · exact Or.inr rfl
  · split at h
    next exchanger hsig =>
      have hpaid : approvedBeneficiary K db nftAddress exchanger = .ok beneficiary := by
        split at h
        · split at h <;> cases h
          assumption
        · cases h
      simp only [approvedBeneficiary] at hpaid
      split_ifs at hpaid
      cases hpaid
      constructor
      · intro hnamed exchanger' hsig'
        cases hsig.symm.trans hsig'
        exact hnamed
      · exact fun hfollows => hfollows _ hsig
    · cases h
  · have hnames : namedExchangers w =
        [hexToAddress w.buyer.exchanger, hexToAddress w.seller1.exchanger] := by
      simp [namedExchangers, htype]
    have hpaid : matchBeneficiary db caller nftAddress (hexToAddress w.buyer.exchanger)
        (hexToAddress w.seller1.exchanger) = .ok beneficiary := by
      split at h
      · split at h <;> cases h
        assumption
      · cases h
    obtain ⟨rfl, hnone, hopen⟩ := matchBeneficiary_eq hpaid
    exact actsAsNamed_iff (fun hzero => by simpa [hnames] using hnone hzero) hopen

/-! ## Sales of a chain -/

/-- In every state of every chain, a successful sale of an existing NFT does what the signed orders
ask for exactly if it was submitted in accordance with them. -/
theorem signedIntent_iff_followsOrders {ok : Chain → Event → Prop} {g : Genesis} {es : List Event}
    {c : Chain} (hrun : Run (Chain.step K) ok g.chain es c) {addr : Address} {value : ℕ} {t : StateDB}
    (htype : sellsNFT w) (h : handleNFT K c.db c.number caller addr w value = .ok t) :
    ∃ nftAddress buyer beneficiary level,
      settleSale K.toHasher c.db buyer (getNFTOwner16 K.toHasher c.db nftAddress) beneficiary nftAddress
          level value = some t ∧
        (SignedIntent K c.db w nftAddress beneficiary value ↔
          FollowsOrders K c.db caller w nftAddress) := by
  obtain ⟨nftAddress, buyer, beneficiary, level, hterms, -, hsettle⟩ :=
    handled_sale htype (handleNFT_inv h)
  refine ⟨nftAddress, buyer, beneficiary, level, hsettle, ?_⟩
  have hiff := named_iff htype hterms
  constructor
  · exact fun hintent => ⟨hintent.seller, hiff.mp hintent.exchanger⟩
  · rintro ⟨hseller, hnamed⟩
    refine ⟨hiff.mpr hnamed, fun hfee => getExchangerFlag_of_getFeeRate hrun ?_, hseller⟩
    rintro hrate
    exact hfee (by simp [exchangerAmount, feeOf, hrate])

/-! ## A buyer who names somebody else -/

/-- Every signature is the buyer's. -/
def buyerCrypto : Crypto where
  keccak256 := fun _ => []
  sigToPub := fun _ _ => .ok 0xb0

/-- The buyer's order over 100000 units for the first user NFT, with the seller it names. -/
def buyerTx (seller : GoString) : WormholesTx :=
  { WormholesTx.bare 14 with
    buyer :=
      { amount := "0x186a0".toList
        nftAddress := firstUserNFT
        exchanger := "0x00000000000000000000000000000000000000e0".toList
        blockNumber := "0xff".toList
        seller := seller
        sig := "0x".toList ++ List.replicate 128 '0' ++ "1b".toList } }

/-- The chain in which the NFT was given to its later owner, and the sale to the buyer. -/
def buyerSale (seller : GoString) : Option (Chain × StateDB) :=
  (runAll (Chain.step buyerCrypto) (saleHistory 500 500) saleGenesis.chain).bind fun c =>
    match handleNFT buyerCrypto c.db c.number 0x5e 0xb0 (buyerTx seller) 100000 with
    | .ok t => some (c, t)
    | _ => none

theorem buyerSale_inv {seller : GoString} {c : Chain} {t : StateDB} (h : buyerSale seller = some (c, t)) :
    Run (Chain.step buyerCrypto) (fun _ _ => True) saleGenesis.chain (saleHistory 500 500) c ∧
      handleNFT buyerCrypto c.db c.number 0x5e 0xb0 (buyerTx seller) 100000 = .ok t := by
  obtain ⟨c', hc', hsale⟩ := Option.bind_eq_some_iff.mp h
  split at hsale
  next t' ht' =>
    cases hsale
    exact ⟨Run.of_runAll (fun _ _ _ => trivial) hc', ht'⟩
  · cases hsale

/-- The texts of the owner and of somebody else. -/
def ownerText : GoString := "0x000000000000000000000000000000000000005e".toList

def strangerText : GoString := "0x0000000000000000000000000000000000000099".toList

/-- The owner sells to a buyer who named the owner. -/
theorem signedIntent_of_named_owner :
    ∃ c t, Run (Chain.step buyerCrypto) (fun _ _ => True) saleGenesis.chain (saleHistory 500 500) c ∧
      handleNFT buyerCrypto c.db c.number 0x5e 0xb0 (buyerTx ownerText) 100000 = .ok t ∧
        ∃ nftAddress beneficiary,
          SignedIntent buyerCrypto c.db (buyerTx ownerText) nftAddress beneficiary 100000 ↔
            FollowsOrders buyerCrypto c.db 0x5e (buyerTx ownerText) nftAddress := by
  obtain ⟨⟨c, t⟩, hsale⟩ : ∃ p, buyerSale ownerText = some p :=
    Option.isSome_iff_exists.mp (by decide +kernel)
  obtain ⟨hrun, ht⟩ := buyerSale_inv hsale
  obtain ⟨nftAddress, -, beneficiary, -, -, hiff⟩ := signedIntent_iff_followsOrders hrun (Or.inl rfl) ht
  exact ⟨c, t, hrun, ht, nftAddress, beneficiary, hiff⟩

/-- The owner sells, and is paid, although the buyer signed an order to somebody else. -/
theorem signedIntent_ignores_seller :
    ∃ (g : Genesis) (es : List Event) (c : Chain) (t : StateDB) (w : WormholesTx)
      (caller addr nftAddress : Address) (value : ℕ),
      Run (Chain.step buyerCrypto) (fun _ _ => True) g.chain es c ∧ sellsNFT w ∧
        handleNFT buyerCrypto c.db c.number caller addr w value = .ok t ∧
          handedOver caller addr w = some (nftAddress, 0, addr) ∧
            t.getBalance (getNFTOwner16 buyerCrypto.toHasher c.db nftAddress) =
                c.db.getBalance (getNFTOwner16 buyerCrypto.toHasher c.db nftAddress) + 90000 ∧
              namedSeller w = some 0x99 ∧
                ∀ beneficiary, ¬ SignedIntent buyerCrypto c.db w nftAddress beneficiary value := by
  have hend : (buyerSale strangerText).map (fun p => (getNFTOwner16 buyerCrypto.toHasher p.1.db 1,
      p.1.db.getBalance 0x5e, p.2.getBalance 0x5e)) = some (0x5e, 0, 90000) := by
    decide +kernel
  obtain ⟨⟨c, t⟩, hsale, hvalues⟩ := Option.map_eq_some_iff.mp hend
  obtain ⟨hrun, ht⟩ := buyerSale_inv hsale
  simp only [Prod.mk.injEq] at hvalues
  obtain ⟨howner, hbefore, hafter⟩ := hvalues
  refine ⟨saleGenesis, _, c, t, buyerTx strangerText, 0x5e, 0xb0, 1, 100000, hrun, Or.inl rfl, ht,
    by decide, ?_, by decide, fun beneficiary hintent => ?_⟩
  · rw [howner, hbefore, hafter]
    rfl
  · have hseller := hintent.seller 0x99 (by decide)
    rw [howner] at hseller
    revert hseller
    decide

end Wormholes
