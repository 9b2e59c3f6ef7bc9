import Wormholes.Laws.Chain.Funds
import Wormholes.Laws.Core.Panic
import Wormholes.Laws.State.Lookup

/-!
# Laws.Core.Matching — what the two orders of an exchanger's sale trade

`BuyNFTByExchanger` takes the address from both signed texts and compares the two, and the level from the
seller's text alone. So the buyer may get more or fewer leaves than were signed for
(`matched_levels_differ`). Even with equal texts the sale hands over the NFT that is recorded around the
address, which need not be the one the text names. `trades_same_iff` says when the buyer gets exactly the
leaves of both texts.
-/

namespace Wormholes

open Lib Lib.Forest Common StateDB

namespace Core

variable {K : Crypto} {H : Hasher} {db t : StateDB} {bn amount : ℕ} {caller addr : Address}
  {w : WormholesTx}

/-- The account owns the leaf. The zero address owns nothing. -/
def OwnsLeaf (H : Hasher) (s : StateDB) (a x : Address) : Prop := a ≠ 0 ∧ getNFTOwner16 H s x = a

theorem ownsLeaf_iff {s : StateDB} {a x : Address} : OwnsLeaf H s a x ↔ HeldBy s x a := by
  constructor
  · intro h
    exact (getNFTOwner16_iff_held h.1).mp h.2
  · intro h
    exact ⟨h.ne_zero, h.owner⟩

/-- Both texts name the same address and level, and the buyer gets exactly those leaves. -/
def TradesSame (H : Hasher) (w : WormholesTx) (s t : StateDB) (buyer : Address) : Prop :=
  ∃ A level, getNftAddressAndLevel w.buyer.nftAddress = .ok (A, level) ∧
    getNftAddressAndLevel w.seller1.nftAddress = .ok (A, level) ∧
    ∀ x, ((OwnsLeaf H t buyer x ∧ ¬ OwnsLeaf H s buyer x) ↔ Leaf A level x) ∧
      (OwnsLeaf H s buyer x → OwnsLeaf H t buyer x)

/-- The state with accounts for the buyer, the owner, the creator, the exchanger and the NFT. -/
def partiesOpened (H : Hasher) (s : StateDB) (caller buyer A : Address) : StateDB :=
  s.opened [buyer, getNFTOwner16 H s A, s.getNFTCreator A, caller, A]

/-- Both texts name the same address and level, and the NFT that is recorded there is the one they
name. -/
def SellsNamed (H : Hasher) (w : WormholesTx) (s : StateDB) (caller buyer : Address) : Prop :=
  buyer ≠ 0 ∧ ∃ A level, getNftAddressAndLevel w.buyer.nftAddress = .ok (A, level) ∧
    getNftAddressAndLevel w.seller1.nftAddress = .ok (A, level) ∧
    HandsExactly H s (partiesOpened H s caller buyer A) A buyer level

theorem HeldBy.opened {s : StateDB} {x o : Address} (h : HeldBy s x o) (l : List Address) :
    HeldBy (s.opened l) x o := by
  induction l generalizing s with
  | nil => exact h
  | cons a l ih =>
    refine ih ?_
    unfold HeldBy at h ⊢
    have hforest : forestOf (s.getOrNewStateObject a).1 = forestOf s :=
      (getOrNewStateObject_sameNFTs s a).forestOf_eq
    rw [hforest]
    refine h.grow fun n hn => ⟨hn.1, ?_⟩
    rw [exists_getOrNewStateObject_iff]
    exact Or.inl hn.2

theorem settleSale_opened {buyer seller beneficiary A : Address} {level : ℕ}
    (h : settleSale H db buyer seller beneficiary A level amount = some t) :
    ∃ paid, changeNFTOwner H paid A buyer level = some t ∧
      SameParts (db.opened [buyer, seller, db.getNFTCreator A, beneficiary, A])
        (paid.getOrNewStateObject A).1 := by
  obtain ⟨paid, hpaid, hchange⟩ := settleSale_inv h
  exact ⟨paid, hchange, sameParts_voted (l := [buyer, seller, db.getNFTCreator A])
    (sameParts_paid _ _ _ _ _ _ _ _) hpaid A⟩

theorem matchBeneficiary_eq {A b s beneficiary : Address}
    (h : matchBeneficiary db caller A b s = .ok beneficiary) : beneficiary = caller := by
  unfold matchBeneficiary at h
  dsimp only at h
  split_ifs at h
  all_goals
    cases h
    rfl

/-- What a sale by an exchanger does: an owned NFT is handed over once the parties' accounts are open. -/
theorem buyNFTByExchanger_inv (h : buyNFTByExchanger K db bn caller addr w amount = .ok t) :
    ∃ A level level' paid, getNftAddressAndLevel w.buyer.nftAddress = .ok (A, level') ∧
      getNftAddressAndLevel w.seller1.nftAddress = .ok (A, level) ∧
      getNFTOwner16 K.toHasher db A ≠ 0 ∧
      changeNFTOwner K.toHasher paid A addr level = some t ∧
      SameParts (partiesOpened K.toHasher db caller addr A) (paid.getOrNewStateObject A).1 := by
  simp only [buyNFTByExchanger, sell, buyNFTByExchangerChecks, Sale.settle, Res.bind_assoc, Res.ok_bind,
    Res.bind_eq_ok, Res.require_eq_ok, Res.ofOption_eq_ok] at h
  obtain ⟨buyer, -, seller, -, -, -, -, -, -, -, -, -, -, hto, -, -, -, -, -, -, -, -,
    ⟨A', level'⟩, hbuyer, ⟨A, level⟩, hseller, -, hsame, -, howner, -, -, -, -, beneficiary,
    hbeneficiary, hsettle⟩ := h
  obtain rfl := matchBeneficiary_eq hbeneficiary
  obtain ⟨paid, hchange, hparts⟩ := settleSale_opened hsettle
  subst hto
  dsimp only at hsame
  subst hsame
  exact ⟨A', level, level', paid, hbuyer, hseller, howner, hchange, hparts⟩

/-- A sale by an exchanger trades what both texts name if the NFT at hand is that one, and in states whose
levels are in range, as those of every chain are, only then. -/
theorem trades_same_iff (h : buyNFTByExchanger K db bn caller addr w amount = .ok t) :
    (SellsNamed K.toHasher w db caller addr → TradesSame K.toHasher w db t addr) ∧
      (Leveled db → TradesSame K.toHasher w db t addr → SellsNamed K.toHasher w db caller addr) := by
  obtain ⟨A, level, level', paid, hbuyer, hseller, howner, hchange, hparts⟩ := buyNFTByExchanger_inv h
  have hO : HeldBy db A (getNFTOwner16 K.toHasher db A) := (getNFTOwner16_iff_held howner).mp rfl
  have hgrow : ∀ {x o : Address}, HeldBy db x o →
      HeldBy (partiesOpened K.toHasher db caller addr A) x o := fun hx => HeldBy.opened hx _
  have hnft : nftAt (partiesOpened K.toHasher db caller addr A) = nftAt db := nftAt_opened db _
  have hgets : ∀ l, GetsExactly db t A addr l ↔
      ∀ x, ((OwnsLeaf K.toHasher t addr x ∧ ¬ OwnsLeaf K.toHasher db addr x) ↔ Leaf A l x) ∧
        (OwnsLeaf K.toHasher db addr x → OwnsLeaf K.toHasher t addr x) := by
    intro l
    simp only [GetsExactly, ownsLeaf_iff]
  constructor
  · rintro ⟨hN, A', l, hbuyer', hseller', hexact⟩
    rw [hseller] at hseller'
    cases hseller'
    refine ⟨A, level, hbuyer', hseller, (hgets level).mp ?_⟩
    exact hexact.getsExactly hgrow hO hN hparts hchange
  · rintro hleveled ⟨A', l, hbuyer', hseller', hall⟩
    rw [hseller] at hseller'
    cases hseller'
    have hN : addr ≠ 0 := ((hall A).1.mpr (leaf_self A level)).1.1
    refine ⟨hN, A, level, hbuyer', hseller, ?_⟩
    exact ((hgets level).mpr hall).handsExactly hnft hgrow hO hN hparts hchange (hleveled A)

/-! ## Runs -/

/-- Signatures that start with zero are the owner's, the others the buyer's. -/
def matchCrypto : Crypto where
  keccak256 := fun _ => []
  sigToPub := fun _ sig => .ok (if sig.head? = some 0 then 0x5e else 0xb0)

/-- An order over 100000 units for a text, with a signature that starts with a digit. -/
def matchOrder (nft : GoString) (digit : Char) : Payload where
  amount := "0x186a0".toList
  nftAddress := nft
  exchanger := "0x00000000000000000000000000000000000000e0".toList
  blockNumber := "0xff".toList
  seller := []
  sig := "0x".toList ++ List.replicate 128 digit ++ "1b".toList

/-- The exchanger brings an order of the buyer and one of the owner together. -/
def matchTx (buyerText sellerText : GoString) : WormholesTx :=
  { WormholesTx.bare 20 with
    buyer := matchOrder buyerText '1'
    seller1 := matchOrder sellerText '0' }

/-- The owner's only NFT, at a user address. -/
def userNFT : StateObject := { StateObject.fresh with nft := { AccountNFT.blank with owner := 0x5e } }

/-- The NFT, a buyer with funds and an exchanger. -/
def marketState : StateDB :=
  { Operation.bareState with
    accounts := fun a =>
      if a = 1 then some userNFT
      else if a = 0xb0 then some { StateObject.fresh with balance := 100000 }
      else if a = 0xe0 then some { StateObject.fresh with voteWeight := some 0 }
      else none }

theorem nftAt_marketState (a : Address) :
    nftAt marketState a = if a = 1 then { AccountNFT.blank with owner := 0x5e } else .blank := by
  unfold nftAt view marketState
  dsimp only
  split_ifs
  all_goals rfl

theorem sellsNamed_market :
    SellsNamed matchCrypto.toHasher (matchTx firstUserNFT firstUserNFT) marketState 0xe0 0xb0 := by
  have hlost : ∀ s x, nftAt s = nftAt marketState → ¬ HeldBy s x 0xb0 := by
    rintro s x hs ⟨k, hk⟩
    have howner := (covers_iff.mp hk.covers).2.1
    rw [hs, nftAt_marketState] at howner
    split_ifs at howner
    · exact absurd howner (by decide)
    · exact absurd howner (by decide)
  refine ⟨by decide, 1, 0, by decide +kernel, by decide +kernel, fun x => ?_, fun hoff => ?_,
    fun hoff => ?_⟩
  · have hv : nftAt (partiesOpened matchCrypto.toHasher marketState 0xe0 0xb0 1) = nftAt marketState :=
      nftAt_opened _ _
    have hlevel : handedLevel matchCrypto.toHasher
        (partiesOpened matchCrypto.toHasher marketState 0xe0 0xb0 1) 1 0 = 0 := by
      rw [handedLevel, if_neg (by decide), hv]
      rfl
    have hlive : ((partiesOpened matchCrypto.toHasher marketState 0xe0 0xb0 1).accounts 1).isSome := by
      decide +kernel
    rw [and_iff_left (hlost _ x rfl), or_iff_left (hlost _ x hv), hlevel]
    constructor
    · intro hleaf
      obtain rfl : x = 1 := by
        apply BitVec.eq_of_toNat_eq
        have := hleaf.1
        have := hleaf.2
        omega
      refine ⟨Nat.zero_le 6, ⟨fun e he => ?_, fun e he => absurd he (Nat.not_lt_zero e)⟩,
        blockStart_zero _ _⟩
      obtain rfl : e = 0 := by omega
      rw [blockStart_zero, live_toNat]
      exact hlive
    · intro hcomes
      have hstart := hcomes.2.2
      rw [blockStart_zero] at hstart
      unfold Leaf
      omega
  · exact absurd hoff (by decide)
  · exact absurd hoff (by decide)

/-- The owner's only NFT is sold by two orders for it. -/
theorem trades_same_iff_market : ∃ t,
    buyNFTByExchanger matchCrypto marketState 1 0xe0 0xb0 (matchTx firstUserNFT firstUserNFT) 100000 =
      .ok t ∧
    SellsNamed matchCrypto.toHasher (matchTx firstUserNFT firstUserNFT) marketState 0xe0 0xb0 ∧
    TradesSame matchCrypto.toHasher (matchTx firstUserNFT firstUserNFT) marketState t 0xb0 := by
  have hok : (buyNFTByExchanger matchCrypto marketState 1 0xe0 0xb0 (matchTx firstUserNFT firstUserNFT)
      100000).isOk = true := by
    decide +kernel
  obtain ⟨t, hsale⟩ := Res.exists_of_isOk hok
  exact ⟨t, hsale, sellsNamed_market, (trades_same_iff hsale).1 sellsNamed_market⟩

/-- The owner sells sixteen merged NFTs. The buyer signed an order for the first one, and gets all. -/
theorem matched_levels_differ :
    ∃ (g : Genesis) (es : List Event) (c : Chain) (caller addr : Address) (w : WormholesTx)
      (amount : ℕ) (t : StateDB),
      Run (Chain.step matchCrypto) (fun _ _ => True) g.chain es c ∧
        buyNFTByExchanger matchCrypto c.db c.number caller addr w amount = .ok t ∧
        getNftAddressAndLevel w.buyer.nftAddress =
          .ok (0x8000000000000000000000000000000000000000, 0) ∧
        getNFTOwner16 matchCrypto.toHasher c.db 0x800000000000000000000000000000000000000f = 0x5e ∧
        getNFTOwner16 matchCrypto.toHasher t 0x800000000000000000000000000000000000000f = addr ∧
        ¬ TradesSame matchCrypto.toHasher w c.db t addr := by
  let buyerText : GoString := "0x8000000000000000000000000000000000000000".toList
  let sellerText : GoString := "0x800000000000000000000000000000000000000".toList
  have hend : (runAll (Chain.step matchCrypto) [.finalizeBlock (List.replicate 16 0x5e)]
      saleGenesis.chain).map (fun c =>
        (getNFTOwner16 matchCrypto.toHasher c.db 0x800000000000000000000000000000000000000f,
          buyNFTByExchanger matchCrypto c.db c.number 0xe0 0xb0 (matchTx buyerText sellerText) 100000 >>=
            fun t => Res.ok (getNFTOwner16 matchCrypto.toHasher t
              0x800000000000000000000000000000000000000f))) = some (0x5e, .ok 0xb0) := by
    decide +kernel
  obtain ⟨c, hc, hends⟩ := Option.map_eq_some_iff.mp hend
  obtain ⟨hseller, hsale⟩ := Prod.mk.inj hends
  obtain ⟨t, hbuy, hbuyer⟩ := Res.bind_eq_ok.mp hsale
  have hrun : Run (Chain.step matchCrypto) (fun _ _ => True) saleGenesis.chain
      [.finalizeBlock (List.replicate 16 0x5e)] c := Run.of_runAll (fun _ _ _ => trivial) hc
  have hbuyerText : getNftAddressAndLevel (matchTx buyerText sellerText).buyer.nftAddress =
      .ok (0x8000000000000000000000000000000000000000, 0) := by
    decide +kernel
  have hsellerText : getNftAddressAndLevel (matchTx buyerText sellerText).seller1.nftAddress =
      .ok (0x8000000000000000000000000000000000000000, 1) := by
    decide +kernel
  refine ⟨saleGenesis, _, c, 0xe0, 0xb0, matchTx buyerText sellerText, 100000, t, hrun, hbuy, hbuyerText,
    hseller, Res.ok.inj hbuyer, ?_⟩
  rintro ⟨A, level, hbuyer', hseller', -⟩
  rw [hbuyerText] at hbuyer'
  rw [hsellerText] at hseller'
  cases hbuyer'
  cases hseller'

end Core

end Wormholes
