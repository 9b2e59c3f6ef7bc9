import Wormholes.Laws.Chain.Pledge

/-!
# Laws.Chain.Funds — balances stay non-negative, and how a sale is split

Every payment of the chain is checked against the payer's balance, except one: a sale credits the
seller with what fee and royalty leave of the price. The two rates are bounded separately, the
fee rate below ten thousand and the royalty of a type-0 or a mint-order NFT too, but not their
sum; an `NMINT` or an injected royalty has no bound at all. `RatesFit` is the exact condition
under which the split leaves nothing negative (`sale_split_iff_ratesFit`), and in a chain
whose sales all meet it no balance ever is.
-/

namespace Wormholes

open Lib Common Core StateDB

variable {K : Crypto}
variable {s t db : StateDB} {a buyer seller : Address} {o o' : StateObject}
  {x amount rate royalty bn : ℕ} {H : Hasher} {e : Event} {c : Chain}
variable {P : Address → StateObject → StateObject → Prop}
  {A b beneficiary nftAddress caller addr : Address} {level value : ℕ} {w : WormholesTx}

/-! ## Solvency -/

/-- An account's three amounts are not negative and its fee rate is below ten thousand. -/
structure StateObject.Solvent (o : StateObject) : Prop where
  balance : 0 ≤ o.balance
  pledge : 0 ≤ pledge o
  stake : 0 ≤ stake o
  rate : o.feeRate < 10000

/-- Every account is solvent. -/
def Solvent (s : StateDB) : Prop := ∀ a o, s.accounts a = some o → o.Solvent

theorem StateObject.solvent_fresh : StateObject.Solvent .fresh :=
  ⟨le_refl _, le_refl _, le_refl _, by decide⟩

theorem getFeeRate_eq_view (s : StateDB) (a : Address) : s.getFeeRate a = view StateObject.feeRate s a := by
  unfold getFeeRate view getStateObject
  cases s.accounts a with
  | none => rfl
  | some o => rfl

/-- Pledges, stakes and fee rates in range; a genesis does not check its balances. -/
def NoDebt (s : StateDB) : Prop :=
  ∀ a, 0 ≤ s.getPledgedBalance a ∧ 0 ≤ s.getExchangerBalance a ∧ s.getFeeRate a < 10000

theorem solvent_iff : Solvent s ↔ (∀ a, 0 ≤ s.getBalance a) ∧ NoDebt s := by
  simp only [NoDebt, getBalance_eq_view, getPledgedBalance_eq_view, getExchangerBalance_eq_view,
    getFeeRate_eq_view, ← forall_and]
  refine ⟨fun h a => ?_, fun h a o ha => ?_⟩
  · cases ha : s.accounts a with
    | none =>
      simp only [view_of_none _ ha]
      exact ⟨le_refl _, le_refl _, le_refl _, by decide⟩
    | some o =>
      simp only [view_of_some _ ha]
      exact ⟨(h a o ha).balance, (h a o ha).pledge, (h a o ha).stake, (h a o ha).rate⟩
  · have := h a
    simp only [view_of_some _ ha] at this
    exact ⟨this.1, this.2.1, this.2.2.1, this.2.2.2⟩

theorem Solvent.getBalance (h : Solvent s) (a : Address) : 0 ≤ s.getBalance a :=
  (solvent_iff.mp h).1 a

theorem Solvent.noDebt (h : Solvent s) : NoDebt s := (solvent_iff.mp h).2

theorem NoDebt.of_steps (h : Steps P s t)
    (hP : ∀ {a o o'}, P a o o' → pledge o' = pledge o ∧ stake o' = stake o ∧ o'.feeRate = o.feeRate)
    (hs : NoDebt s) : NoDebt t := by
  intro a
  rw [h.getPledgedBalance_eq fun hp => (hP hp).1, h.getExchangerBalance_eq fun hp => (hP hp).2.1,
    getFeeRate_eq_view, h.view_eq fun hp => (hP hp).2.2, ← getFeeRate_eq_view]
  exact hs a

/-- Pledging, given the pledges it leaves. -/
theorem NoDebt.of_pledging (h : Steps PledgingOnly s t) (hs : NoDebt s)
    (hpledge : ∀ a, 0 ≤ t.getPledgedBalance a) : NoDebt t := by
  intro a
  refine ⟨hpledge a, ?_⟩
  rw [h.getExchangerBalance_eq fun hP => by obtain ⟨b, p, rfl⟩ := hP; rfl, getFeeRate_eq_view,
    h.view_eq fun hP => by obtain ⟨b, p, rfl⟩ := hP; rfl, ← getFeeRate_eq_view]
  exact (hs a).2

/-- What exchangers do, given the stakes it leaves. -/
theorem NoDebt.of_exchanger {fee : ℕ} (h : Steps (ExchangerOnly fee) s t) (hfee : fee < 10000)
    (hs : NoDebt s) (hstake : ∀ a, 0 ≤ t.getExchangerBalance a) : NoDebt t := by
  intro a
  refine ⟨?_, hstake a, ?_⟩
  · rw [h.getPledgedBalance_eq pledge_of_exchangerOnly]
    exact (hs a).1
  · have hrate : ∀ b o, t.accounts b = some o → o.feeRate < 10000 := by
      refine h.forall_accounts (fun _ => by decide) ?_
        fun b o hb => ?_
      · rintro b o o' ⟨_, _, _, _, rate, _, _, rfl, hrate⟩ ho
        rcases hrate with rfl | rfl
        · exact ho
        · exact hfee
      · have := (hs b).2.2
        rwa [getFeeRate_eq_view, view_of_some _ hb] at this
    rw [getFeeRate_eq_view]
    unfold view
    split
    next o ho => exact hrate a o ho
    · decide

theorem Solvent.of_steps (h : Steps P s t) (hP : ∀ {a o o'}, P a o o' → o.Solvent → o'.Solvent)
    (hs : Solvent s) : Solvent t :=
  h.forall_accounts (fun _ => StateObject.solvent_fresh) hP hs

/-- Payments that leave every balance non-negative. -/
theorem Solvent.of_payment (h : Steps PaymentOnly s t) (hs : Solvent s)
    (hbalance : ∀ a, 0 ≤ t.getBalance a) : Solvent t := by
  refine solvent_iff.mpr ⟨hbalance, hs.noDebt.of_steps h ?_⟩
  rintro a o o' ⟨b, v, rfl⟩
  exact ⟨rfl, rfl, rfl⟩

theorem solvent_codeOnly (h : CodeOnly a o o') (ho : o.Solvent) : o'.Solvent := by
  obtain ⟨n, c, st, rfl⟩ := h
  exact ⟨ho.balance, ho.pledge, ho.stake, ho.rate⟩

theorem solvent_nftOnly (h : NFTOnly a o o') (ho : o.Solvent) : o'.Solvent := by
  obtain ⟨n, rfl⟩ := h
  exact ⟨ho.balance, ho.pledge, ho.stake, ho.rate⟩

theorem solvent_mintAt (h : MintAt A a o o') (ho : o.Solvent) : o'.Solvent := by
  rcases h with hnft | ⟨-, rfl⟩
  · exact solvent_nftOnly hnft ho
  · exact ⟨ho.balance, le_refl _, le_refl _, StateObject.solvent_fresh.rate⟩

theorem solvent_mintAny (h : MintAny a o o') (ho : o.Solvent) : o'.Solvent := by
  rcases h with hmint | ⟨v, rfl⟩
  · exact solvent_mintAt hmint ho
  · exact ⟨ho.balance, ho.pledge, ho.stake, ho.rate⟩

theorem solvent_approveAllOnly (h : ApproveAllOnly a o o') (ho : o.Solvent) : o'.Solvent := by
  obtain ⟨l, rfl⟩ := h
  exact ⟨ho.balance, ho.pledge, ho.stake, ho.rate⟩

theorem solvent_approveOnly (h : ApproveOnly A a o o') (ho : o.Solvent) : o'.Solvent := by
  obtain ⟨-, x, rfl⟩ := h
  exact ⟨ho.balance, ho.pledge, ho.stake, ho.rate⟩

theorem StateDB.NFTWrite.solvent (h : NFTWrite s t) (hs : Solvent s) : Solvent t :=
  hs.of_steps h.steps solvent_nftOnly

/-! ## Single payments -/

theorem nonneg_add_ite {p : Prop} [Decidable p] {x y : ℤ} (hy : 0 ≤ y) (hx : 0 ≤ x) :
    0 ≤ y + if p then x else 0 := by
  split
  · omega
  · omega

theorem nonneg_sub_ite {f : Address → ℤ} {x : ℤ} (hb : 0 ≤ f b) (hx : x ≤ f a) :
    0 ≤ f b - if b = a then x else 0 := by
  split
  next heq => subst heq; omega
  · omega

theorem Solvent.addBalance (hs : Solvent s) (a : Address) {x : ℤ} (hx : 0 ≤ x) :
    Solvent (s.addBalance a x) := by
  refine hs.of_payment ((addBalance_steps s a x).mono paymentOnly_of_balanceOnly) fun b => ?_
  rw [getBalance_addBalance]
  exact nonneg_add_ite (hs.getBalance b) hx

theorem Solvent.subBalance (hs : Solvent s) {x : ℤ} (hx : x ≤ s.getBalance a) :
    Solvent (s.subBalance a x) := by
  refine hs.of_payment ((subBalance_steps s a x).mono paymentOnly_of_balanceOnly) fun b => ?_
  rw [getBalance_subBalance]
  exact nonneg_sub_ite (hs.getBalance b) hx

theorem Solvent.transfer (hs : Solvent s) (hx : x = 0 ∨ s.getBalance a ≥ x) :
    Solvent (s.transfer a b x) := by
  have hle : (x : ℤ) ≤ s.getBalance a := by
    rcases hx with rfl | hx
    · exact hs.getBalance a
    · exact hx
  exact (hs.subBalance hle).addBalance b (Int.natCast_nonneg x)

theorem Solvent.pledgeToken (hs : Solvent s) (hx : s.getBalance a ≥ x) :
    Solvent (s.pledgeToken a x) := by
  refine solvent_iff.mpr
    ⟨fun b => ?_, hs.noDebt.of_pledging (pledgeToken_steps s a x) fun b => ?_⟩
  · rw [getBalance_pledgeToken]
    exact nonneg_sub_ite (hs.getBalance b) hx
  · rw [getPledgedBalance_pledgeToken]
    exact nonneg_add_ite (hs.noDebt b).1 (Int.natCast_nonneg x)

theorem Solvent.cancelPledgedToken (hs : Solvent s) (hx : s.getPledgedBalance a ≥ x)
    (h : s.cancelPledgedToken a x = some t) : Solvent t := by
  refine solvent_iff.mpr
    ⟨fun b => ?_, hs.noDebt.of_pledging (cancelPledgedToken_steps h) fun b => ?_⟩
  · rw [getBalance_cancelPledgedToken h]
    exact nonneg_add_ite (hs.getBalance b) (Int.natCast_nonneg x)
  · rw [getPledgedBalance_cancelPledgedToken h]
    exact nonneg_sub_ite (hs.noDebt b).1 hx

/-! ## The split of a sale -/

/-- Fee and royalty rates, in ten-thousandths, that an amount can pay: below ten thousand units
nothing is due, else each rate takes its multiple of `amount / 10000`. Rates that add up to at most
ten thousand always fit. -/
def RatesFit (rate royalty amount : ℕ) : Prop :=
  amount < 10000 ∨ rate + royalty ≤ amount / (amount / 10000)

/-- Fee and royalty are the same ten-thousandth of the amount, rounded down, times their rates, so only
the sum of the rates matters. -/
theorem feeOf_add_le_iff (rate royalty amount : ℕ) :
    feeOf amount rate + feeOf amount royalty ≤ amount ↔ RatesFit rate royalty amount := by
  have hsum : feeOf amount rate + feeOf amount royalty = (rate + royalty) * (amount / 10000) := by
    unfold feeOf
    ring
  rw [hsum]
  unfold RatesFit
  by_cases hsmall : amount < 10000
  · have hzero : amount / 10000 = 0 := Nat.div_eq_of_lt hsmall
    simp [hsmall, hzero]
  · have hpos : 0 < amount / 10000 := Nat.div_pos (Nat.not_lt.mp hsmall) (by decide)
    rw [Nat.le_div_iff_mul_le hpos]
    simp [hsmall]

/-- A fee alone always fits: rates are below ten thousand. -/
theorem feeOf_le (hrate : rate < 10000) : feeOf amount rate ≤ amount := by
  unfold feeOf
  calc amount / 10000 * rate ≤ amount / 10000 * 10000 := Nat.mul_le_mul_left _ hrate.le
    _ ≤ amount := Nat.div_mul_le_self amount 10000

/-- The balances a sale leaves. -/
theorem getBalance_settleSale
    (h : settleSale H db buyer seller beneficiary nftAddress level amount = some t) (a : Address) :
    t.getBalance a = db.getBalance a - (if a = buyer then (amount : ℤ) else 0) +
      (if a = seller then sellerAmount db beneficiary nftAddress amount else 0) +
      (if a = db.getNFTCreator nftAddress then (royaltyAmount db nftAddress amount : ℤ) else 0) +
      (if a = beneficiary then (exchangerAmount db beneficiary amount : ℤ) else 0) := by
  obtain ⟨paid, hpaid, hchange⟩ := settleSale_inv h
  rw [(changeNFTOwner_nftWrite hchange).steps.getBalance_eq fun hP => by obtain ⟨n, rfl⟩ := hP; rfl,
    (addVoteWeight_steps _ _ hpaid).getBalance_eq fun hP => by obtain ⟨v, rfl⟩ := hP; rfl,
    getBalance_addBalance, getBalance_addBalance, getBalance_addBalance, getBalance_subBalance]

/-- A sale whose rates fit leaves every account solvent. -/
theorem Solvent.settleSale (hs : Solvent db) (hfunds : db.getBalance buyer ≥ amount)
    (hfit : RatesFit (db.getFeeRate beneficiary) (db.getNFTRoyalty nftAddress) amount)
    (h : Core.settleSale H db buyer seller beneficiary nftAddress level amount = some t) :
    Solvent t := by
  have hproceeds : 0 ≤ sellerAmount db beneficiary nftAddress amount := by
    have hle := (feeOf_add_le_iff _ _ _).mpr hfit
    unfold sellerAmount exchangerAmount royaltyAmount
    omega
  obtain ⟨paid, hpaid, hchange⟩ := settleSale_inv h
  refine (changeNFTOwner_nftWrite hchange).solvent (hs.of_payment (paid_steps hpaid) fun a => ?_)
  rw [(addVoteWeight_steps _ _ hpaid).getBalance_eq fun hP => by obtain ⟨v, rfl⟩ := hP; rfl,
    getBalance_addBalance, getBalance_addBalance, getBalance_addBalance, getBalance_subBalance]
  exact nonneg_add_ite (nonneg_add_ite (nonneg_add_ite (nonneg_sub_ite (hs.getBalance a) hfunds)
    hproceeds) (Int.natCast_nonneg _)) (Int.natCast_nonneg _)

/-- A sale that mints pays one fee, which always fits. -/
theorem Solvent.settleMintSale {exchanger exclusive : Address} {metaURL : GoString}
    (hs : Solvent db) (hfunds : db.getBalance buyer ≥ amount)
    (h : Core.settleMintSale H db buyer seller exchanger exclusive royalty metaURL amount = some t) :
    Solvent t := by
  obtain ⟨paid, hpaid, hchange⟩ := settleMintSale_inv h
  have hmint := createNFTByUser_steps db exclusive seller royalty metaURL
  have hminted : Solvent (db.createNFTByUser exclusive seller royalty metaURL).1 :=
    hs.of_steps hmint solvent_mintAt
  have hbuyer : (db.createNFTByUser exclusive seller royalty metaURL).1.getBalance buyer ≥ amount := by
    rw [hmint.getBalance_eq fun hP => ?_]
    · exact hfunds
    · rcases hP with ⟨n, rfl⟩ | ⟨-, rfl⟩
      · rfl
      · rfl
  have hfee : feeOf amount ((db.createNFTByUser exclusive seller royalty metaURL).1.getFeeRate
      exchanger) ≤ amount := feeOf_le (hminted.noDebt exchanger).2.2
  have hpayments := ((hminted.subBalance hbuyer).addBalance seller
    (x := (amount : ℤ) - feeOf amount
      ((db.createNFTByUser exclusive seller royalty metaURL).1.getFeeRate exchanger))
    (by omega)).addBalance exchanger (Int.natCast_nonneg (feeOf amount
      ((db.createNFTByUser exclusive seller royalty metaURL).1.getFeeRate exchanger)))
  refine (changeNFTOwner_nftWrite hchange).solvent (hpayments.of_steps (addVoteWeight_steps _ _ hpaid) ?_)
  rintro a o o' ⟨v, rfl⟩ ho
  exact ⟨ho.balance, ho.pledge, ho.stake, ho.rate⟩

/-! ## Effects -/

/-- The rates of a sale fit its amount, if the operation is a sale that goes through. -/
def SaleFits (K : Crypto) (blocknumber : ℕ) (e : Event) (s : StateDB) : Prop :=
  match e with
  | .call caller addr (.wormholes w) value =>
    ∀ t, handleNFT K s blocknumber caller addr w value = .ok t →
      ∀ nftAddress beneficiary, saleTerms K s caller w = some (nftAddress, beneficiary) →
        RatesFit (s.getFeeRate beneficiary) (s.getNFTRoyalty nftAddress) value
  | _ => True

theorem Core.Handled.solvent (h : Handled K s bn caller addr w value t)
    (hfit : ∀ nftAddress beneficiary, saleTerms K s caller w = some (nftAddress, beneficiary) →
      RatesFit (s.getFeeRate beneficiary) (s.getNFTRoyalty nftAddress) value) (hs : Solvent s) :
    Solvent t := by
  cases h with
  | userMint => exact hs.of_steps (createNFTByUser_steps _ _ _ _ _) solvent_mintAt
  | transfer _ _ _ h =>
    refine (changeNFTOwner_nftWrite h).solvent ?_
    exact hs.of_steps (ensure_steps s _ (P := NFTOnly)) solvent_nftOnly
  | approve => exact hs.of_steps (changeNFTApproveAddress_steps _ _ _) solvent_approveOnly
  | unapprove => exact hs.of_steps (cancelNFTApproveAddress_steps _ _ _) solvent_approveOnly
  | approveAll => exact hs.of_steps (changeApproveAddress_steps _ _ _) solvent_approveAllOnly
  | unapproveAll => exact hs.of_steps (cancelApproveAddress_steps _ _ _) solvent_approveAllOnly
  | @exchange nftAddress level _ _ _ _ _ h =>
    obtain ⟨s₁, hsplit, hfound, rfl⟩ := exchangeNFTToCurrency_inv h
    refine Solvent.addBalance ?_ _ (Int.natCast_nonneg _)
    have h₁ := ((splitNFT16_nftWrite hsplit).trans
      (getOrNewStateObject_partWrite s₁ nftAddress)).trans (getOrNewStateObject_partWrite _ caller)
    refine (setNFTInfo_nftWrite (s := enqueue _ _) hfound .blank).solvent ?_
    exact (NFTWrite.solvent h₁ hs).of_steps (enqueue_steps _ _ (P := NFTOnly)) solvent_nftOnly
  | nothing => exact hs
  | pledge _ hfunds => exact hs.pledgeToken hfunds
  | unpledge _ hfunds h => exact hs.cancelPledgedToken hfunds h
  | openExchanger _ hrate hfunds =>
    refine solvent_iff.mpr ⟨fun a => ?_,
      hs.noDebt.of_exchanger (openExchanger_steps _ _ _ _ _ _ _) hrate fun a => ?_⟩
    · rw [(openExchanger_values _ _ _ _ _ _ _ a).1]
      exact nonneg_sub_ite (hs.getBalance a) hfunds
    · rw [(openExchanger_values _ _ _ _ _ _ _ a).2]
      split
      · exact Int.natCast_nonneg value
      · exact (hs.noDebt a).2.1
  | closeExchanger _ h =>
    refine solvent_iff.mpr
      ⟨fun a => ?_, hs.noDebt.of_exchanger (closeExchanger_steps h) (by decide) fun a => ?_⟩
    · rcases closeExchanger_values h with ⟨-, hsame⟩ | ⟨-, hpaid⟩
      · rw [(hsame a).1]
        exact hs.getBalance a
      · rw [(hpaid a).1]
        exact nonneg_add_ite (hs.getBalance a) (hs.noDebt caller).2.1
    · rcases closeExchanger_values h with ⟨-, hsame⟩ | ⟨-, hpaid⟩
      · rw [(hsame a).2]
        exact (hs.noDebt a).2.1
      · rw [(hpaid a).2]
        split
        · exact le_refl 0
        · exact (hs.noDebt a).2.1
  | inject => exact hs
  | sale _ hterms _ _ hfunds _ h => exact hs.settleSale hfunds (hfit _ _ hterms) h
  | mintSale _ hfunds _ h => exact hs.settleMintSale hfunds h
  | addStake _ hfunds h =>
    refine solvent_iff.mpr
      ⟨fun a => ?_, hs.noDebt.of_exchanger (addExchangerToken_steps h) (by decide) fun a => ?_⟩
    · rw [(addExchangerToken_values h a).1]
      exact nonneg_sub_ite (hs.getBalance a) hfunds
    · rw [(addExchangerToken_values h a).2]
      exact nonneg_add_ite (hs.noDebt a).2.1 (Int.natCast_nonneg value)
  | subStake _ hfunds h =>
    refine solvent_iff.mpr
      ⟨fun a => ?_, hs.noDebt.of_exchanger (subExchangerToken_steps h) (by decide) fun a => ?_⟩
    · rw [(subExchangerToken_values h a).1]
      exact nonneg_add_ite (hs.getBalance a) (Int.natCast_nonneg value)
    · rw [(subExchangerToken_values h a).2]
      exact nonneg_sub_ite (hs.noDebt a).2.1 hfunds
  | vote => exact hs.of_steps (voteOfficialNFT_steps _ _ (P := NFTOnly)) solvent_nftOnly
  | online _ hfunds =>
    exact (hs.transfer (Or.inr hfunds)).of_steps
      (addOrUpdateActiveMiner_steps _ _ _ _ (P := NFTOnly)) solvent_nftOnly

theorem Effect.solvent (h : Effect K bn e s t) (hfit : SaleFits K bn e s) (hs : Solvent s) :
    Solvent t := by
  cases h with
  | skip => exact hs
  | transfer hfunds => exact hs.transfer hfunds
  | payload h => exact (handleNFT_inv h).solvent (hfit _ h) hs
  | nonce => exact hs.of_steps (setNonce_steps _ _ _) solvent_codeOnly
  | @created caller addr value _ hfunds =>
    have hfresh := createAccount_steps s addr (P := MintAt addr) fun _ => Or.inr ⟨rfl, rfl⟩
    have hnonce := setNonce_steps (s.createAccount addr) addr 1
    have hbalance : ((s.createAccount addr).setNonce addr 1).getBalance caller = s.getBalance caller := by
      rw [hnonce.getBalance_eq fun hP => by obtain ⟨n, c, st, rfl⟩ := hP; rfl,
        hfresh.getBalance_eq fun hP => ?_]
      rcases hP with ⟨n, rfl⟩ | ⟨-, rfl⟩
      · rfl
      · rfl
    refine Solvent.transfer ((hs.of_steps hfresh solvent_mintAt).of_steps hnonce solvent_codeOnly)
      (Or.inr ?_)
    rw [hbalance]
    exact hfunds
  | touch => exact hs.addBalance _ (le_refl 0)
  | sstore => exact hs.of_steps (setState_steps _ _ _ _) solvent_codeOnly
  | setCode => exact hs.of_steps (setCode_steps _ _ _) solvent_codeOnly
  | @selfDestruct contract beneficiary =>
    refine (hs.addBalance beneficiary (hs.getBalance contract)).of_steps
      (suicide_steps _ contract (P := fun _ o o' => o' = { o with suicided := true, balance := 0 })
        fun _ => rfl) ?_
    rintro a o o' rfl ho
    exact ⟨le_refl 0, ho.pledge, ho.stake, ho.rate⟩
  | nTransferFrom _ h => exact (changeNFTOwner_nftWrite h).solvent hs
  | nApprove => exact hs.of_steps (changeNFTApproveAddress_steps _ _ _) solvent_approveOnly
  | nApproveAll => exact hs.of_steps (changeApproveAddress_steps _ _ _) solvent_approveAllOnly
  | nUnapproveAll => exact hs.of_steps (cancelApproveAddress_steps _ _ _) solvent_approveAllOnly
  | nMint => exact hs.of_steps (createNFTByUser_steps _ _ _ _ _) solvent_mintAt
  | buyGas hfunds => exact hs.subBalance hfunds
  | setNonce => exact hs.of_steps (setNonce_steps _ _ _) solvent_codeOnly
  | credit => exact hs.addBalance _ (Int.natCast_nonneg _)

/-! ## Steps and runs -/

/-- The condition on a step: a sale's rates fit its amount. A call is handled after its
snapshot. -/
def SalesFit (K : Crypto) (c : Chain) (e : Event) : Prop := SaleFits K c.number e c.db.snapshot

/-- Every current and recorded state of a chain is solvent. -/
structure FundsInv (c : Chain) : Prop where
  savedOk : c.SavedOk
  states : c.AllStates Solvent

theorem solvent_finalise (hs : Solvent s) : Solvent s.finalise := by
  intro a o ha
  simp only [finalise] at ha
  split at ha
  next o' ho' =>
    split at ha
    · cases ha
    · cases ha
      exact hs a o ho'
  · cases ha

theorem solvent_reload (hs : Solvent s) : Solvent s.reload := by
  intro a o ha
  obtain ⟨o', ho', rfl⟩ := Option.map_eq_some_iff.mp ha
  exact ⟨(hs a o' ho').balance, (hs a o' ho').pledge, (hs a o' ho').stake, (hs a o' ho').rate⟩

/-- Accounts that agree up to absent balances are solvent together. -/
theorem solvent_of_equiv (h : t.accounts.Equiv s.accounts) (hs : Solvent s) : Solvent t := by
  intro a o ha
  have heq := h a
  rw [ha] at heq
  obtain ⟨o', ho', hnormal⟩ := Option.map_eq_some_iff.mp heq.symm
  have hgood := hs a o' ho'
  simp only [StateObject.normal, StateObject.mk.injEq] at hnormal
  refine ⟨?_, ?_, ?_, ?_⟩
  · rw [← hnormal.2.1]
    exact hgood.balance
  · have hpledge : pledge o' = pledge o := Option.some.inj hnormal.2.2.2.2.1
    rw [← hpledge]
    exact hgood.pledge
  · have hstake : stake o' = stake o := Option.some.inj hnormal.2.2.2.2.2.2.2.1
    rw [← hstake]
    exact hgood.stake
  · rw [← hnormal.2.2.2.2.2.2.2.2.2.1]
    exact hgood.rate

theorem step_fundsInv {c' : Chain} (hc : FundsInv c) (hok : SalesFit K c e)
    (h : Chain.step K e c = some c') : FundsInv c' := by
  refine ⟨Chain.step_savedOk h hc.savedOk, ?_⟩
  by_cases hinner : ∃ bs, e = .finalizeBlock bs
  · obtain ⟨bs, rfl⟩ := hinner
    obtain ⟨db, hdb, rfl⟩ := Chain.step_finalizeBlock_inv h
    refine ⟨?_, fun p hp => by cases hp⟩
    have hminted : Solvent db := hc.states.1.of_steps (createNFTByOfficial16_steps hdb) solvent_mintAny
    exact solvent_reload (solvent_finalise hminted)
  · refine Chain.allStates_step h hc.savedOk hc.states ?_ hok ?_
      (fun hs => hs) ?_ (fun heffect hs hfit => heffect.solvent hfit hs) ?_ ?_
      fun bs heq => hinner ⟨bs, heq⟩
    · intro hcall
      cases e with
      | call => cases hcall
      | _ => trivial
    · rintro caller addr value n rfl
      trivial
    · exact fun a n hs => hs.of_steps (setNonce_steps _ a n) solvent_codeOnly
    · rintro id t u - - ht hequiv -
      exact solvent_of_equiv hequiv ht
    · rintro -
      exact solvent_finalise hc.states.1

theorem Genesis.noDebt (g : Genesis) : NoDebt g.toState := by
  have hempty : NoDebt g.emptyState := fun a => ⟨le_refl 0, le_refl 0, by show 0 < 10000; decide⟩
  refine List.foldlRecOn g.validator _ (List.foldlRecOn g.stake _ (List.foldlRecOn g.alloc _ hempty ?_)
    ?_) ?_
  · intro s hs a _
    refine ((hs.of_steps (addBalance_steps _ _ _) ?_).of_steps (setCode_steps _ _ _) ?_).of_steps
      (setNonce_steps _ _ _) ?_
    · rintro b o o' ⟨x, rfl⟩
      exact ⟨rfl, rfl, rfl⟩
    · rintro b o o' ⟨n, c, st, rfl⟩
      exact ⟨rfl, rfl, rfl⟩
    · rintro b o o' ⟨n, c, st, rfl⟩
      exact ⟨rfl, rfl, rfl⟩
  · intro s hs v _
    refine hs.of_exchanger (openExchanger_steps _ _ _ _ _ _ _) (by show 250 < 10000; decide) fun a => ?_
    rw [(openExchanger_values _ _ _ _ _ _ _ a).2]
    split
    · exact Int.natCast_nonneg _
    · exact (hs a).2.1
  · intro s hs v _
    refine hs.of_pledging (pledgeToken_steps _ _ _) fun a => ?_
    rw [getPledgedBalance_pledgeToken]
    exact nonneg_add_ite (hs a).1 (Int.natCast_nonneg _)

/-- A genesis whose balances cover its stakes and pledges starts a solvent chain. -/
theorem Genesis.fundsInv {g : Genesis} (hfunded : ∀ a, 0 ≤ g.toState.getBalance a) :
    FundsInv g.chain := by
  have hsolvent : Solvent g.toState := solvent_iff.mpr ⟨hfunded, g.noDebt⟩
  exact ⟨trivial, solvent_reload (solvent_finalise hsolvent), fun p hp => by cases hp⟩

/-- The types that sell an NFT which exists. -/
def sellsNFT (w : WormholesTx) : Prop := w.type = 14 ∨ w.type = 15 ∨ w.type = 18 ∨ w.type = 20

theorem handled_sale (htype : sellsNFT w) (h : Handled K s bn caller addr w value t) :
    ∃ nftAddress buyer beneficiary level,
      saleTerms K s caller w = some (nftAddress, beneficiary) ∧ s.getBalance buyer ≥ value ∧
        settleSale K.toHasher s buyer (getNFTOwner16 K.toHasher s nftAddress) beneficiary nftAddress
          level value = some t := by
  unfold sellsNFT at htype
  cases h with
  | sale _ hterms _ _ hfunds _ h => exact ⟨_, _, _, _, hterms, hfunds, h⟩
  | _ => omega

/-- In every chain whose sales so far fit, a sale of an existing NFT pays exactly its amount out to
seller, creator and exchanger, and the shares are covered and no balance is negative afterwards
exactly if its rates fit. A genesis with a negative balance cannot be encoded, so `hfunded` holds
of every genesis a chain starts with. -/
theorem sale_split_iff_ratesFit {g : Genesis} (hfunded : ∀ a, 0 ≤ g.toState.getBalance a)
    {es : List Event} {c : Chain} (hrun : Run (Chain.step K) (SalesFit K) g.chain es c)
    {caller addr : Address} {w : WormholesTx} {value : ℕ} {t : StateDB} (htype : sellsNFT w)
    (h : handleNFT K c.db c.number caller addr w value = .ok t) :
    ∃ nftAddress buyer beneficiary,
      saleTerms K c.db caller w = some (nftAddress, beneficiary) ∧
      (∀ a, t.getBalance a = c.db.getBalance a - (if a = buyer then (value : ℤ) else 0) +
        (if a = getNFTOwner16 K.toHasher c.db nftAddress then
          sellerAmount c.db beneficiary nftAddress value else 0) +
        (if a = c.db.getNFTCreator nftAddress then (royaltyAmount c.db nftAddress value : ℤ) else 0) +
        (if a = beneficiary then (exchangerAmount c.db beneficiary value : ℤ) else 0)) ∧
      sellerAmount c.db beneficiary nftAddress value + royaltyAmount c.db nftAddress value +
        exchangerAmount c.db beneficiary value = value ∧
      ((exchangerAmount c.db beneficiary value + royaltyAmount c.db nftAddress value ≤ value ∧
        0 ≤ sellerAmount c.db beneficiary nftAddress value ∧ ∀ a, 0 ≤ t.getBalance a) ↔
        RatesFit (c.db.getFeeRate beneficiary) (c.db.getNFTRoyalty nftAddress) value) := by
  have hinv : FundsInv c := hrun.invariant (Genesis.fundsInv hfunded) step_fundsInv
  obtain ⟨nftAddress, buyer, beneficiary, level, hterms, hfunds, hsettle⟩ :=
    handled_sale htype (handleNFT_inv h)
  refine ⟨nftAddress, buyer, beneficiary, hterms, getBalance_settleSale hsettle, ?_, ?_, ?_⟩
  · unfold sellerAmount
    ring
  · rintro ⟨hle, -, -⟩
    exact (feeOf_add_le_iff _ _ _).mp hle
  · intro hfit
    have hle := (feeOf_add_le_iff _ _ _).mpr hfit
    refine ⟨hle, ?_, ?_⟩
    · unfold sellerAmount exchangerAmount royaltyAmount
      omega
    · exact (Solvent.settleSale hinv.states.1 hfunds hfit hsettle).getBalance

/-! ## Worked sales -/

theorem Genesis.small_funded (alloc : List GenesisAccount) (a : Address) :
    0 ≤ (Genesis.small alloc).toState.getBalance a := by
  have hfold : ∀ b, 0 ≤ (alloc.foldl (fun s a =>
      ((s.addBalance a.addr a.balance).setCode a.addr a.code).setNonce a.addr a.nonce)
        (Genesis.small alloc).emptyState).getBalance b := by
    refine List.foldlRecOn (motive := fun s : StateDB => ∀ b, 0 ≤ s.getBalance b) alloc _
      (fun b => le_refl 0) fun s hs x _ b => ?_
    rw [(setNonce_steps _ _ _).getBalance_eq fun hP => by obtain ⟨n, c, st, rfl⟩ := hP; rfl,
      (setCode_steps _ _ _).getBalance_eq fun hP => by obtain ⟨n, c, st, rfl⟩ := hP; rfl,
      getBalance_addBalance]
    exact nonneg_add_ite (hs b) (Int.natCast_nonneg _)
  exact hfold a

/-- An exchanger, a creator, a later owner and a buyer. -/
def saleGenesis : Genesis :=
  .small [⟨0xe0, 200 * baseErb, [], 0⟩, ⟨0xc1, 0, [], 0⟩, ⟨0x5e, 0, [], 0⟩, ⟨0xb0, baseErb, [], 0⟩]

/-- Every signature is the later owner's. -/
def saleCrypto : Crypto where
  keccak256 := fun _ => []
  sigToPub := fun _ _ => .ok 0x5e

/-- The text of the first user NFT. -/
def firstUserNFT : GoString := "0x0000000000000000000000000000000000000001".toList

/-- The exchanger opens with a fee rate, the creator mints with a royalty and gives the NFT away. -/
def saleHistory (rate royalty : ℕ) : List Event :=
  [.call 0xe0 0xe0 (.wormholes { WormholesTx.bare 11 with feeRate := rate }) (100 * baseErb),
    .call 0xc1 0xc1 (.wormholes { WormholesTx.bare 0 with royalty := royalty }) 0,
    .call 0xc1 0x5e (.wormholes { WormholesTx.bare 1 with nftAddress := firstUserNFT }) 0]

/-- The buyer accepts the owner's order over 100000 units. -/
def saleTx : WormholesTx :=
  { WormholesTx.bare 15 with
    seller1 :=
      { amount := "0x186a0".toList
        nftAddress := firstUserNFT
        exchanger := "0x00000000000000000000000000000000000000e0".toList
        blockNumber := "0xff".toList
        seller := []
        sig := "0x".toList ++ List.replicate 128 '0' ++ "1b".toList } }

/-- The outcome of the sale after a history. -/
def saleAfter (rate royalty : ℕ) : Option (Chain × StateDB) :=
  (runAll (Chain.step saleCrypto) (saleHistory rate royalty) saleGenesis.chain).bind fun c =>
    match handleNFT saleCrypto c.db c.number 0xb0 0xb0 saleTx 100000 with
    | .ok t => some (c, t)
    | _ => none

theorem saleAfter_inv (h : saleAfter rate royalty = some (c, t)) :
    runAll (Chain.step saleCrypto) (saleHistory rate royalty) saleGenesis.chain = some c ∧
      handleNFT saleCrypto c.db c.number 0xb0 0xb0 saleTx 100000 = .ok t := by
  obtain ⟨c', hc', hsale⟩ := Option.bind_eq_some_iff.mp h
  split at hsale
  next t' ht' =>
    cases hsale
    exact ⟨hc', ht'⟩
  · cases hsale

/-- None of the operations before the sale is one. -/
theorem saleHistory_fits (he : e ∈ saleHistory rate royalty) : SalesFit saleCrypto c e := by
  simp only [saleHistory, List.mem_cons, List.not_mem_nil, or_false] at he
  rcases he with rfl | rfl | rfl
  · intro t _ nftAddress beneficiary hterms
    cases hterms
  · intro t _ nftAddress beneficiary hterms
    cases hterms
  · intro t _ nftAddress beneficiary hterms
    cases hterms

/-- With both rates at five hundred the sale's shares are covered. -/
theorem sale_split_fits :
    ∃ (c : Chain) (t : StateDB),
      Run (Chain.step saleCrypto) (SalesFit saleCrypto) saleGenesis.chain (saleHistory 500 500) c ∧
        handleNFT saleCrypto c.db c.number 0xb0 0xb0 saleTx 100000 = .ok t ∧
          ∃ nftAddress beneficiary,
            saleTerms saleCrypto c.db 0xb0 saleTx = some (nftAddress, beneficiary) ∧
              ((exchangerAmount c.db beneficiary 100000 + royaltyAmount c.db nftAddress 100000 ≤ 100000 ∧
                0 ≤ sellerAmount c.db beneficiary nftAddress 100000 ∧ ∀ a, 0 ≤ t.getBalance a) ↔
                RatesFit (c.db.getFeeRate beneficiary) (c.db.getNFTRoyalty nftAddress) 100000) := by
  obtain ⟨⟨c, t⟩, hsale⟩ : ∃ p, saleAfter 500 500 = some p :=
    Option.isSome_iff_exists.mp (by decide +kernel)
  obtain ⟨hc, ht⟩ := saleAfter_inv hsale
  have hrun : Run (Chain.step saleCrypto) (SalesFit saleCrypto) saleGenesis.chain
      (saleHistory 500 500) c := Run.of_runAll (fun _ _ he => saleHistory_fits he) hc
  obtain ⟨nftAddress, _, beneficiary, hterms, -, -, hiff⟩ :=
    sale_split_iff_ratesFit (Genesis.small_funded _) hrun (Or.inr (Or.inl rfl)) ht
  exact ⟨c, t, hrun, ht, nftAddress, beneficiary, hterms, hiff⟩

/-- As long as every sale's fee and royalty are covered by its price, no account ever owes anything,
neither now nor in a state that can still be reverted to. -/
theorem no_account_owes {g : Genesis} (hfunded : ∀ a, 0 ≤ g.toState.getBalance a)
    (hrun : Run (Chain.step K) (SalesFit K) g.chain es c) :
    c.AllStates fun s => ∀ a, 0 ≤ s.getBalance a ∧ 0 ≤ s.getPledgedBalance a ∧
      0 ≤ s.getExchangerBalance a ∧ s.getFeeRate a < 10000 := by
  have hinv : FundsInv c := hrun.invariant (Genesis.fundsInv hfunded) step_fundsInv
  simpa only [Chain.AllStates, solvent_iff, NoDebt, ← forall_and] using hinv.states

/-- The history of the worked sale. -/
theorem no_account_owes_history : ∃ c, runAll (Chain.step saleCrypto) (saleHistory 500 500)
    saleGenesis.chain = some c ∧ ∀ a, 0 ≤ c.db.getBalance a := by
  obtain ⟨⟨c, t⟩, hsale⟩ : ∃ p, saleAfter 500 500 = some p :=
    Option.isSome_iff_exists.mp (by decide +kernel)
  have hc := (saleAfter_inv hsale).1
  have howes := no_account_owes (Genesis.small_funded _)
    (Run.of_runAll (fun _ _ he => saleHistory_fits he) hc)
  exact ⟨c, hc, fun a => (howes.1 a).1⟩

/-- With both rates at six thousand fee and royalty exceed the price, and the seller pays. -/
theorem sale_split_overcharges :
    ∃ (g : Genesis) (es : List Event) (c : Chain) (caller addr : Address) (w : WormholesTx)
      (value : ℕ) (t : StateDB),
      (∀ a, 0 ≤ g.toState.getBalance a) ∧
        Run (Chain.step saleCrypto) (fun _ _ => True) g.chain es c ∧ sellsNFT w ∧ 0 < value ∧
          handleNFT saleCrypto c.db c.number caller addr w value = .ok t ∧
            ∃ a, t.getBalance a < 0 := by
  have hend : (saleAfter 6000 6000).map (fun p => p.2.getBalance 0x5e) = some (-20000) := by
    decide +kernel
  obtain ⟨⟨c, t⟩, hsale, hbalance⟩ := Option.map_eq_some_iff.mp hend
  obtain ⟨hc, ht⟩ := saleAfter_inv hsale
  refine ⟨saleGenesis, _, c, 0xb0, 0xb0, saleTx, 100000, t, Genesis.small_funded _,
    Run.of_runAll (fun _ _ _ => trivial) hc, Or.inr (Or.inl rfl), by decide, ht, 0x5e, ?_⟩
  rw [show t.getBalance 0x5e = -20000 from hbalance]
  decide

end Wormholes
