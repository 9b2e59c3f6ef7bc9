import Wormholes.Laws.State.Nft

/-!
# Laws.State.Account — what approvals, pledges, exchangers and votes change

None of them writes an NFT's owner or level: approvals of one NFT change its approved address
only, the others leave NFT parts alone. A pledge and its cancellation move an amount between two
fields of one account and append one entry to the block's list.
-/

namespace Wormholes

namespace StateDB

open JournalEntry

variable {o o' : StateObject} {P : Address → StateObject → StateObject → Prop} {t : StateDB} {x : ℤ}
  {fee bn : ℕ}

section

variable (s : StateDB) (a : Address)
variable (b : Address) (e : PledgedToken)

/-! ## Approvals -/

/-- Only the list of addresses approved for all NFTs changes. -/
def ApproveAllOnly (_ : Address) (o o' : StateObject) : Prop :=
  ∃ l, o' = { o with approveAddressList := l }

/-- Only the approved address of one NFT changes. -/
def ApproveOnly (A a : Address) (o o' : StateObject) : Prop :=
  a = A ∧ ∃ x, o' = { o with nft := { o.nft with nftApproveAddressList := x } }

theorem changeApproveAddress_steps : Steps ApproveAllOnly s (s.changeApproveAddress a b) := by
  simp only [changeApproveAddress]
  split_ifs
  · exact getOrNewStateObject_steps s a
  · exact getOrNewStateObject_change_steps s a (fun o => restores_approveList _) fun o => ⟨_, rfl⟩

theorem cancelApproveAddress_steps : Steps ApproveAllOnly s (s.cancelApproveAddress a b) := by
  simp only [cancelApproveAddress]
  split_ifs
  · exact getOrNewStateObject_change_steps s a (fun o => restores_approveList _) fun o => ⟨_, rfl⟩
  · exact getOrNewStateObject_steps s a

theorem changeNFTApproveAddress_steps :
    Steps (ApproveOnly a) s (s.changeNFTApproveAddress a b) := by
  simp only [changeNFTApproveAddress]
  split_ifs
  · exact getOrNewStateObject_steps s a
  · exact getOrNewStateObject_change_steps s a (fun o => restores_nftApprove _) fun o => ⟨rfl, _, rfl⟩

theorem cancelNFTApproveAddress_steps :
    Steps (ApproveOnly a) s (s.cancelNFTApproveAddress a b) := by
  simp only [cancelNFTApproveAddress]
  split_ifs
  · exact getOrNewStateObject_change_steps s a (fun o => restores_nftApprove _) fun o => ⟨rfl, _, rfl⟩
  · exact getOrNewStateObject_steps s a

@[simp] theorem changeApproveAddress_pools : (s.changeApproveAddress a b).pools = s.pools := by
  simp only [changeApproveAddress]
  split_ifs
  all_goals exact getOrNewStateObject_pools s a

@[simp] theorem cancelApproveAddress_pools : (s.cancelApproveAddress a b).pools = s.pools := by
  simp only [cancelApproveAddress]
  split_ifs
  all_goals exact getOrNewStateObject_pools s a

@[simp] theorem changeNFTApproveAddress_pools :
    (s.changeNFTApproveAddress a b).pools = s.pools := by
  simp only [changeNFTApproveAddress]
  split_ifs
  all_goals exact getOrNewStateObject_pools s a

@[simp] theorem cancelNFTApproveAddress_pools :
    (s.cancelNFTApproveAddress a b).pools = s.pools := by
  simp only [cancelNFTApproveAddress]
  split_ifs
  all_goals exact getOrNewStateObject_pools s a

theorem getOrNewStateObject_values : (s.getOrNewStateObject a).1.getBalance b = s.getBalance b ∧
      (s.getOrNewStateObject a).1.getPledgedBalance b = s.getPledgedBalance b ∧
      (s.getOrNewStateObject a).1.getExchangerBalance b = s.getExchangerBalance b := by
  simp only [getBalance_eq_view, getPledgedBalance_eq_view, getExchangerBalance_eq_view,
    view_getOrNewStateObject, and_self]

/-! ## Pledges -/

/-- Only the balance and the pledge change. -/
def PledgingOnly (_ : Address) (o o' : StateObject) : Prop :=
  ∃ b p, o' = { o with balance := b, pledgedBalance := p }

theorem BalanceOnly.pledging {a : Address} (h : BalanceOnly a o o') : PledgingOnly a o o' := by
  obtain ⟨b, rfl⟩ := h
  exact ⟨b, _, rfl⟩

theorem PledgeOnly.pledging {a : Address} (h : PledgeOnly a o o') : PledgingOnly a o o' := by
  obtain ⟨p, rfl⟩ := h
  exact ⟨_, p, rfl⟩

theorem appendPledge_steps (t : PledgedToken) : Steps P s (s.appendPledge t) :=
  .pools _ (.refl s)

theorem appendExchanger_steps (t : PledgedToken) : Steps P s (s.appendExchanger t) :=
  .pools _ (.refl s)

theorem pledgeToken_steps (x : ℤ) : Steps PledgingOnly s (s.pledgeToken a x) :=
  (((getOrNewStateObject_steps s a).trans (appendPledge_steps _ _)).trans
    ((subBalance_steps _ _ _).mono BalanceOnly.pledging)).trans
      ((addPledgedBalance_steps _ _ _).mono PledgeOnly.pledging)

theorem pledgeToken_pools (x : ℤ) :
    (s.pledgeToken a x).pools =
      { s.pools with pledgedTokenPool := s.pools.pledgedTokenPool ++ [⟨a, x, true⟩] } := by
  simp [pledgeToken, appendPledge]

theorem getPledgedBalance_pledgeToken (x : ℤ) (b : Address) :
    (s.pledgeToken a x).getPledgedBalance b = s.getPledgedBalance b + if b = a then x else 0 := by
  rw [pledgeToken, getPledgedBalance_addPledgedBalance,
    (subBalance_steps _ _ _).getPledgedBalance_eq fun h => keeps_of_balanceOnly h fun _ => rfl]
  congr 1
  exact (getOrNewStateObject_values s a b).2.1

theorem getBalance_pledgeToken (x : ℤ) (b : Address) :
    (s.pledgeToken a x).getBalance b = s.getBalance b - if b = a then x else 0 := by
  rw [pledgeToken,
    (addPledgedBalance_steps _ _ _).getBalance_eq fun h => keeps_of_pledgeOnly h fun _ => rfl,
    getBalance_subBalance]
  congr 1
  exact (getOrNewStateObject_values s a b).1

section

variable {s a} (h : s.cancelPledgedToken a x = some t)
include h

/-- A cancellation is: queue the entry, take from the pledge, pay. -/
theorem cancelPledgedToken_inv :
    ∃ u, ((s.getOrNewStateObject a).1.appendPledge ⟨a, x, false⟩).subPledgedBalance a x = some u ∧
      t = u.addBalance a x := by
  simp only [cancelPledgedToken] at h
  split at h
  · cases h
  next u hu => exact ⟨u, hu, (Option.some.inj h).symm⟩

theorem cancelPledgedToken_steps : Steps PledgingOnly s t := by
  obtain ⟨u, hu, rfl⟩ := cancelPledgedToken_inv h
  exact (((getOrNewStateObject_steps s a).trans (appendPledge_steps _ _)).trans
    ((subPledgedBalance_steps _ _ hu).mono PledgeOnly.pledging)).trans
      ((addBalance_steps _ _ _).mono BalanceOnly.pledging)

theorem cancelPledgedToken_pools :
    t.pools = { s.pools with pledgedTokenPool := s.pools.pledgedTokenPool ++ [⟨a, x, false⟩] } := by
  obtain ⟨u, hu, rfl⟩ := cancelPledgedToken_inv h
  rw [addBalance_pools, subPledgedBalance_pools _ _ hu]
  simp [appendPledge]

theorem getPledgedBalance_cancelPledgedToken (b : Address) :
    t.getPledgedBalance b = s.getPledgedBalance b - if b = a then x else 0 := by
  obtain ⟨u, hu, rfl⟩ := cancelPledgedToken_inv h
  rw [(addBalance_steps _ _ _).getPledgedBalance_eq fun h => keeps_of_balanceOnly h fun _ => rfl,
    getPledgedBalance_subPledgedBalance _ _ hu]
  congr 1
  exact (getOrNewStateObject_values s a b).2.1

theorem getBalance_cancelPledgedToken (b : Address) :
    t.getBalance b = s.getBalance b + if b = a then x else 0 := by
  obtain ⟨u, hu, rfl⟩ := cancelPledgedToken_inv h
  rw [getBalance_addBalance,
    (subPledgedBalance_steps _ _ hu).getBalance_eq fun h => keeps_of_pledgeOnly h fun _ => rfl]
  congr 1
  exact (getOrNewStateObject_values s a b).1

end

/-! ## Exchangers -/

/-- Only the balance, the stake and the exchanger's data change, and the fee rate to `fee` if at
all. -/
def ExchangerOnly (fee : ℕ) (_ : Address) (o o' : StateObject) : Prop :=
  ∃ b x flag block rate name url,
    o' = { o with
      balance := b, exchangerBalance := x, exchangerFlag := flag, blockNumber := block,
      feeRate := rate, exchangerName := name, exchangerURL := url } ∧
    (rate = o.feeRate ∨ rate = fee)

theorem BalanceOnly.exchanger {a : Address} (h : BalanceOnly a o o') :
    ExchangerOnly fee a o o' := by
  obtain ⟨b, rfl⟩ := h
  exact ⟨b, _, _, _, _, _, _, rfl, Or.inl rfl⟩

theorem StakeOnly.exchanger {a : Address} (h : StakeOnly a o o') : ExchangerOnly fee a o o' := by
  obtain ⟨x, rfl⟩ := h
  exact ⟨_, x, _, _, _, _, _, rfl, Or.inl rfl⟩

/-- Queues a stake of an account, made if absent. -/
theorem queued_steps : Steps P s ((s.getOrNewStateObject a).1.appendExchanger e) :=
  (getOrNewStateObject_steps s a).trans (appendExchanger_steps _ _)

theorem staked_steps (x : ℤ) :
    Steps BalanceOnly s (((s.getOrNewStateObject a).1.appendExchanger e).subBalance a x) :=
  (queued_steps s a e).trans (subBalance_steps _ _ _)

theorem unstaked_steps (x : ℤ) :
    Steps BalanceOnly s (((s.getOrNewStateObject a).1.appendExchanger e).addBalance a x) :=
  (queued_steps s a e).trans (addBalance_steps _ _ _)

/-- Sets the exchanger stake of an account, made if absent. -/
def restake (s : StateDB) (a : Address) (x : ℤ) : StateDB :=
  (s.getOrNewStateObject a).1.setExchangerBalance a (s.getOrNewStateObject a).2 x

/-- An account whose stake was just written is found with it. -/
theorem getOrNewStateObject_restake (x : ℤ) :
    (s.restake a x).getOrNewStateObject a =
      (s.restake a x, { (s.getOrNewStateObject a).2 with exchangerBalance := some x }) := by
  have hsome : (s.restake a x).getStateObject a =
      some { (s.getOrNewStateObject a).2 with exchangerBalance := some x } := Accounts.set_self _ _ _
  rw [getOrNewStateObject, hsome]

/-- The stake is set and, unless the account has the flag, the exchanger's record. -/
def Restaked (a : Address) (x : ℤ) (flag : Bool) (block fee : ℕ) (name url : GoString)
    (s t : StateDB) : Prop :=
  let o := { (s.getOrNewStateObject a).2 with exchangerBalance := some x }
  (o.exchangerFlag = flag ∧ t = s.restake a x) ∨
    t = (s.restake a x).setExchangerInfo a o flag block fee name url

namespace Restaked

variable {s : StateDB} {a : Address} {flag : Bool} {block : ℕ} {name url : GoString}

section

variable (h : Restaked a x flag block fee name url s t)
include h

theorem steps
    (hstake : ∀ o : StateObject, P a o { o with exchangerBalance := some x })
    (hinfo : ∀ o : StateObject, P a o { o with
      exchangerFlag := flag, blockNumber := some block, feeRate := fee, exchangerName := name,
      exchangerURL := url }) : Steps P s t := by
  have hstaked : Steps P s (s.restake a x) :=
    .rewrite (getOrNewStateObject_steps s a) (getOrNewStateObject_found s a)
      (restores_exchangerBalance x) (hstake _)
  rcases h with ⟨-, rfl⟩ | rfl
  · exact hstaked
  · exact .rewrite hstaked (Accounts.set_self _ _ _) (restores_exchangerInfo _ _ _ _ _) (hinfo _)

theorem pools : t.pools = s.pools := by
  rcases h with ⟨-, rfl⟩ | rfl
  · exact getOrNewStateObject_pools s a
  · exact getOrNewStateObject_pools s a

/-- The account that is written has the stake and the flag. -/
theorem accounts :
    ∃ o, t.accounts = (s.getOrNewStateObject a).1.accounts.set a (some o) ∧
      o.exchangerBalance = some x ∧ o.exchangerFlag = flag := by
  rcases h with ⟨hflag, rfl⟩ | rfl
  · exact ⟨_, rfl, rfl, hflag⟩
  · exact ⟨_, Accounts.set_set _ _ _ _, rfl, rfl⟩

theorem values (b : Address) :
    t.getBalance b = s.getBalance b ∧
      t.getExchangerBalance b = if b = a then x else s.getExchangerBalance b := by
  have hbalance : Steps (Keeps (·.balance)) s t := h.steps (fun _ => rfl) fun _ => rfl
  refine ⟨hbalance.getBalance_eq id b, ?_⟩
  obtain ⟨o, haccounts, hstake, -⟩ := h.accounts
  rw [getExchangerBalance_eq_view, view, haccounts]
  split_ifs with hb
  · rw [hb, Accounts.set_self]
    exact congrArg (·.getD 0) hstake
  · rw [Accounts.set_of_ne _ _ hb]
    exact (getExchangerBalance_eq_view _ _).symm.trans (getOrNewStateObject_values s a b).2.2

theorem exchanger : Steps (ExchangerOnly fee) s t :=
  h.steps (fun _ => ⟨_, _, _, _, _, _, _, rfl, Or.inl rfl⟩)
    fun _ => ⟨_, _, _, _, _, _, _, rfl, Or.inr rfl⟩

end

end Restaked

/-- Opening an exchanger stakes, and records the exchanger unless the account is one. -/
theorem openExchanger_inv (x : ℤ) (bn fee : ℕ) (name url : GoString) :
    Restaked a x true bn fee name url
      (((s.getOrNewStateObject a).1.appendExchanger ⟨a, x, true⟩).subBalance a x)
      (s.openExchanger a x bn fee name url) := by
  unfold openExchanger
  dsimp only
  rw [← restake, getOrNewStateObject_restake]
  dsimp only
  split_ifs with hflag
  · exact Or.inl ⟨hflag, rfl⟩
  · exact Or.inr rfl

theorem openExchanger_steps (x : ℤ) (bn fee : ℕ) (name url : GoString) :
    Steps (ExchangerOnly fee) s (s.openExchanger a x bn fee name url) :=
  ((staked_steps s a _ x).mono BalanceOnly.exchanger).trans
    (openExchanger_inv s a x bn fee name url).exchanger

variable {s a}

/-- An account is closed: the stake goes back and, unless it is none, so does the exchanger's
record. -/
theorem closeExchanger_inv (h : s.closeExchanger a bn = some t) :
    t = (s.getOrNewStateObject a).1 ∨
    ∃ amount, (s.getOrNewStateObject a).2.exchangerBalance = some amount ∧
      Restaked a 0 false 0 0 [] []
        (((s.getOrNewStateObject a).1.appendExchanger ⟨a, amount, false⟩).addBalance a amount) t := by
  simp only [closeExchanger] at h
  split at h
  · cases h
  · split at h
    · split at h
      · cases h
      next amount hamount =>
        refine Or.inr ⟨amount, hamount, ?_⟩
        rw [← restake, getOrNewStateObject_restake] at h
        dsimp only at h
        obtain rfl := Option.some.inj h
        split_ifs with hflag
        · exact Or.inr rfl
        · exact Or.inl ⟨Bool.eq_false_iff.mpr hflag, rfl⟩
    · exact Or.inl (Option.some.inj h).symm

theorem closeExchanger_steps (h : s.closeExchanger a bn = some t) :
    Steps (ExchangerOnly 0) s t := by
  rcases closeExchanger_inv h with rfl | ⟨amount, -, ht⟩
  · exact getOrNewStateObject_steps s a
  · exact ((unstaked_steps s a _ amount).mono BalanceOnly.exchanger).trans ht.exchanger

theorem addExchangerToken_steps (h : s.addExchangerToken a x = some t) :
    Steps (ExchangerOnly 0) s t :=
  ((staked_steps s a _ x).mono BalanceOnly.exchanger).trans
    ((addExchangerBalance_steps _ _ h).mono StakeOnly.exchanger)

theorem subExchangerToken_inv (h : s.subExchangerToken a x = some t) :
    ∃ u, ((s.getOrNewStateObject a).1.appendExchanger ⟨a, x, false⟩).addExchangerBalance a (-x) =
        some u ∧ t = u.addBalance a x := by
  simp only [subExchangerToken, subExchangerBalance] at h
  split at h
  · cases h
  next u hu => exact ⟨u, hu, (Option.some.inj h).symm⟩

theorem subExchangerToken_steps (h : s.subExchangerToken a x = some t) :
    Steps (ExchangerOnly 0) s t := by
  obtain ⟨u, hu, rfl⟩ := subExchangerToken_inv h
  exact ((queued_steps s a _).trans ((addExchangerBalance_steps _ _ hu).mono StakeOnly.exchanger)).trans
    ((addBalance_steps _ _ _).mono BalanceOnly.exchanger)

variable (s a)

/-! ### The pools they write -/

@[simp] theorem appendExchanger_pools (t : PledgedToken) :
    (s.appendExchanger t).pools =
      { s.pools with exchangerTokenPool := s.pools.exchangerTokenPool ++ [t] } := rfl

theorem openExchanger_pools (x : ℤ) (bn fee : ℕ) (name url : GoString) :
    (s.openExchanger a x bn fee name url).pools =
      { s.pools with exchangerTokenPool := s.pools.exchangerTokenPool ++ [⟨a, x, true⟩] } := by
  rw [(openExchanger_inv s a x bn fee name url).pools]
  simp

variable {s a}

theorem closeExchanger_pools (h : s.closeExchanger a bn = some t) :
    t.pools = s.pools ∨ ∃ e,
      t.pools = { s.pools with exchangerTokenPool := s.pools.exchangerTokenPool ++ [e] } := by
  rcases closeExchanger_inv h with rfl | ⟨amount, -, ht⟩
  · exact Or.inl (getOrNewStateObject_pools s a)
  · exact Or.inr ⟨⟨a, amount, false⟩, by simp [ht.pools]⟩

theorem addExchangerToken_pools (h : s.addExchangerToken a x = some t) :
    t.pools = { s.pools with exchangerTokenPool := s.pools.exchangerTokenPool ++ [⟨a, x, true⟩] } := by
  rw [addExchangerBalance_pools _ _ h]
  simp

theorem subExchangerToken_pools (h : s.subExchangerToken a x = some t) :
    t.pools = { s.pools with exchangerTokenPool := s.pools.exchangerTokenPool ++ [⟨a, x, false⟩] } := by
  obtain ⟨u, hu, rfl⟩ := subExchangerToken_inv h
  rw [addBalance_pools, addExchangerBalance_pools _ _ hu]
  simp

variable (s a)

/-! ### The values they set -/

theorem stake_of_balanceOnly {a : Address} (h : BalanceOnly a o o') : stake o' = stake o := by
  obtain ⟨b, rfl⟩ := h
  rfl

theorem balance_of_stakeOnly {a : Address} (h : StakeOnly a o o') : o'.balance = o.balance := by
  obtain ⟨x, rfl⟩ := h
  rfl

theorem queued_values (b : Address) :
    ((s.getOrNewStateObject a).1.appendExchanger e).getBalance b = s.getBalance b ∧
      ((s.getOrNewStateObject a).1.appendExchanger e).getExchangerBalance b =
        s.getExchangerBalance b :=
  ⟨(getOrNewStateObject_values s a b).1, (getOrNewStateObject_values s a b).2.2⟩

theorem openExchanger_values (x : ℤ) (bn fee : ℕ) (name url : GoString) (b : Address) :
    (s.openExchanger a x bn fee name url).getBalance b = (s.getBalance b - if b = a then x else 0) ∧
      (s.openExchanger a x bn fee name url).getExchangerBalance b =
        if b = a then x else s.getExchangerBalance b := by
  obtain ⟨hbalance, hstake⟩ := (openExchanger_inv s a x bn fee name url).values b
  rw [hbalance, hstake, getBalance_subBalance, (queued_values s a _ b).1,
    (staked_steps s a _ x).getExchangerBalance_eq stake_of_balanceOnly]
  exact ⟨rfl, rfl⟩

variable {s a}

/-- Closing an exchanger changes nothing or turns the stake into balance. -/
theorem closeExchanger_values (h : s.closeExchanger a bn = some t) :
    (t.pools = s.pools ∧
      ∀ b, t.getBalance b = s.getBalance b ∧ t.getExchangerBalance b = s.getExchangerBalance b) ∨
    (t.pools = { s.pools with
        exchangerTokenPool := s.pools.exchangerTokenPool ++ [⟨a, s.getExchangerBalance a, false⟩] } ∧
      ∀ b, t.getBalance b = (s.getBalance b + if b = a then s.getExchangerBalance a else 0) ∧
        t.getExchangerBalance b = if b = a then 0 else s.getExchangerBalance b) := by
  rcases closeExchanger_inv h with rfl | ⟨amount, hamount, ht⟩
  · exact Or.inl ⟨getOrNewStateObject_pools s a, fun b => queued_values s a ⟨a, 0, true⟩ b⟩
  · have hstake : s.getExchangerBalance a = amount := by
      rw [getExchangerBalance_eq_view, ← field_getOrNewStateObject s a stake, stake, hamount]
      rfl
    rw [hstake]
    refine Or.inr ⟨by simp [ht.pools], fun b => ?_⟩
    obtain ⟨hbalance, hstake'⟩ := ht.values b
    rw [hbalance, hstake', getBalance_addBalance, (queued_values s a _ b).1,
      (unstaked_steps s a _ amount).getExchangerBalance_eq stake_of_balanceOnly]
    exact ⟨rfl, rfl⟩

theorem addExchangerToken_values (h : s.addExchangerToken a x = some t) (b : Address) :
    t.getBalance b = (s.getBalance b - if b = a then x else 0) ∧
      t.getExchangerBalance b = s.getExchangerBalance b + if b = a then x else 0 := by
  refine ⟨?_, ?_⟩
  · rw [(addExchangerBalance_steps _ _ h).getBalance_eq balance_of_stakeOnly, getBalance_subBalance,
      (queued_values s a _ b).1]
  · rw [getExchangerBalance_addExchangerBalance _ _ h,
      (staked_steps s a _ x).getExchangerBalance_eq stake_of_balanceOnly]

theorem subExchangerToken_values (h : s.subExchangerToken a x = some t) (b : Address) :
    t.getBalance b = (s.getBalance b + if b = a then x else 0) ∧
      t.getExchangerBalance b = s.getExchangerBalance b - if b = a then x else 0 := by
  obtain ⟨u, hu, rfl⟩ := subExchangerToken_inv h
  refine ⟨?_, ?_⟩
  · rw [getBalance_addBalance, (addExchangerBalance_steps _ _ hu).getBalance_eq balance_of_stakeOnly,
      (queued_values s a _ b).1]
  · rw [(addBalance_steps _ a x).getExchangerBalance_eq stake_of_balanceOnly,
      getExchangerBalance_addExchangerBalance _ _ hu, (queued_values s a _ b).2]
    split
    · ring
    · ring

variable (s a)

/-! ## Active miners and votes -/

theorem addOrUpdateActiveMiner_steps (x : ℤ) (height : ℕ) :
    Steps P s (s.addOrUpdateActiveMiner a x height) :=
  .pools _ (.refl s)

theorem voteOfficialNFT_steps (n : NominatedOfficialNFT) : Steps P s (s.voteOfficialNFT n) := by
  simp only [voteOfficialNFT]
  split_ifs
  · exact .pools _ (.refl s)
  · exact .refl s

theorem injectOfficialNFT_steps (e : InjectedOfficialNFT) : Steps P s (s.injectOfficialNFT e) :=
  .pools _ (.refl s)

end

end StateDB

end Wormholes
