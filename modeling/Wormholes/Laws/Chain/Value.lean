import Wormholes.Laws.Chain.Accounts
import Wormholes.Laws.Chain.Funds
import Wormholes.Laws.Chain.Queue
import Mathlib.Data.FinEnum
import Mathlib.Algebra.BigOperators.Group.Finset.Basic
import Mathlib.Algebra.BigOperators.Group.Finset.Piecewise

/-!
# Laws.Chain.Value — what all accounts have together, and the stake pool

`total` adds up balances, pledges and stakes of all accounts. A payload moves amounts between accounts
and between the fields of one, and loses some in two places: opening an exchanger sets the stake where
it should add to it, and a user mint writes the account at its address anew. `lost` is that amount, and
every payload but an exchange takes exactly it from the total. The stake pool the chain stores agrees
with the stakes of the accounts as long as nothing of them is lost or undone.
-/

namespace Wormholes

open Lib Common Core StateDB

variable {K : Crypto} {s t : StateDB}
variable {a caller : Address} {x : ℤ} {bn : ℕ} {w : WormholesTx} {pool : List Staked}
variable {P : Address → StateObject → StateObject → Prop} {H : Hasher} {buyer seller addr : Address}
  {amount value : ℕ}

/-! ## The total -/

/-- What all accounts have: balances, pledges and stakes. -/
noncomputable def total (s : StateDB) : ℤ :=
  ∑ a : Address, (s.getBalance a + s.getPledgedBalance a + s.getExchangerBalance a)

theorem total_eq_add {d : Address → ℤ}
    (h : ∀ a, t.getBalance a + t.getPledgedBalance a + t.getExchangerBalance a =
      s.getBalance a + s.getPledgedBalance a + s.getExchangerBalance a + d a) :
    total t = total s + ∑ a : Address, d a := by
  unfold total
  rw [← Finset.sum_add_distrib]
  exact Finset.sum_congr rfl fun a _ => h a

theorem total_eq_add_one
    (h : ∀ b, t.getBalance b + t.getPledgedBalance b + t.getExchangerBalance b =
      s.getBalance b + s.getPledgedBalance b + s.getExchangerBalance b + if b = a then x else 0) :
    total t = total s + x := by
  rw [total_eq_add h, Finset.sum_ite_eq' Finset.univ a fun _ => x, if_pos (Finset.mem_univ a)]

theorem total_eq_of_eq
    (h : ∀ a, t.getBalance a + t.getPledgedBalance a + t.getExchangerBalance a =
      s.getBalance a + s.getPledgedBalance a + s.getExchangerBalance a) : total t = total s :=
  Finset.sum_congr rfl fun a _ => h a

/-- Writings that leave all three amounts. -/
def AmountsKept (_ : Address) (o o' : StateObject) : Prop :=
  o'.balance = o.balance ∧ pledge o' = pledge o ∧ stake o' = stake o

theorem total_of_steps (h : Steps P s t) (hP : ∀ {a o o'}, P a o o' → AmountsKept a o o') :
    total t = total s := by
  refine total_eq_of_eq fun a => ?_
  rw [h.getBalance_eq fun hp => (hP hp).1, h.getPledgedBalance_eq fun hp => (hP hp).2.1,
    h.getExchangerBalance_eq fun hp => (hP hp).2.2]

theorem total_of_nftWrite (h : NFTWrite s t) : total t = total s := by
  refine total_of_steps h.steps ?_
  rintro a o o' ⟨n, rfl⟩
  exact ⟨rfl, rfl, rfl⟩

theorem total_addVoteWeight (h : s.addVoteWeight a x = some t) : total t = total s := by
  refine total_of_steps (addVoteWeight_steps _ _ h) ?_
  rintro b o o' ⟨v, rfl⟩
  exact ⟨rfl, rfl, rfl⟩

theorem total_approveAll (h : Steps P s t)
    (hP : ∀ {a o o'}, P a o o' → ApproveAllOnly a o o' ∨ ∃ A, ApproveOnly A a o o') :
    total t = total s := by
  refine total_of_steps h fun hp => ?_
  rcases hP hp with ⟨l, rfl⟩ | ⟨A, -, x, rfl⟩
  · exact ⟨rfl, rfl, rfl⟩
  · exact ⟨rfl, rfl, rfl⟩

/-! ## Payments -/

theorem total_addBalance (s : StateDB) (a : Address) (x : ℤ) :
    total (s.addBalance a x) = total s + x := by
  refine total_eq_add_one (a := a) fun b => ?_
  rw [getBalance_addBalance, (addBalance_steps s a x).getPledgedBalance_eq pledge_of_balanceOnly,
    (addBalance_steps s a x).getExchangerBalance_eq stake_of_balanceOnly]
  ring

theorem total_subBalance (s : StateDB) (a : Address) (x : ℤ) :
    total (s.subBalance a x) = total s - x := by
  rw [sub_eq_add_neg]
  refine total_eq_add_one (a := a) fun b => ?_
  rw [getBalance_subBalance, (subBalance_steps s a x).getPledgedBalance_eq pledge_of_balanceOnly,
    (subBalance_steps s a x).getExchangerBalance_eq stake_of_balanceOnly]
  split
  · ring
  · ring

theorem total_transfer (s : StateDB) (a b : Address) (x : ℕ) : total (s.transfer a b x) = total s := by
  rw [transfer, total_addBalance, total_subBalance]
  ring

theorem total_settleSale {beneficiary nftAddress : Address} {level : ℕ}
    (h : settleSale H s buyer seller beneficiary nftAddress level amount = some t) :
    total t = total s := by
  obtain ⟨paid, hpaid, hchange⟩ := settleSale_inv h
  rw [total_of_nftWrite (changeNFTOwner_nftWrite hchange), total_addVoteWeight hpaid, total_addBalance,
    total_addBalance, total_addBalance, total_subBalance]
  unfold sellerAmount
  ring

/-! ## Stakes -/

theorem total_pledgeToken (s : StateDB) (a : Address) (x : ℤ) :
    total (s.pledgeToken a x) = total s := by
  refine total_eq_of_eq fun b => ?_
  rw [getBalance_pledgeToken, getPledgedBalance_pledgeToken,
    (pledgeToken_steps s a x).getExchangerBalance_eq fun hP => by obtain ⟨b, p, rfl⟩ := hP; rfl]
  ring

theorem total_cancelPledgedToken (h : s.cancelPledgedToken a x = some t) : total t = total s := by
  refine total_eq_of_eq fun b => ?_
  rw [getBalance_cancelPledgedToken h, getPledgedBalance_cancelPledgedToken h,
    (cancelPledgedToken_steps h).getExchangerBalance_eq fun hP => by obtain ⟨b, p, rfl⟩ := hP; rfl]
  ring

/-- Opening an exchanger loses the stake the account had. -/
theorem total_openExchanger (s : StateDB) (a : Address) (x : ℤ) (bn fee : ℕ) (name url : GoString) :
    total (s.openExchanger a x bn fee name url) = total s - s.getExchangerBalance a := by
  rw [sub_eq_add_neg]
  refine total_eq_add_one (a := a) fun b => ?_
  rw [(openExchanger_values s a x bn fee name url b).1, (openExchanger_values s a x bn fee name url b).2,
    (openExchanger_steps s a x bn fee name url).getPledgedBalance_eq pledge_of_exchangerOnly]
  split_ifs with hb
  · subst hb
    ring
  · ring

theorem total_closeExchanger (h : s.closeExchanger a bn = some t) : total t = total s := by
  refine total_eq_of_eq fun b => ?_
  rw [(closeExchanger_steps h).getPledgedBalance_eq pledge_of_exchangerOnly]
  rcases closeExchanger_values h with ⟨-, hsame⟩ | ⟨-, hpaid⟩
  · rw [(hsame b).1, (hsame b).2]
  · rw [(hpaid b).1, (hpaid b).2]
    split_ifs with hb
    · subst hb
      ring
    · ring

theorem total_addExchangerToken (h : s.addExchangerToken a x = some t) : total t = total s := by
  refine total_eq_of_eq fun b => ?_
  rw [(addExchangerToken_steps h).getPledgedBalance_eq pledge_of_exchangerOnly,
    (addExchangerToken_values h b).1, (addExchangerToken_values h b).2]
  ring

theorem total_subExchangerToken (h : s.subExchangerToken a x = some t) : total t = total s := by
  refine total_eq_of_eq fun b => ?_
  rw [(subExchangerToken_steps h).getPledgedBalance_eq pledge_of_exchangerOnly,
    (subExchangerToken_values h b).1, (subExchangerToken_values h b).2]
  ring

/-! ## User mints -/

/-- The account at a minted address has nothing in the field. -/
theorem view_createNFTByUser_self {f : StateObject → ℤ} (hf : Untouched f) (s : StateDB)
    (exchanger owner : Address) (royalty : ℕ) (metaurl : GoString) :
    view f (s.createNFTByUser exchanger owner royalty metaurl).1
      (bigToAddress s.pools.mintDeep.userMint) = 0 := by
  obtain ⟨b, hb⟩ := createAccount_found s (bigToAddress s.pools.mintDeep.userMint)
  have hput := (putNFTInfo_nftWrite (s.createAccount (bigToAddress s.pools.mintDeep.userMint))
    (bigToAddress s.pools.mintDeep.userMint)
      { AccountNFT.blank with
        owner := owner, creator := owner, royalty := royalty, exchanger := exchanger,
        metaURL := metaurl }).steps.view_eq hf.of_nftOnly (bigToAddress s.pools.mintDeep.userMint)
  exact hput.trans ((view_of_some f hb).trans (hf.fresh b))

/-- A user mint loses the pledge and the stake at the minted address. -/
theorem total_createNFTByUser (s : StateDB) (exchanger owner : Address) (royalty : ℕ)
    (metaurl : GoString) :
    total (s.createNFTByUser exchanger owner royalty metaurl).1 =
      total s - (s.getPledgedBalance (bigToAddress s.pools.mintDeep.userMint) +
        s.getExchangerBalance (bigToAddress s.pools.mintDeep.userMint)) := by
  have hsteps := createNFTByUser_steps s exchanger owner royalty metaurl
  have hpledge := view_createNFTByUser_self untouched_pledge s exchanger owner royalty metaurl
  have hstake := view_createNFTByUser_self untouched_stake s exchanger owner royalty metaurl
  rw [sub_eq_add_neg]
  refine total_eq_add_one (a := bigToAddress s.pools.mintDeep.userMint) fun b => ?_
  rw [hsteps.getBalance_eq fun hP => ?balance]
  case balance =>
    rcases hP with ⟨n, rfl⟩ | ⟨-, rfl⟩
    · rfl
    · rfl
  simp only [getPledgedBalance_eq_view, getExchangerBalance_eq_view]
  split_ifs with hb
  · subst hb
    rw [hpledge, hstake]
    ring
  · rw [untouched_pledge.view_mintAt_of_ne hsteps hb, untouched_stake.view_mintAt_of_ne hsteps hb]
    ring

theorem total_settleMintSale {exchanger exclusive : Address} {royalty : ℕ} {metaURL : GoString}
    (h : settleMintSale H s buyer seller exchanger exclusive royalty metaURL amount = some t) :
    total t = total s - (s.getPledgedBalance (bigToAddress s.pools.mintDeep.userMint) +
      s.getExchangerBalance (bigToAddress s.pools.mintDeep.userMint)) := by
  obtain ⟨paid, hpaid, hchange⟩ := settleMintSale_inv h
  rw [total_of_nftWrite (changeNFTOwner_nftWrite hchange), total_addVoteWeight hpaid, total_addBalance,
    total_addBalance, total_subBalance, total_createNFTByUser]
  ring

/-! ## Every payload -/

/-- What a payload loses: an opened exchanger's old stake, or pledge and stake where it mints. -/
def lost (s : StateDB) (caller : Address) (w : WormholesTx) : ℤ :=
  if w.type = 11 then s.getExchangerBalance caller
  else if w.type = 0 ∨ w.type = 16 ∨ w.type = 17 ∨ w.type = 19 then
    s.getPledgedBalance (bigToAddress s.pools.mintDeep.userMint) +
      s.getExchangerBalance (bigToAddress s.pools.mintDeep.userMint)
  else 0

theorem lost_of_mint (h : w.type = 0 ∨ w.type = 16 ∨ w.type = 17 ∨ w.type = 19) :
    lost s caller w = s.getPledgedBalance (bigToAddress s.pools.mintDeep.userMint) +
      s.getExchangerBalance (bigToAddress s.pools.mintDeep.userMint) := by
  unfold lost
  rw [if_neg (by omega), if_pos h]

theorem lost_of_plain (h : w.type ≠ 11)
    (h' : ¬ (w.type = 0 ∨ w.type = 16 ∨ w.type = 17 ∨ w.type = 19)) : lost s caller w = 0 := by
  unfold lost
  rw [if_neg h, if_neg h']

/-- Every payload but an exchange takes from the total what it loses. -/
theorem total_of_handled (htype : w.type ≠ 6) (h : Handled K s bn caller addr w value t) :
    total t = total s - lost s caller w := by
  have hplain : total t = total s → w.type ≠ 11 →
      ¬ (w.type = 0 ∨ w.type = 16 ∨ w.type = 17 ∨ w.type = 19) → total t = total s - lost s caller w := by
    intro htotal h11 hmint
    rw [htotal, lost_of_plain h11 hmint, sub_zero]
  cases h with
  | userMint h0 => rw [lost_of_mint (Or.inl h0), total_createNFTByUser]
  | transfer h1 _ _ h =>
    refine hplain ?_ (by omega) (by omega)
    rw [total_of_nftWrite (changeNFTOwner_nftWrite h)]
    exact total_of_steps (ensure_steps s _ (P := fun _ _ _ => False)) fun hP => hP.elim
  | approve h2 =>
    exact hplain (total_approveAll (changeNFTApproveAddress_steps _ _ _) fun hp => Or.inr ⟨_, hp⟩)
      (by omega) (by omega)
  | unapprove h3 =>
    exact hplain (total_approveAll (cancelNFTApproveAddress_steps _ _ _) fun hp => Or.inr ⟨_, hp⟩)
      (by omega) (by omega)
  | approveAll h4 =>
    exact hplain (total_approveAll (changeApproveAddress_steps _ _ _) Or.inl) (by omega) (by omega)
  | unapproveAll h5 =>
    exact hplain (total_approveAll (cancelApproveAddress_steps _ _ _) Or.inl) (by omega) (by omega)
  | exchange h6 => exact absurd h6 htype
  | nothing h78 => exact hplain rfl (by omega) (by omega)
  | pledge h9 => exact hplain (total_pledgeToken _ _ _) (by omega) (by omega)
  | unpledge h10 _ h => exact hplain (total_cancelPledgedToken h) (by omega) (by omega)
  | openExchanger h11 =>
    rw [total_openExchanger]
    unfold lost
    rw [if_pos h11]
  | closeExchanger h12 h => exact hplain (total_closeExchanger h) (by omega) (by omega)
  | inject h13 => exact hplain rfl (by omega) (by omega)
  | sale hmoved _ _ _ _ _ h =>
    have hsells : w.type = 14 ∨ w.type = 15 ∨ w.type = 18 ∨ w.type = 20 ∨ w.type = 1 := by
      unfold handedOver at hmoved
      split at hmoved
      all_goals first | omega | cases hmoved
    exact hplain (total_settleSale h) (by omega) (by omega)
  | mintSale hmint _ _ h => rw [lost_of_mint (Or.inr hmint), total_settleMintSale h]
  | addStake h21 _ h => exact hplain (total_addExchangerToken h) (by omega) (by omega)
  | subStake h22 _ h => exact hplain (total_subExchangerToken h) (by omega) (by omega)
  | vote hvote =>
    refine hplain (total_of_steps (voteOfficialNFT_steps _ _ (P := fun _ _ _ => False)) fun hP => hP.elim)
      (by omega) (by omega)
  | online h30 => exact hplain (total_transfer _ _ _ _) (by omega) (by omega)

/-! ## The stake pool -/

/-- The stakes: the block's list is folded into the stake pool. -/
def Queue.stakes : Queue where
  field := stake
  get := getExchangerBalance
  list := Pools.exchangerTokenPool
  fold := StakedList.foldStakers
  stored := Chain.stakePool
  untouched := untouched_stake
  get_eq := getExchangerBalance_eq_view
  list_eq _ hstakes := hstakes
  once_fold := StakedList.once_foldStakers
  fold_nil _ := rfl
  frame h hne := (Chain.step_frame h hne).2.1
  stored_writeBlock _ _ := rfl
  list_writeBlock _ _ := rfl

/-- An operation loses no stake, leaves no undone one in the list and shares no amount: as for any queued
amount, and an exchanger is opened by an account that has no stake. -/
def KeepsStakes (c : Chain) (e : Event) : Prop :=
  e.OwnAmount ∧ KeepsQueued stake Pools.exchangerTokenPool c e ∧
    match e with
    | .call caller _ (.wormholes w) _ => w.type = 11 → c.db.getExchangerBalance caller = 0
    | _ => True

theorem Core.Handled.stakes_inStep (hpool : StakedList.Once pool) (hstakes : stakes w)
    (hopen : w.type = 11 → s.getExchangerBalance caller = 0)
    (h : Handled K s bn caller addr w value t) (hs : Queue.stakes.InStep pool s) :
    Queue.stakes.InStep pool t := by
  have htypes := hstakes
  unfold Wormholes.stakes at htypes
  have hagree : ∀ a, StakedList.stakeBalance (StakedList.foldStakers pool s.pools.exchangerTokenPool) a =
    s.getExchangerBalance a := hs
  cases h with
  | pledge =>
    refine hs.of_eq ?_ (by rw [pledgeToken_pools]; rfl)
    exact (pledgeToken_steps _ _ _).view_eq fun hP => by obtain ⟨b, p, rfl⟩ := hP; rfl
  | unpledge _ _ h =>
    refine hs.of_eq ?_ (by rw [cancelPledgedToken_pools h]; rfl)
    exact (cancelPledgedToken_steps h).view_eq fun hP => by obtain ⟨b, p, rfl⟩ := hP; rfl
  | openExchanger h11 =>
    refine hs.add hpool (a := caller) (x := value) ?_ fun b => ?_
    · rw [openExchanger_pools]
      exact StakedList.foldStakers_append _ _ _
    · refine (openExchanger_values s caller value bn w.feeRate w.name w.url b).2.trans ?_
      split_ifs with hb
      · rw [hb]
        exact (hopen h11 ▸ zero_add _).symm
      · exact (add_zero _).symm
  | closeExchanger _ h =>
    rcases closeExchanger_values h with ⟨hpools, hsame⟩ | ⟨hpools, hvalues⟩
    · refine hs.of_eq (fun a => ?_) (by rw [hpools])
      exact (getExchangerBalance_eq_view _ _).symm.trans
        ((hsame a).2.trans (getExchangerBalance_eq_view _ _))
    · intro b
      show StakedList.stakeBalance (StakedList.foldStakers pool t.pools.exchangerTokenPool) b = _
      rw [hpools, StakedList.foldStakers_append, ← hagree caller]
      simp only [Bool.false_eq_true, if_false]
      rw [StakedList.stakeBalance_removeStaker_all (StakedList.once_foldStakers hpool _), hagree b]
      exact (hvalues b).2.symm
  | addStake _ _ h =>
    refine hs.add hpool ?_ fun b => (addExchangerToken_values h b).2
    rw [addExchangerToken_pools h]
    exact StakedList.foldStakers_append _ _ _
  | subStake _ hfunds h =>
    intro b
    have hremoved := StakedList.stakeBalance_removeStaker (StakedList.once_foldStakers hpool _)
      (Int.natCast_nonneg value) (hfunds.trans_eq (hs caller).symm) b
    refine Eq.trans ?_ (hremoved.trans ?_)
    · rw [subExchangerToken_pools h]
      exact congrArg (StakedList.stakeBalance · b) (StakedList.foldStakers_append _ _ _)
    · exact (congrArg (· - _) (hs b)).trans (subExchangerToken_values h b).2.symm
  | sale hmoved => cases (handedOver_of_stakes hstakes caller addr).symm.trans hmoved
  | _ => omega

/-- Genesis stakes, opened one account after the other, give the same in the pool and the accounts. -/
theorem genesis_stakes_agree (vs : List (Address × ℕ)) (hnodup : (vs.map Prod.fst).Nodup)
    (hpool : StakedList.Once pool) (hfree : ∀ v ∈ vs, s.getExchangerBalance v.1 = 0)
    (h : ∀ a, StakedList.stakeBalance pool a = s.getExchangerBalance a) :
    StakedList.Once (vs.foldl (fun l v => StakedList.add l v.1 v.2) pool) ∧
      ∀ a, StakedList.stakeBalance (vs.foldl (fun l v => StakedList.add l v.1 v.2) pool) a =
        (vs.foldl (fun s v => s.openExchanger v.1 v.2 0 250 "EXCHANGER".toList
          "www.xiaoli.com".toList) s).getExchangerBalance a := by
  induction vs generalizing pool s with
  | nil => exact ⟨hpool, h⟩
  | cons v vs ih =>
    obtain ⟨hv, hrest⟩ := List.nodup_cons.mp hnodup
    have hvalues := fun a => (openExchanger_values s v.1 v.2 0 250 "EXCHANGER".toList
      "www.xiaoli.com".toList a).2
    refine ih hrest (StakedList.once_add hpool _ _) (fun u hu => ?_) fun a => ?_
    · have hne : u.1 ≠ v.1 := fun heq => hv (heq ▸ List.mem_map_of_mem hu)
      rw [hvalues, if_neg hne]
      exact hfree u (List.mem_cons_of_mem _ hu)
    · rw [StakedList.stakeBalance_add hpool, hvalues, h a]
      split_ifs with ha
      · rw [ha, hfree v List.mem_cons_self, zero_add]
      · rw [add_zero]

/-- At the genesis the pool and the accounts have the same stakes. -/
theorem Genesis.stakes_inv (g : Genesis) : Queue.stakes.Inv g.chain := by
  have halloc : ∀ a, (g.alloc.foldl (fun s a =>
      ((s.addBalance a.addr a.balance).setCode a.addr a.code).setNonce a.addr a.nonce)
        g.emptyState).getExchangerBalance a = 0 := by
    intro a
    rw [(foldl_steps (fun s a => ?steps) g.alloc
      g.emptyState).getExchangerBalance_eq fun hP => ?keeps]
    case steps =>
      exact (((addBalance_steps _ _ _).mono Or.inl).trans ((setCode_steps _ _ _).mono Or.inr)).trans
        ((setNonce_steps _ _ _).mono Or.inr)
    case keeps =>
      rcases hP with hbalance | hcode
      · exact untouched_stake.of_balanceOnly hbalance
      · exact untouched_stake.of_codeOnly hcode
    rfl
  have hpledges : ∀ a, g.toState.getExchangerBalance a = g.unpledged.getExchangerBalance a := by
    refine (foldl_steps (P := PledgingOnly) (fun s v => ?_) g.validator
      g.unpledged).getExchangerBalance_eq fun hP => ?_
    · exact pledgeToken_steps s v.1 v.2
    · obtain ⟨b, p, rfl⟩ := hP
      rfl
  have honce : StakedList.Once [] := List.nodup_nil
  have hfold := genesis_stakes_agree g.stake g.stake_nodup honce (fun v _ => halloc v.1)
    fun a => (halloc a).symm
  exact .genesis rfl g.suicided_eq_false ⟨hfold.1, fun a => (hfold.2 a).trans (hpledges a).symm⟩

/-- In every state, a payload other than an exchange leaves the total exactly if it loses nothing; and in a
chain that keeps stakes, after every block the stake pool gives each account its stake. -/
theorem total_conserved_iff :
    (∀ {s t : StateDB} {bn : ℕ} {caller addr : Address} {w : WormholesTx} {value : ℕ}, w.type ≠ 6 →
      handleNFT K s bn caller addr w value = .ok t → (total t = total s ↔ lost s caller w = 0)) ∧
      ∀ {g : Genesis} {es : List Event} {beneficiaries : List Address} {c : Chain},
        Run (Chain.step K) KeepsStakes g.chain (es ++ [.finalizeBlock beneficiaries]) c →
          ∀ a, StakedList.stakeBalance c.stakePool a = c.db.getExchangerBalance a := by
  constructor
  · intro s t bn caller addr w value htype h
    rw [total_of_handled htype (handleNFT_inv h)]
    omega
  · intro g es beneficiaries c hrun a
    have hinv : Queue.stakes.Inv c := hrun.invariant g.stakes_inv fun hc hok h => by
      refine hc.step hok.2.1 h ?_
      rintro caller addr w value s t rfl hw hsame hhandled hs
      refine hhandled.stakes_inStep hc.once hw (fun h11 => ?_) hs
      rw [getExchangerBalance_eq_view]
      exact (hsame caller).trans ((getExchangerBalance_eq_view _ _).symm.trans (hok.2.2 h11))
    exact hinv.after_block hrun a

/-! ## An exchanger of the genesis tops up, and one that opens twice -/

/-- An exchanger of the genesis with a balance of its own. -/
def stakeGenesis : Genesis :=
  { Genesis.small [⟨0xe0, 400 * baseErb, [], 0⟩] with
    stake := [(0xe0, 100 * baseErb)]
    stake_nodup := List.nodup_singleton _ }

/-- It adds five to its stake, and the block ends: the total stays, and pool and account have the same. -/
theorem total_conserved_topUp :
    ∃ t c, handleNFT .trivial stakeGenesis.chain.db 1 0xe0 0xe0 (.bare 21) 5 = .ok t ∧
      (total t = total stakeGenesis.chain.db ↔ lost stakeGenesis.chain.db 0xe0 (.bare 21) = 0) ∧
        Run (Chain.step .trivial) KeepsStakes stakeGenesis.chain
            ([.call 0xe0 0xe0 (.wormholes (.bare 21)) 5] ++ [.finalizeBlock []]) c ∧
          StakedList.stakeBalance c.stakePool 0xe0 = c.db.getExchangerBalance 0xe0 ∧
            c.db.getExchangerBalance 0xe0 = (100 * baseErb + 5 : ℕ) := by
  obtain ⟨t, ht⟩ : ∃ t, handleNFT .trivial stakeGenesis.chain.db 1 0xe0 0xe0 (.bare 21) 5 = .ok t :=
    Res.exists_of_isOk (by decide +kernel)
  have hend : (runAll (Chain.step .trivial)
      ([.call 0xe0 0xe0 (.wormholes (.bare 21)) 5] ++ [.finalizeBlock []]) stakeGenesis.chain).map
        (fun c => c.db.getExchangerBalance 0xe0) = some ((100 * baseErb + 5 : ℕ) : ℤ) := by
    decide +kernel
  obtain ⟨c, hc, hstake⟩ := Option.map_eq_some_iff.mp hend
  obtain ⟨c₁, hcall, hblock⟩ := Option.bind_eq_some_iff.mp hc
  obtain ⟨_, hblock, hlast⟩ := Option.bind_eq_some_iff.mp hblock
  cases hlast
  have hliving : ∀ a o, c₁.db.accounts a = some o → o.suicided = false := by
    have hgenesis : ∀ a o, stakeGenesis.chain.db.accounts a = some o → o.suicided = false := by
      intro a o ha
      obtain ⟨o', ho', rfl⟩ := Option.map_eq_some_iff.mp ha
      exact stakeGenesis.suicided_eq_false a o' (accounts_of_finalise ho')
    cases Chain.step_inv hcall with
    | skip => exact hgenesis
    | enter heffect =>
      cases heffect with
      | skip => exact hgenesis
      | payload h =>
        cases handleNFT_inv h with
        | addStake _ _ h =>
          refine (addExchangerToken_steps h).forall_accounts (I := fun _ o => o.suicided = false)
            (fun _ => rfl) ?_ hgenesis
          rintro a o o' ⟨b, x, flag, block, rate, name, url, rfl, -⟩ ho
          exact ho
        | sale hmoved => cases hmoved
        | _ => simp_all [WormholesTx.bare]
    | stay hcalls => cases hcalls
  have hrun : Run (Chain.step .trivial) KeepsStakes stakeGenesis.chain
      ([.call 0xe0 0xe0 (.wormholes (.bare 21)) 5] ++ [.finalizeBlock []]) c := by
    refine .snoc (.cons ⟨?_, ?_, ?_⟩ hcall (.nil c₁)) ⟨trivial, ⟨?_, ?_⟩, trivial⟩ hblock
    · exact fun _ => by decide
    · exact fun h => by simp [userMints, WormholesTx.bare] at h
    · exact fun h => by simp [WormholesTx.bare] at h
    · intro a o ha hsuicided
      cases (hliving a o ha).symm.trans hsuicided
    · exact fun a ha => by cases ha
  exact ⟨t, c, ht, total_conserved_iff.1 (by decide) ht, hrun, total_conserved_iff.2 hrun 0xe0, hstake⟩

/-- The exchanger opens again: a hundred units of its stake are gone from the accounts, and the pool
has a hundred more than its account. -/
theorem total_loses_stake :
    ∃ (g : Genesis) (c c' : Chain) (caller addr : Address) (w : WormholesTx) (value : ℕ) (t : StateDB),
      Run (Chain.step .trivial) (fun _ _ => True) g.chain [] c ∧ w.type ≠ 6 ∧
        handleNFT .trivial c.db c.number caller addr w value = .ok t ∧
          total t = total c.db - (100 * baseErb : ℕ) ∧
            Run (Chain.step .trivial) (fun _ _ => True) g.chain
                ([.call caller addr (.wormholes w) value] ++ [.finalizeBlock []]) c' ∧
              StakedList.stakeBalance c'.stakePool caller =
                c'.db.getExchangerBalance caller + (100 * baseErb : ℕ) := by
  let w : WormholesTx := { WormholesTx.bare 11 with feeRate := 500 }
  obtain ⟨t, ht⟩ : ∃ t, handleNFT .trivial stakeGenesis.chain.db stakeGenesis.chain.number 0xe0 0xe0 w
      (200 * baseErb) = .ok t := Res.exists_of_isOk (by decide +kernel)
  have hend : (runAll (Chain.step .trivial)
      ([.call 0xe0 0xe0 (.wormholes w) (200 * baseErb)] ++ [.finalizeBlock []]) stakeGenesis.chain).map
        (fun c => (StakedList.stakeBalance c.stakePool 0xe0, c.db.getExchangerBalance 0xe0)) =
      some (((300 * baseErb : ℕ) : ℤ), ((200 * baseErb : ℕ) : ℤ)) := by decide +kernel
  obtain ⟨c', hc', hvalues⟩ := Option.map_eq_some_iff.mp hend
  obtain ⟨hpool, hstake⟩ := Prod.mk.inj hvalues
  refine ⟨stakeGenesis, _, c', 0xe0, 0xe0, w, 200 * baseErb, t, .nil _, by decide, ht, ?_,
    Run.of_runAll (fun _ _ _ => trivial) hc', ?_⟩
  · have hlost : lost stakeGenesis.chain.db 0xe0 w = (100 * baseErb : ℕ) := by decide +kernel
    rw [total_of_handled (by decide) (handleNFT_inv ht), hlost]
  · rw [hpool, hstake]
    decide

end Wormholes
