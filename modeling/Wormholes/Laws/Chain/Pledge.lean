import Wormholes.Laws.Chain.Queue

/-!
# Laws.Chain.Pledge — the validator pool and the pledged balances

The validator pool is rebuilt at the end of a block from the list of the block's pledges and
cancellations, while the pledge itself is an account field under the journal. `Queue.InStep` says
that the pool the list would give now and the account fields agree; after a block the list is
empty and they agree as stored. It survives every operation that loses no pledge: a revert that
leaves the list as it was at the snapshot, a removal of accounts none of which has a pledge, and a
mint or creation at an address that has none (`KeepsPledges`). A revert does not undo the list, so
a frame that pledges and fails leaves an entry the account does not have. The amounts of the entries are
values here, which is right as long as no entry keeps an amount that others share (`Event.OwnAmount`).
-/

namespace Wormholes

open Lib Common Core StateDB

variable {K : Crypto}
variable {pool : List Staked} {s t : StateDB} {c : Chain} {a : Address} {o o' : StateObject}
variable {e : Event} {P : Address → StateObject → StateObject → Prop}

/-- The pledges: the block's list is folded into the validator pool. -/
def Queue.pledges : Queue where
  field := pledge
  get := getPledgedBalance
  list := Pools.pledgedTokenPool
  fold := StakedList.foldValidators
  stored := Chain.validatorPool
  untouched := untouched_pledge
  get_eq := getPledgedBalance_eq_view
  list_eq hpledges _ := hpledges
  once_fold := StakedList.once_foldValidators
  fold_nil _ := rfl
  frame h hne := (Chain.step_frame h hne).2.2
  stored_writeBlock _ _ := rfl
  list_writeBlock _ _ := rfl

/-- An operation that loses no pledge, leaves no undone one in the list and shares no amount. -/
def KeepsPledges (c : Chain) (e : Event) : Prop :=
  e.OwnAmount ∧ KeepsQueued pledge Pools.pledgedTokenPool c e

/-! ## Effects -/

theorem pledge_of_balanceOnly (h : BalanceOnly a o o') : pledge o' = pledge o := by
  obtain ⟨b, rfl⟩ := h
  rfl

theorem pledge_of_exchangerOnly {fee : ℕ} (h : ExchangerOnly fee a o o') :
    pledge o' = pledge o := by
  obtain ⟨b, x, flag, block, rate, name, url, rfl, -⟩ := h
  rfl

/-- A pledge appends what it adds. -/
theorem pledgeToken_inStep (hpool : StakedList.Once pool) (h : Queue.pledges.InStep pool s) (a : Address)
    (x : ℕ) : Queue.pledges.InStep pool (s.pledgeToken a x) := by
  refine h.add hpool ?_ (getPledgedBalance_pledgeToken s a x)
  rw [pledgeToken_pools]
  exact StakedList.foldValidators_append _ _ _

/-- A cancellation appends what it takes; the account has that much. -/
theorem cancelPledgedToken_inStep (hpool : StakedList.Once pool) (h : Queue.pledges.InStep pool s) {x : ℕ}
    (hhas : s.getPledgedBalance a ≥ x) (hcancel : s.cancelPledgedToken a x = some t) :
    Queue.pledges.InStep pool t := by
  intro b
  have hremoved := StakedList.stakeBalance_removeValidator (StakedList.once_foldValidators hpool _)
    (Int.natCast_nonneg x) (hhas.trans_eq (h a).symm) b
  refine Eq.trans ?_ (hremoved.trans ?_)
  · rw [cancelPledgedToken_pools hcancel]
    exact congrArg (StakedList.stakeBalance · b) (StakedList.foldValidators_append _ _ _)
  · exact (congrArg (· - _) (h b)).trans (getPledgedBalance_cancelPledgedToken hcancel b).symm

/-- The payloads that pledge or stake, or take back, keep pool and pledges in step. -/
theorem Core.Handled.pledges_inStep {bn : ℕ} {caller addr : Address} {w : WormholesTx} {value : ℕ}
    (hpool : StakedList.Once pool) (hs : Queue.pledges.InStep pool s) (hw : stakes w)
    (h : Handled K s bn caller addr w value t) : Queue.pledges.InStep pool t := by
  have htypes := hw
  unfold stakes at htypes
  cases h with
  | pledge => exact pledgeToken_inStep hpool hs caller value
  | unpledge _ hfunds h => exact cancelPledgedToken_inStep hpool hs hfunds h
  | openExchanger =>
    exact hs.of_eq ((openExchanger_steps _ _ _ _ _ _ _).view_eq pledge_of_exchangerOnly)
      (by rw [openExchanger_pools]; rfl)
  | closeExchanger _ h =>
    refine hs.of_eq ((closeExchanger_steps h).view_eq pledge_of_exchangerOnly) ?_
    rcases closeExchanger_pools h with hpools | ⟨e, hpools⟩
    · rw [hpools]
    · rw [hpools]
      rfl
  | addStake _ _ h =>
    exact hs.of_eq ((addExchangerToken_steps h).view_eq pledge_of_exchangerOnly)
      (by rw [addExchangerToken_pools h]; rfl)
  | subStake _ _ h =>
    exact hs.of_eq ((subExchangerToken_steps h).view_eq pledge_of_exchangerOnly)
      (by rw [subExchangerToken_pools h]; rfl)
  | sale hmoved => cases (handedOver_of_stakes hw caller addr).symm.trans hmoved
  | _ => omega

/-! ## Genesis -/

/-- The genesis pledges give the same in the pool and in the accounts. -/
theorem genesis_fold_consistent (vs : List (Address × ℕ)) (hpool : StakedList.Once pool)
    (h : ∀ a, StakedList.stakeBalance pool a = s.getPledgedBalance a) :
    StakedList.Once (vs.foldl (fun l v => StakedList.add l v.1 v.2) pool) ∧
      ∀ a, StakedList.stakeBalance (vs.foldl (fun l v => StakedList.add l v.1 v.2) pool) a =
        (vs.foldl (fun s v => s.pledgeToken v.1 v.2) s).getPledgedBalance a := by
  induction vs generalizing pool s with
  | nil => exact ⟨hpool, h⟩
  | cons v vs ih =>
    refine ih (StakedList.once_add hpool _ _) fun a => ?_
    rw [StakedList.stakeBalance_add hpool, getPledgedBalance_pledgeToken, h a]

/-- The accounts of a genesis before its pledges. -/
def Genesis.unpledged (g : Genesis) : StateDB :=
  g.stake.foldl
    (fun s v => s.openExchanger v.1 v.2 0 250 "EXCHANGER".toList "www.xiaoli.com".toList)
    (g.alloc.foldl
      (fun s a => ((s.addBalance a.addr a.balance).setCode a.addr a.code).setNonce a.addr a.nonce)
      g.emptyState)

/-- A fold of state functions is made of their steps. -/
theorem foldl_steps {α : Type} {f : StateDB → α → StateDB} (hf : ∀ s x, Steps P s (f s x))
    (l : List α) (s : StateDB) : Steps P s (l.foldl f s) := by
  induction l generalizing s with
  | nil => exact .refl s
  | cons x rest ih => exact (hf s x).trans (ih _)

/-- A genesis writes no NFT and destroys nothing. -/
def GenesisWrite (_ : Address) (o o' : StateObject) : Prop :=
  o'.nft = o.nft ∧ o'.suicided = o.suicided

theorem Genesis.unpledged_steps (g : Genesis) :
    Steps (fun a o o' => GenesisWrite a o o' ∧ pledge o' = pledge o) g.emptyState g.unpledged := by
  refine Steps.trans (foldl_steps (fun s a => ?_) g.alloc _) (foldl_steps (fun s v => ?_) g.stake _)
  · refine Steps.trans (Steps.trans ((addBalance_steps s _ _).mono ?_) ((setCode_steps _ _ _).mono ?_))
      ((setNonce_steps _ _ _).mono ?_)
    · rintro a o o' ⟨b, rfl⟩
      exact ⟨⟨rfl, rfl⟩, rfl⟩
    · rintro a o o' ⟨n, c, st, rfl⟩
      exact ⟨⟨rfl, rfl⟩, rfl⟩
    · rintro a o o' ⟨n, c, st, rfl⟩
      exact ⟨⟨rfl, rfl⟩, rfl⟩
  · refine (openExchanger_steps s _ _ _ _ _ _).mono ?_
    rintro a o o' ⟨b, x, flag, block, rate, name, url, rfl, -⟩
    exact ⟨⟨rfl, rfl⟩, rfl⟩

theorem Genesis.toState_steps (g : Genesis) : Steps GenesisWrite g.emptyState g.toState := by
  refine Steps.trans (g.unpledged_steps.mono And.left) (foldl_steps (fun s v => ?_) g.validator _)
  refine (pledgeToken_steps s _ _).mono ?_
  rintro a o o' ⟨b, p, rfl⟩
  exact ⟨rfl, rfl⟩

theorem Genesis.suicided_eq_false (g : Genesis) (a : Address) (o : StateObject)
    (h : g.toState.accounts a = some o) : o.suicided = false :=
  g.toState_steps.forall_accounts (I := fun _ o => o.suicided = false) (fun _ => rfl)
    (fun hP ho => hP.2.trans ho) (fun _ _ h => by cases h) a o h

/-- At the genesis the pool and the accounts have the same pledges. -/
theorem Genesis.pledges_inv (g : Genesis) : Queue.pledges.Inv g.chain := by
  refine .genesis rfl g.suicided_eq_false (genesis_fold_consistent g.validator List.nodup_nil fun a => ?_)
  exact (g.unpledged_steps.getPledgedBalance_eq (fun h => h.2) a).symm

/-- In every chain whose operations all keep pledges, after every block the stored validator pool
gives each account its pledged balance. -/
theorem validatorPool_eq_pledgedBalance {g : Genesis} {es : List Event} {beneficiaries : List Address}
    {c : Chain}
    (hrun : Run (Chain.step K) KeepsPledges g.chain (es ++ [.finalizeBlock beneficiaries]) c)
    (a : Address) :
    StakedList.stakeBalance c.validatorPool a = c.db.getPledgedBalance a := by
  have hinv : Queue.pledges.Inv c := hrun.invariant g.pledges_inv fun hc hok h =>
    hc.step hok.2 h fun _ hw _ hhandled hs =>
      hhandled.pledges_inStep hc.once hs hw
  exact hinv.after_block hrun a

/-- A genesis with an account and a contract that can pledge. -/
def pledgeGenesis : Genesis :=
  .small [⟨0xe1, 1000 * baseErb, [], 0⟩, ⟨0xc0, 200000 * baseErb, ['x'], 1⟩]

/-- The contract pledges in a call. -/
def pledgeCall : Event := .call 0xc0 0xe1 (.wormholes (.bare 9)) (100000 * baseErb)

/-- A contract pledges and the block ends: the pool has the pledge. -/
theorem validatorPool_eq_pledgedBalance_pledge :
    ∃ c, Run (Chain.step .trivial) KeepsPledges pledgeGenesis.chain
        ([pledgeCall] ++ [.finalizeBlock []]) c ∧
      StakedList.stakeBalance c.validatorPool 0xc0 = c.db.getPledgedBalance 0xc0 := by
  let s := pledgeGenesis.chain.db.snapshot.pledgeToken 0xc0 (100000 * baseErb : ℕ)
  let c₁ := pledgeGenesis.chain.entered s
  have hcall : Chain.step .trivial pledgeCall pledgeGenesis.chain = some c₁ := by
    have hfunds : pledgeGenesis.chain.db.canTransfer 0xc0 (100000 * baseErb) = true := by
      decide +kernel
    have hfunds' : pledgeGenesis.chain.db.snapshot.canTransfer 0xc0 (100000 * baseErb) = true := hfunds
    have hcond : ¬ (100000 * baseErb ≠ 0 ∧
        ¬ pledgeGenesis.chain.db.canTransfer 0xc0 (100000 * baseErb) = true) := by
      rw [hfunds]
      simp
    simp only [Chain.step, pledgeCall, if_neg hcond, evmCall]
    simp only [handleNFT, WormholesTx.bare]
    simp only [Res.require, hfunds', if_true]
    rfl
  have hliving : ∀ a o, s.accounts a = some o → o.suicided = false := by
    refine (pledgeToken_steps _ _ _).forall_accounts (I := fun _ o => o.suicided = false)
      (fun _ => rfl) ?_ ?_
    · rintro a o o' ⟨b, p, rfl⟩ ho
      exact ho
    · intro a o ha
      obtain ⟨o', ho', rfl⟩ := Option.map_eq_some_iff.mp ha
      exact pledgeGenesis.suicided_eq_false a o' (accounts_of_finalise ho')
  obtain ⟨c, hc⟩ : ∃ c, Chain.step .trivial (.finalizeBlock []) c₁ = some c := by
    refine Option.isSome_iff_exists.mp ?_
    decide +kernel
  have hrun : Run (Chain.step .trivial) KeepsPledges pledgeGenesis.chain
      ([pledgeCall] ++ [.finalizeBlock []]) c := by
    refine .snoc (.cons ⟨?_, ?_⟩ hcall (.nil c₁)) ⟨trivial, ?_, ?_⟩ hc
    · exact fun h => by simp [WormholesTx.bare] at h
    · exact fun h => by simp [userMints, WormholesTx.bare] at h
    · intro a o ha hsuicided
      rw [hliving a o ha] at hsuicided
      cases hsuicided
    · exact fun a ha => by cases ha
  exact ⟨c, hrun, validatorPool_eq_pledgedBalance hrun 0xc0⟩

/-- A contract called by an account pledges in an inner call and then fails. Its pledge is undone,
but the block still adds it to the validator pool. -/
theorem validatorPool_keeps_reverted_pledge :
    ∃ (g : Genesis) (es : List Event) (beneficiaries : List Address) (c : Chain) (a : Address),
      Run (Chain.step .trivial) (fun _ _ => True) g.chain (es ++ [.finalizeBlock beneficiaries]) c ∧
        StakedList.stakeBalance c.validatorPool a ≠ c.db.getPledgedBalance a := by
  have hend : (runAll (Chain.step .trivial)
      ([.call 0xe1 0xc0 .plain 0, pledgeCall, .revert 0, .finalise] ++ [.finalizeBlock []])
      pledgeGenesis.chain).map (fun c =>
        (StakedList.stakeBalance c.validatorPool 0xc0, c.db.getPledgedBalance 0xc0)) =
      some (100000000000000000000000, 0) := by
    decide +kernel
  obtain ⟨c, hc, hvalues⟩ := Option.map_eq_some_iff.mp hend
  refine ⟨pledgeGenesis, _, [], c, 0xc0, Run.of_runAll (fun _ _ _ => trivial) hc, ?_⟩
  obtain ⟨hpool, hpledge⟩ := Prod.mk.inj hvalues
  rw [hpool, hpledge]
  decide

end Wormholes
