import Wormholes.Laws.Chain.Pledge
import Wormholes.Laws.Core.Panic
import Wormholes.Laws.State.Approvals

/-!
# Laws.Chain.Trades — what the operations of a chain do to NFT records

Most operations leave the records of NFTs, the exchange queue and the mint counters alone, up to an
approved address or an account written anew (`Quiet`). The others hand an NFT over, trade one in or
mint at the user counter, some after payments that leave the records as they are. `Effect.trade` sorts
every operation into these four, so that a property of the records is shown for four writes and not for
some thirty operations.
-/

namespace Wormholes

open Lib Lib.Forest Common Core StateDB

variable {K : Crypto}
variable {A : Address} {e : Event} {c c' : Chain}
variable {P : Address → StateObject → StateObject → Prop} {bn : ℕ}

/-! ## States with the same records -/

namespace StateDB

variable {H : Hasher} {s t u : StateDB}

/-- Payments make accounts, but an owner that was found is found again. -/
theorem SameNFTs.store_eq (h : SameNFTs s t) {found : Address × Address}
    (hfound : getNFTStoreAddress16 H s A 0 = some found) :
    getNFTStoreAddress16 H t A 0 = some found := by
  obtain ⟨S, owner⟩ := found
  obtain ⟨l, hl, hpresent, hfirst, hcovers, hS⟩ := getNFTStoreAddress16_eq_some_iff.mp hfound
  refine getNFTStoreAddress16_eq_some_iff.mpr
    ⟨l, hl, fun e he => h.grows _ (hpresent e he), ?_, ?_, hS⟩
  · rw [h.forestOf_eq]
    exact hfirst
  · rw [h.forestOf_eq]
    exact hcovers

/-- Whose owner is known is held by an NFT that is found. -/
theorem exists_store_of_owner (howner : getNFTOwner16 H s A ≠ 0) :
    ∃ found, getNFTStoreAddress16 H s A 0 = some found := by
  rw [getNFTOwner16_eq] at howner
  cases hfound : getNFTStoreAddress16 H s A 0 with
  | none =>
    rw [hfound] at howner
    exact absurd rfl howner
  | some found => exact ⟨found, rfl⟩

theorem SameNFTs.owner_eq (h : SameNFTs s t) (howner : getNFTOwner16 H s A ≠ 0) :
    getNFTOwner16 H t A = getNFTOwner16 H s A := by
  obtain ⟨found, hfound⟩ := exists_store_of_owner howner
  rw [getNFTOwner16_eq, getNFTOwner16_eq, hfound, h.store_eq hfound]

theorem SameNFTs.splitStore_eq (h : SameNFTs s t) (howner : getNFTOwner16 H s A ≠ 0) (level : ℕ) :
    splitStore H t A level = splitStore H s A level := by
  obtain ⟨found, hfound⟩ := exists_store_of_owner howner
  rw [splitStore, splitStore, hfound, h.store_eq hfound, h.parts]

/-- Opening an account on both sides. -/
theorem SameNFTs.getOrNew (h : SameNFTs s t) (a : Address) :
    SameNFTs (s.getOrNewStateObject a).1 (t.getOrNewStateObject a).1 where
  parts := by rw [nftAt_getOrNewStateObject, nftAt_getOrNewStateObject, h.parts]
  grows b hb := by
    rw [exists_getOrNewStateObject_iff] at hb ⊢
    exact hb.imp_left (h.grows b)

theorem Steps.sameNFTs_payment (h : Steps PaymentOnly s t) : SameNFTs s t :=
  h.sameNFTs fun hP => by
    obtain ⟨b, v, rfl⟩ := hP
    rfl

/-- States with the same accounts have the same records. -/
theorem sameParts_of_accounts (h : s.accounts = t.accounts) : SameParts s t where
  parts := by
    unfold nftAt view
    rw [h]
  exists_iff b := by rw [h]

/-! ## Ends of transactions and blocks, reverts -/

theorem nftAt_finalise (s : StateDB) (a : Address) :
    nftAt s.finalise a = nftAt s a ∨ nftAt s.finalise a = .blank := by
  cases ho : s.finalise.accounts a with
  | none => exact Or.inr (view_of_none _ ho)
  | some o => exact Or.inl ((view_of_some _ ho).trans (view_of_some _ (accounts_of_finalise ho)).symm)

theorem nftAt_reload (s : StateDB) : nftAt s.reload = nftAt s := by
  funext a
  cases ho : s.accounts a with
  | none =>
    have hreload : s.reload.accounts a = none := Option.map_eq_none_iff.mpr ho
    exact (view_of_none _ hreload).trans (view_of_none _ ho).symm
  | some o =>
    have hreload : s.reload.accounts a = some o.reload := Option.map_eq_some_iff.mpr ⟨o, ho, rfl⟩
    have hafter : nftAt s.reload a = o.reload.nft := view_of_some _ hreload
    exact hafter.trans (view_of_some (·.nft) ho).symm

theorem nftAt_of_equiv (hequiv : t.accounts.Equiv s.accounts) : nftAt t = nftAt s := by
  funext a
  have heq := hequiv a
  cases ho : t.accounts a with
  | none =>
    rw [ho] at heq
    have hnone : s.accounts a = none := Option.map_eq_none_iff.mp heq.symm
    exact (view_of_none _ ho).trans (view_of_none _ hnone).symm
  | some o =>
    rw [ho] at heq
    obtain ⟨o', ho', hnormal⟩ := Option.map_eq_some_iff.mp heq.symm
    have hnft : o'.normal.nft = o.normal.nft := by rw [hnormal]
    have hafter : nftAt t a = o.nft := view_of_some _ ho
    have hbefore : nftAt s a = o'.nft := view_of_some _ ho'
    exact hafter.trans (hnft.symm.trans hbefore.symm)

/-! ## Quiet operations -/

/-- The records are those of before up to the approved address, or gone; queue and counters stay. -/
structure Quiet (s t : StateDB) : Prop where
  record : ∀ a, ∃ x, nftAt t a = { nftAt s a with nftApproveAddressList := x } ∨
    nftAt t a = { AccountNFT.blank with nftApproveAddressList := x }
  queue : t.pools.snftExchangePool = s.pools.snftExchangePool
  mintDeep : t.pools.mintDeep = s.pools.mintDeep

theorem Quiet.of_parts (hparts : nftAt t = nftAt s)
    (hqueue : t.pools.snftExchangePool = s.pools.snftExchangePool)
    (hcounters : t.pools.mintDeep = s.pools.mintDeep) : Quiet s t where
  record a := ⟨_, Or.inl (congrFun hparts a)⟩
  queue := hqueue
  mintDeep := hcounters

theorem Quiet.refl (s : StateDB) : Quiet s s := .of_parts rfl rfl rfl

theorem Quiet.trans (h : Quiet s t) (h' : Quiet t u) : Quiet s u where
  record a := by
    obtain ⟨x, hx⟩ := h'.record a
    obtain ⟨y, hy⟩ := h.record a
    refine ⟨x, ?_⟩
    rcases hx with hx | hx
    · rw [hx]
      rcases hy with hy | hy
      · exact Or.inl (by rw [hy])
      · exact Or.inr (by rw [hy])
    · exact Or.inr hx
  queue := h'.queue.trans h.queue
  mintDeep := h'.mintDeep.trans h.mintDeep

theorem Quiet.leveled (h : Quiet s t) (hs : Leveled s) : Leveled t := by
  intro a
  obtain ⟨x, hsame | hblank⟩ := h.record a
  · rw [hsame]
    exact hs a
  · rw [hblank]
    exact Nat.zero_le _

theorem Quiet.of_steps (h : Steps P s t) (hP : ∀ {a o o'}, P a o o' → o'.nft = o.nft)
    (hqueue : t.pools.snftExchangePool = s.pools.snftExchangePool)
    (hcounters : t.pools.mintDeep = s.pools.mintDeep) : Quiet s t :=
  .of_parts (h.sameNFTs hP).parts hqueue hcounters

theorem Quiet.of_steps_pools (h : Steps P s t) (hP : ∀ {a o o'}, P a o o' → o'.nft = o.nft)
    (hpools : t.pools = s.pools) : Quiet s t :=
  .of_steps h hP (by rw [hpools]) (by rw [hpools])

theorem Steps.quiet_balance (h : Steps BalanceOnly s t) (hpools : t.pools = s.pools) : Quiet s t :=
  .of_steps_pools h (fun hP => by obtain ⟨b, rfl⟩ := hP; rfl) hpools

theorem Steps.quiet_code (h : Steps CodeOnly s t) (hpools : t.pools = s.pools) : Quiet s t :=
  .of_steps_pools h (fun hP => by obtain ⟨n, c, st, rfl⟩ := hP; rfl) hpools

theorem Steps.quiet_exchanger {fee : ℕ} (h : Steps (ExchangerOnly fee) s t)
    (hqueue : t.pools.snftExchangePool = s.pools.snftExchangePool)
    (hcounters : t.pools.mintDeep = s.pools.mintDeep) : Quiet s t :=
  .of_steps h (fun hP => by obtain ⟨b, x, flag, block, rate, name, url, rfl, -⟩ := hP; rfl) hqueue
    hcounters

theorem Steps.quiet_approveAll (h : Steps ApproveAllOnly s t) (hpools : t.pools = s.pools) :
    Quiet s t :=
  .of_steps_pools h (fun hP => by obtain ⟨l, rfl⟩ := hP; rfl) hpools

theorem view_nft {β : Type} (f : AccountNFT → β) (s : StateDB) (a : Address) :
    view (fun o => f o.nft) s a = f (nftAt s a) := by
  cases ho : s.accounts a with
  | none => exact (view_of_none _ ho).trans (congrArg f (view_of_none (·.nft) ho).symm)
  | some o => exact (view_of_some _ ho).trans (congrArg f (view_of_some (·.nft) ho).symm)

theorem Steps.quiet_approve (h : Steps (ApproveOnly A) s t) (hpools : t.pools = s.pools) :
    Quiet s t where
  record a := by
    let rest (i : AccountNFT) : AccountNFT := { i with nftApproveAddressList := 0 }
    have hview : view (fun o => rest o.nft) t a = view (fun o => rest o.nft) s a := by
      refine h.view_eq (fun hP => ?_) a
      obtain ⟨-, x, rfl⟩ := hP
      rfl
    have hrest : rest (nftAt t a) = rest (nftAt s a) :=
      (view_nft rest t a).symm.trans (hview.trans (view_nft rest s a))
    refine ⟨(nftAt t a).nftApproveAddressList, Or.inl ?_⟩
    exact congrArg (fun i => { i with nftApproveAddressList := (nftAt t a).nftApproveAddressList }) hrest
  queue := by rw [hpools]
  mintDeep := by rw [hpools]

theorem createAccount_quiet (s : StateDB) (A : Address) : Quiet s (s.createAccount A) where
  record a := by
    refine ⟨(nftAt (s.createAccount A) a).nftApproveAddressList, ?_⟩
    rw [nftAt_createAccount]
    by_cases ha : a = A
    · rw [ha, Function.update_self]
      exact Or.inr rfl
    · rw [Function.update_of_ne ha]
      exact Or.inl rfl
  queue := by rw [createAccount_pools]
  mintDeep := by rw [createAccount_pools]

/-! ## The writes -/

/-- The state a change of owner is made in, after payments: the records, the pools and the NFT that is
split are as before. -/
structure Reached (H : Hasher) (s t : StateDB) (A : Address) (level : ℕ) : Prop where
  same : SameNFTs s t
  pools : t.pools = s.pools
  store : splitStore H (t.getOrNewStateObject A).1 A level = splitStore H (s.opened [A]) A level

theorem Reached.refl (H : Hasher) (s : StateDB) (A : Address) (level : ℕ) : Reached H s s A level :=
  ⟨.refl s, rfl, rfl⟩

theorem Reached.of_payment (h : Steps PaymentOnly s t) (hpools : t.pools = s.pools)
    (howner : getNFTOwner16 H s A ≠ 0) (level : ℕ) : Reached H s t A level := by
  refine ⟨h.sameNFTs_payment, hpools, (h.sameNFTs_payment.getOrNew A).splitStore_eq ?_ level⟩
  rw [(getOrNewStateObject_sameNFTs s A).owner_eq howner]
  exact howner

theorem Reached.of_ensure (H : Hasher) (s : StateDB) (A : Address) (level : ℕ) :
    Reached H s (if s.exist A then s else s.createAccount A) A level := by
  refine ⟨(ensure_steps s A (P := fun _ _ _ => False)).sameNFTs fun h => h.elim, ensure_pools s A, ?_⟩
  rw [getOrNew_ensured]

end StateDB

/-- The NFT that an operation hands over, its level, and who gets it. -/
def Event.handedOver : Event → Option (Address × ℕ × Address)
  | .call caller addr (.wormholes w) _ => Core.handedOver caller addr w
  | .nTransferFrom _ _ toAddr nftAddr => some (nftAddr, 0, toAddr)
  | _ => none

/-- The NFT that an operation trades in, and its level. -/
def Event.tradedIn : Event → Option (Address × ℕ)
  | .call _ _ (.wormholes w) _ =>
    if w.type = 6 then
      match getNftAddressAndLevel w.nftAddress with
      | .ok nft => some nft
      | _ => none
    else none
  | _ => none

/-- Whether an operation mints at the user counter. -/
def Event.mintsUser : Event → Bool
  | .call _ _ (.wormholes w) _ => w.type = 0 || w.type = 16 || w.type = 17 || w.type = 19
  | .nMint .. => true
  | _ => false

/-- What an operation does to the records of NFTs. -/
inductive Trade (K : Crypto) (bn : ℕ) (e : Event) (s t : StateDB) : Prop
  | quiet (h : Quiet s t)
  | handover {A N : Address} {level : ℕ} {s₁ : StateDB} (he : e.handedOver = some (A, level, N))
      (hreached : Reached K.toHasher s s₁ A level) (h : changeNFTOwner K.toHasher s₁ A N level = some t)
  | exchange {caller A : Address} {level : ℕ} (he : e.tradedIn = some (A, level))
      (hofficial : isOfficialNFT A = true) (howner : getNFTOwner16 K.toHasher s A = caller)
      (h : exchangeNFTToCurrency K.toHasher s caller A bn level = some t)
  | mint {exchanger owner : Address} {royalty : ℕ} {url : GoString} (he : e.mintsUser = true)
      (h : t = (s.createNFTByUser exchanger owner royalty url).1)
  | mintSale {exchanger owner N : Address} {royalty : ℕ} {url : GoString} {s₁ : StateDB}
      (he : e.mintsUser = true)
      (hsame : SameNFTs (s.createNFTByUser exchanger owner royalty url).1 s₁)
      (hpools : s₁.pools = (s.createNFTByUser exchanger owner royalty url).1.pools)
      (h : changeNFTOwner K.toHasher s₁ (bigToAddress s.pools.mintDeep.userMint) N 0 = some t)

/-- Every payload is a trade or quiet. -/
theorem Core.Handled.trade {s t : StateDB} {value : ℕ} {caller addr : Address} {w : WormholesTx}
    (h : Handled K s bn caller addr w value t) :
    Trade K bn (.call caller addr (.wormholes w) value) s t := by
  cases h with
  | userMint htype => exact .mint (by simp [Event.mintsUser, htype]) rfl
  | @transfer A level _ htype hnft _ h =>
    exact .handover (by simp [Event.handedOver, handedOver, htype, hnft]) (.of_ensure _ s A level) h
  | approve =>
    exact .quiet ((changeNFTApproveAddress_steps _ _ _).quiet_approve (by simp))
  | unapprove =>
    exact .quiet ((cancelNFTApproveAddress_steps _ _ _).quiet_approve (by simp))
  | approveAll => exact .quiet ((changeApproveAddress_steps _ _ _).quiet_approveAll (by simp))
  | unapproveAll => exact .quiet ((cancelApproveAddress_steps _ _ _).quiet_approveAll (by simp))
  | exchange htype hnft hofficial howner h =>
    exact .exchange (by simp [Event.tradedIn, htype, hnft]) hofficial howner h
  | nothing => exact .quiet (.refl s)
  | pledge =>
    refine .quiet (.of_steps (pledgeToken_steps _ _ _) (fun hP => ?_) ?_ ?_)
    · obtain ⟨b, p, rfl⟩ := hP
      rfl
    · rw [pledgeToken_pools]
    · rw [pledgeToken_pools]
  | unpledge _ _ h =>
    refine .quiet (.of_steps (cancelPledgedToken_steps h) (fun hP => ?_) ?_ ?_)
    · obtain ⟨b, p, rfl⟩ := hP
      rfl
    · rw [cancelPledgedToken_pools h]
    · rw [cancelPledgedToken_pools h]
  | openExchanger =>
    refine .quiet ((openExchanger_steps _ _ _ _ _ _ _).quiet_exchanger ?_ ?_)
    · rw [openExchanger_pools]
    · rw [openExchanger_pools]
  | closeExchanger _ h =>
    refine .quiet ((closeExchanger_steps h).quiet_exchanger ?_ ?_)
    all_goals
      rcases closeExchanger_pools h with hpools | ⟨x, hpools⟩ <;> rw [hpools]
  | inject => exact .quiet (.of_parts rfl rfl rfl)
  | sale hmoved _ _ howner _ _ h =>
    obtain ⟨paid, hpaid, hchange⟩ := settleSale_inv h
    exact .handover hmoved (.of_payment (paid_steps hpaid) (paid_pools hpaid) howner _) hchange
  | mintSale htype _ _ h =>
    obtain ⟨paid, hpaid, hchange⟩ := settleMintSale_inv h
    refine .mintSale ?_ (mintPaid_steps hpaid).sameNFTs_payment (mintPaid_pools hpaid) hchange
    rcases htype with htype | htype | htype <;> simp [Event.mintsUser, htype]
  | addStake _ _ h =>
    refine .quiet ((addExchangerToken_steps h).quiet_exchanger ?_ ?_)
    · rw [addExchangerToken_pools h]
    · rw [addExchangerToken_pools h]
  | subStake _ _ h =>
    refine .quiet ((subExchangerToken_steps h).quiet_exchanger ?_ ?_)
    · rw [subExchangerToken_pools h]
    · rw [subExchangerToken_pools h]
  | vote =>
    unfold voteOfficialNFT
    split
    · exact .quiet (.of_parts rfl rfl rfl)
    · exact .quiet (.refl s)
  | online =>
    exact .quiet (((transfer_steps _ _ _ _).quiet_balance (by simp)).trans (.of_parts rfl rfl rfl))

/-- Every operation is a trade or quiet. -/
theorem Effect.trade {s t : StateDB} (h : Effect K bn e s t) : Trade K bn e s t := by
  cases h with
  | skip => exact .quiet (.refl s)
  | transfer => exact .quiet ((transfer_steps _ _ _ _).quiet_balance (by simp))
  | payload h => exact (handleNFT_inv h).trade
  | nonce => exact .quiet ((setNonce_steps _ _ _).quiet_code (by simp))
  | @created caller addr value _ _ =>
    exact .quiet (((createAccount_quiet s addr).trans ((setNonce_steps _ _ _).quiet_code (by simp))).trans
      ((transfer_steps _ _ _ _).quiet_balance (by simp)))
  | touch => exact .quiet ((addBalance_steps _ _ _).quiet_balance (by simp))
  | sstore => exact .quiet ((setState_steps _ _ _ _).quiet_code (by simp))
  | setCode => exact .quiet ((setCode_steps _ _ _).quiet_code (by simp))
  | selfDestruct =>
    refine .quiet (.of_steps_pools (opSuicide_steps _ _ _) (fun hP => ?_) (by simp [opSuicide]))
    rcases hP with ⟨b, rfl⟩ | rfl
    · rfl
    · rfl
  | nTransferFrom _ h => exact .handover rfl (.refl _ s _ 0) h
  | nApprove => exact .quiet ((changeNFTApproveAddress_steps _ _ _).quiet_approve (by simp))
  | nApproveAll => exact .quiet ((changeApproveAddress_steps _ _ _).quiet_approveAll (by simp))
  | nUnapproveAll => exact .quiet ((cancelApproveAddress_steps _ _ _).quiet_approveAll (by simp))
  | nMint => exact .mint rfl rfl
  | buyGas => exact .quiet ((subBalance_steps _ _ _).quiet_balance (by simp))
  | setNonce => exact .quiet ((setNonce_steps _ _ _).quiet_code (by simp))
  | credit => exact .quiet ((addBalance_steps _ _ _).quiet_balance (by simp))

/-! ## Steps -/

/-- The operation is carried out: its payload or opcode succeeds, and a payload's value is there. -/
def Event.Accepted (K : Crypto) (c : Chain) : Event → Prop
  | .call caller addr (.wormholes w) value =>
    (value = 0 ∨ c.db.canTransfer caller value = true) ∧
      ∃ t, handleNFT K c.db.snapshot c.number caller addr w value = .ok t
  | .nTransferFrom caller fromAddr toAddr nftAddr =>
    ∃ t, opNTransferFrom K c.db caller fromAddr toAddr nftAddr = .ok t
  | .nMint caller toAddr royalty uri => ∃ t, opNMint c.db caller toAddr royalty uri = .ok t
  | _ => True

namespace Chain

theorem ofRes_ok_or {r : Res StateDB} (h : c.ofRes r = some c') : (∃ t, r = .ok t) ∨ c' = c := by
  cases r with
  | ok db => exact Or.inl ⟨db, rfl⟩
  | err msg =>
    cases h
    exact Or.inr rfl
  | panic => cases h

/-- An operation that is not carried out leaves the chain, or a snapshot of its state. -/
theorem accepted_or (h : step K e c = some c') :
    e.Accepted K c ∨ c' = c ∨ c' = c.entered c.db.snapshot := by
  cases e with
  | call caller addr input value =>
    cases input with
    | plain => exact Or.inl trivial
    | malformed => exact Or.inl trivial
    | wormholes w =>
      simp only [step] at h
      by_cases hfunds : value ≠ 0 ∧ ¬ c.db.canTransfer caller value
      · rw [if_pos hfunds] at h
        cases h
        exact Or.inr (Or.inl rfl)
      · rw [if_neg hfunds] at h
        simp only [evmCall, if_neg hfunds] at h
        cases hhandled : handleNFT K c.db.snapshot c.number caller addr w value with
        | ok t =>
          refine Or.inl ⟨?_, t, hhandled⟩
          by_cases hzero : value = 0
          · exact Or.inl hzero
          · exact Or.inr (by simpa [hzero] using hfunds)
        | err msg =>
          rw [hhandled] at h
          cases h
          exact Or.inr (Or.inr rfl)
        | panic =>
          rw [hhandled] at h
          cases h
  | nTransferFrom caller fromAddr toAddr nftAddr => exact (ofRes_ok_or h).imp_right Or.inl
  | nMint caller toAddr royalty uri => exact (ofRes_ok_or h).imp_right Or.inl
  | _ => exact Or.inl trivial

theorem quiet_setNonce (s : StateDB) (a : Address) (n : ℕ) : Quiet s (s.setNonce a n) :=
  (setNonce_steps s a n).quiet_code (by simp)

theorem quiet_finalise (s : StateDB) : Quiet s s.finalise where
  record a := by
    refine ⟨(nftAt s.finalise a).nftApproveAddressList, ?_⟩
    rcases nftAt_finalise s a with hsame | hblank
    · exact Or.inl (by rw [hsame])
    · exact Or.inr (by rw [hblank])
  queue := rfl
  mintDeep := rfl

theorem nftAt_writeBlock (c : Chain) (db : StateDB) : nftAt (c.writeBlock db).db = nftAt db :=
  nftAt_reload _

theorem quiet_writeBlock (c : Chain) (db : StateDB) : Quiet db (c.writeBlock db).db :=
  .of_parts (nftAt_writeBlock c db) rfl rfl

theorem nftAt_genesis (g : Genesis) (a : Address) : nftAt g.chain.db a = .blank := by
  have hstate : nftAt g.toState a = .blank := by
    rw [(g.toState_steps.sameNFTs fun hP => hP.1).parts]
    exact view_of_none _ rfl
  have hreload : nftAt g.chain.db a = nftAt g.toState.finalise a :=
    congrFun (nftAt_reload g.toState.finalise) a
  rw [hreload]
  rcases nftAt_finalise g.toState a with hsame | hblank
  · exact hsame.trans hstate
  · exact hblank

/-- What quiet operations keep, every trade of an operation that is carried out, the mints of a block
and a revert, every step keeps for all states. -/
theorem allStates_trade {I : StateDB → Prop} (h : step K e c = some c') (hsaved : c.SavedOk)
    (hall : c.AllStates I) (hquiet : ∀ {s t : StateDB}, Quiet s t → I s → I t)
    (htrade : ∀ {s t : StateDB}, s.accounts = c.db.accounts → s.pools = c.db.pools →
      e.Accepted K c → Trade K c.number e s t → I s → I t)
    (hrevert : ∀ {id : ℕ} {t u : StateDB}, e = .revert id → c.revertsTo id = some t → I t →
      nftAt u = nftAt t → u.pools = c.db.pools → I u)
    (hblock : ∀ {bs : List Address} {db : StateDB}, e = .finalizeBlock bs →
      c.db.createNFTByOfficial16 K.toHasher bs c.number = some db → I db) : c'.AllStates I := by
  have hsnapshot : ∀ {s : StateDB}, I s → I s.snapshot := fun {s} hs =>
    hquiet (.of_parts (s := s) rfl rfl rfl) hs
  rcases accepted_or h with haccepted | rfl | rfl
  · cases step_inv h with
    | skip => exact hall
    | stay _ heffect => exact ⟨htrade rfl rfl haccepted heffect.trade hall.1, hall.2⟩
    | enter heffect =>
      exact allStates_entered hall (htrade (s := c.db.snapshot) rfl rfl haccepted heffect.trade
        (hsnapshot hall.1))
    | @create caller addr value n db heffect =>
      have hnonce := hquiet (quiet_setNonce c.db caller n) hall.1
      refine allStates_entered ⟨hnonce, hall.2⟩ ?_
      cases heffect.trade with
      | quiet hq => exact hquiet hq (hsnapshot hnonce)
      | handover he => cases he
      | exchange he => cases he
      | mint he => cases he
      | mintSale he => cases he
    | revert hdb =>
      obtain ⟨p, ps', hdrop, hmem, hequiv, hpools, -, hsub⟩ := Tracked.revert hsaved hdb
      refine ⟨hrevert rfl ?_ (hall.2 p hmem) (nftAt_of_equiv hequiv) hpools, fun q hq => ?_⟩
      · rw [revertsTo, hdrop]
        rfl
      · exact hall.2 q (hsub q (by simpa [hdrop] using hq))
    | finalise => exact ⟨hquiet (quiet_finalise c.db) hall.1, fun _ hp => by cases hp⟩
    | block hdb =>
      refine ⟨?_, fun _ hp => by cases hp⟩
      exact hquiet (quiet_writeBlock c _) (hquiet (quiet_finalise _) (hblock rfl hdb))
  · exact hall
  · exact allStates_entered hall (hsnapshot hall.1)

end Chain

/-- The first official leaf. -/
def firstLeaf : Address := 0x8000000000000000000000000000000000000000

end Wormholes
