import Wormholes.Laws.Types.Stake
import Wormholes.Laws.Chain.Steps

/-!
# Laws.Chain.Queue — amounts that accounts hold and blocks queue

A pledge and an exchanger stake are kept twice: in a field of the account and, through a list of the
block, in a pool of the chain. The payloads that write them apart, no operation touches either field or
either list, unless it writes an account anew that has some: `Handled.leaves` and `Effect.leaves` say so
once for any such field (`Untouched`).
-/

namespace Wormholes

open Lib Common Core StateDB

variable {K : Crypto} {f : StateObject → ℤ}
variable {s t : StateDB} {bn : ℕ} {e : Event} {c : Chain}

/-- A field that is zero in a new account and that no writing of other fields changes. -/
structure Untouched (f : StateObject → ℤ) : Prop where
  fresh : ∀ b, f { StateObject.fresh with balance := b } = 0
  balance : ∀ o b, f { o with balance := b } = f o
  vote : ∀ o v, f { o with voteWeight := v } = f o
  code : ∀ o n c st, f { o with nonce := n, code := c, storage := st } = f o
  nft : ∀ o n, f { o with nft := n } = f o
  approvals : ∀ o l, f { o with approveAddressList := l } = f o
  suicided : ∀ o, f { o with suicided := true } = f o
  normal : ∀ {o o' : StateObject}, o.normal = o'.normal → f o = f o'
  reload : ∀ o, f o.reload = f o

theorem untouched_pledge : Untouched pledge where
  fresh _ := rfl
  balance _ _ := rfl
  vote _ _ := rfl
  code _ _ _ _ := rfl
  nft _ _ := rfl
  approvals _ _ := rfl
  suicided _ := rfl
  normal h := by
    have := congrArg StateObject.pledgedBalance h
    simpa [StateObject.normal, pledge] using this
  reload _ := rfl

theorem untouched_stake : Untouched stake where
  fresh _ := rfl
  balance _ _ := rfl
  vote _ _ := rfl
  code _ _ _ _ := rfl
  nft _ _ := rfl
  approvals _ _ := rfl
  suicided _ := rfl
  normal h := by
    have := congrArg StateObject.exchangerBalance h
    simpa [StateObject.normal, stake] using this
  reload _ := rfl

namespace Untouched

section Kinds

variable {a A : Address} {o o' : StateObject}

section

variable (hf : Untouched f)
include hf

theorem of_balanceOnly (h : BalanceOnly a o o') : f o' = f o := by
  obtain ⟨b, rfl⟩ := h
  exact hf.balance o b

theorem of_voteOnly (h : VoteOnly a o o') : f o' = f o := by
  obtain ⟨v, rfl⟩ := h
  exact hf.vote o v

theorem of_paymentOnly (h : PaymentOnly a o o') : f o' = f o := by
  obtain ⟨b, v, rfl⟩ := h
  exact (hf.vote _ v).trans (hf.balance o b)

theorem of_codeOnly (h : CodeOnly a o o') : f o' = f o := by
  obtain ⟨n, c, st, rfl⟩ := h
  exact hf.code o n c st

theorem of_nftOnly (h : NFTOnly a o o') : f o' = f o := by
  obtain ⟨n, rfl⟩ := h
  exact hf.nft o n

theorem of_approveAllOnly (h : ApproveAllOnly a o o') : f o' = f o := by
  obtain ⟨l, rfl⟩ := h
  exact hf.approvals o l

theorem of_approveOnly (h : ApproveOnly A a o o') : f o' = f o := by
  obtain ⟨-, x, rfl⟩ := h
  exact hf.nft o _

end

end Kinds

theorem view_mintAt_self (hf : Untouched f) {A : Address} (h : Steps (MintAt A) s t)
    (hA : view f s A = 0) : view f t A = 0 := by
  have hzero : ∀ b o, t.accounts b = some o → b = A → f o = 0 := by
    refine h.forall_accounts (fun _ _ => hf.fresh 0) ?_ ?_
    · rintro b o o' (hnft | ⟨-, rfl⟩) ho hb
      · rw [hf.of_nftOnly hnft]
        exact ho hb
      · exact hf.fresh _
    · rintro b o hb rfl
      rwa [view_of_some f hb] at hA
  unfold view
  split
  next o ho => exact hzero A o ho rfl
  · exact hf.fresh 0

theorem view_mintAt_of_ne (hf : Untouched f) {A : Address} (h : Steps (MintAt A) s t) {a : Address}
    (ha : a ≠ A) : view f t a = view f s a := by
  refine h.view_eq_at fun hP => ?_
  rcases hP with hnft | ⟨hA, -⟩
  · exact hf.of_nftOnly hnft
  · exact absurd hA ha

theorem view_mintAt (hf : Untouched f) {A : Address} (h : Steps (MintAt A) s t)
    (hA : view f s A = 0) (a : Address) : view f t a = view f s a := by
  by_cases ha : a = A
  · subst ha
    rw [hf.view_mintAt_self h hA, hA]
  · exact hf.view_mintAt_of_ne h ha

end Untouched

/-! ## What leaves a field and the lists alone -/

/-- Every amount of the field and both lists of the block stay. -/
structure Leaves (f : StateObject → ℤ) (s t : StateDB) : Prop where
  values : ∀ a, view f t a = view f s a
  pledges : t.pools.pledgedTokenPool = s.pools.pledgedTokenPool
  stakes : t.pools.exchangerTokenPool = s.pools.exchangerTokenPool

namespace Leaves

theorem refl (s : StateDB) : Leaves f s s := ⟨fun _ => rfl, rfl, rfl⟩

theorem trans {u : StateDB} (h : Leaves f s t) (h' : Leaves f t u) : Leaves f s u :=
  ⟨fun a => (h'.values a).trans (h.values a), h'.pledges.trans h.pledges, h'.stakes.trans h.stakes⟩

theorem of_steps {P : Address → StateObject → StateObject → Prop} (h : Steps P s t)
    (hP : ∀ {a o o'}, P a o o' → f o' = f o) (hpools : t.pools = s.pools) : Leaves f s t :=
  ⟨h.view_eq hP, by rw [hpools], by rw [hpools]⟩

theorem nftWrite (hf : Untouched f) (h : NFTWrite s t) : Leaves f s t :=
  of_steps h.steps hf.of_nftOnly h.pools

theorem userMint (hf : Untouched f) (exchanger owner : Address) (royalty : ℕ) (metaurl : GoString)
    (hfree : view f s (bigToAddress s.pools.mintDeep.userMint) = 0) :
    Leaves f s (s.createNFTByUser exchanger owner royalty metaurl).1 :=
  ⟨hf.view_mintAt (createNFTByUser_steps s exchanger owner royalty metaurl) hfree,
    by rw [createNFTByUser_pools], by rw [createNFTByUser_pools]⟩

end Leaves

/-- The types that mint at the user counter. -/
def userMints (w : WormholesTx) : Prop := w.type = 0 ∨ w.type = 16 ∨ w.type = 17 ∨ w.type = 19

/-- The types that pledge or stake, or take back. -/
def stakes (w : WormholesTx) : Prop :=
  w.type = 9 ∨ w.type = 10 ∨ w.type = 11 ∨ w.type = 12 ∨ w.type = 21 ∨ w.type = 22

/-- A payload that pledges or stakes, or takes back, hands no NFT over. -/
theorem handedOver_of_stakes {w : WormholesTx} (h : stakes w) (caller addr : Address) :
    handedOver caller addr w = none := by
  unfold stakes at h
  unfold handedOver
  split
  case h_6 => rfl
  all_goals omega

/-- The other payloads leave the field and the lists alone, unless they mint over an amount. -/
theorem Core.Handled.leaves (hf : Untouched f) {caller addr : Address} {w : WormholesTx} {value : ℕ}
    (h : Handled K s bn caller addr w value t) (hplain : ¬ stakes w)
    (hfree : userMints w → view f s (bigToAddress s.pools.mintDeep.userMint) = 0) :
    Leaves f s t := by
  unfold stakes at hplain
  cases h with
  | userMint htype => exact .userMint hf _ _ _ _ (hfree (Or.inl htype))
  | transfer _ _ _ h =>
    exact (Leaves.of_steps (ensure_steps s _ (P := NFTOnly)) hf.of_nftOnly (ensure_pools s _)).trans
      (.nftWrite hf (changeNFTOwner_nftWrite h))
  | approve => exact .of_steps (changeNFTApproveAddress_steps _ _ _) hf.of_approveOnly (by simp)
  | unapprove => exact .of_steps (cancelNFTApproveAddress_steps _ _ _) hf.of_approveOnly (by simp)
  | approveAll => exact .of_steps (changeApproveAddress_steps _ _ _) hf.of_approveAllOnly (by simp)
  | unapproveAll => exact .of_steps (cancelApproveAddress_steps _ _ _) hf.of_approveAllOnly (by simp)
  | exchange _ _ _ _ h =>
    obtain ⟨e, hpools⟩ := exchangeNFTToCurrency_pools h
    refine ⟨(exchangeNFTToCurrency_steps h).view_eq fun hP => ?_, by rw [hpools], by rw [hpools]⟩
    rcases hP with hnft | hbalance
    · exact hf.of_nftOnly hnft
    · exact hf.of_balanceOnly hbalance
  | nothing => exact .refl s
  | inject => exact ⟨fun _ => rfl, rfl, rfl⟩
  | sale _ _ _ _ _ _ h =>
    obtain ⟨paid, hpaid, hchange⟩ := settleSale_inv h
    exact (Leaves.of_steps (paid_steps hpaid) hf.of_paymentOnly (paid_pools hpaid)).trans
      (.nftWrite hf (changeNFTOwner_nftWrite hchange))
  | mintSale htype _ _ h =>
    obtain ⟨paid, hpaid, hchange⟩ := settleMintSale_inv h
    exact ((Leaves.userMint hf _ _ _ _ (hfree (Or.inr htype))).trans
      (.of_steps (mintPaid_steps hpaid) hf.of_paymentOnly (mintPaid_pools hpaid))).trans
        (.nftWrite hf (changeNFTOwner_nftWrite hchange))
  | vote =>
    simp only [voteOfficialNFT]
    split
    · exact ⟨fun _ => rfl, rfl, rfl⟩
    · exact .refl s
  | online =>
    exact (Leaves.of_steps (transfer_steps _ _ _ _) hf.of_balanceOnly (by simp)).trans
      ⟨fun _ => rfl, rfl, rfl⟩
  | pledge htype | unpledge htype | openExchanger htype | closeExchanger htype | addStake htype
  | subStake htype => omega

/-- The account an operation is about to write anew has nothing in the field. -/
def OverwritesNone (f : StateObject → ℤ) (e : Event) (s : StateDB) : Prop :=
  match e with
  | .create _ addr _ => view f s addr = 0
  | .nMint .. => view f s (bigToAddress s.pools.mintDeep.userMint) = 0
  | .call _ _ (.wormholes w) _ => userMints w → view f s (bigToAddress s.pools.mintDeep.userMint) = 0
  | _ => True

theorem Effect.leaves (hf : Untouched f) (h : Effect K bn e s t)
    (hplain : ∀ {caller addr w value}, e = .call caller addr (.wormholes w) value → ¬ stakes w)
    (hok : OverwritesNone f e s) : Leaves f s t := by
  cases h with
  | skip => exact .refl s
  | transfer => exact .of_steps (transfer_steps _ _ _ _) hf.of_balanceOnly (by simp)
  | payload h => exact (handleNFT_inv h).leaves hf (hplain rfl) hok
  | nonce => exact .of_steps (setNonce_steps _ _ _) hf.of_codeOnly (by simp)
  | @created caller addr value _ hfunds =>
    have hfresh : Leaves f s (s.createAccount addr) :=
      ⟨hf.view_mintAt (createAccount_steps s addr fun _ => Or.inr ⟨rfl, rfl⟩) hok, by simp, by simp⟩
    exact (hfresh.trans (.of_steps (setNonce_steps _ _ _) hf.of_codeOnly (by simp))).trans
      (.of_steps (transfer_steps _ _ _ _) hf.of_balanceOnly (by simp))
  | touch => exact .of_steps (addBalance_steps _ _ _) hf.of_balanceOnly (by simp)
  | sstore => exact .of_steps (setState_steps _ _ _ _) hf.of_codeOnly (by simp)
  | setCode => exact .of_steps (setCode_steps _ _ _) hf.of_codeOnly (by simp)
  | selfDestruct =>
    refine .of_steps (opSuicide_steps _ _ _) ?_ (by simp [opSuicide])
    rintro a o o' (hbalance | rfl)
    · exact hf.of_balanceOnly hbalance
    · exact (hf.balance _ 0).trans (hf.suicided o)
  | nTransferFrom _ h => exact .nftWrite hf (changeNFTOwner_nftWrite h)
  | nApprove => exact .of_steps (changeNFTApproveAddress_steps _ _ _) hf.of_approveOnly (by simp)
  | nApproveAll => exact .of_steps (changeApproveAddress_steps _ _ _) hf.of_approveAllOnly (by simp)
  | nUnapproveAll => exact .of_steps (cancelApproveAddress_steps _ _ _) hf.of_approveAllOnly (by simp)
  | nMint => exact .userMint hf _ _ _ _ hok
  | buyGas => exact .of_steps (subBalance_steps _ _ _) hf.of_balanceOnly (by simp)
  | setNonce => exact .of_steps (setNonce_steps _ _ _) hf.of_codeOnly (by simp)
  | credit => exact .of_steps (addBalance_steps _ _ _) hf.of_balanceOnly (by simp)

/-! ## Ends of transactions and blocks, reverts -/

/-- No account that is about to be removed has anything in the field. -/
def DestroysNone (f : StateObject → ℤ) (s : StateDB) : Prop :=
  ∀ a o, s.accounts a = some o → o.suicided = true → f o = 0

theorem leaves_finalise (hf : Untouched f) (h : DestroysNone f s) : Leaves f s s.finalise := by
  refine ⟨fun a => ?_, rfl, rfl⟩
  simp only [view, finalise]
  cases ho : s.accounts a with
  | none => rfl
  | some o =>
    simp only [never_empty, Bool.or_false]
    by_cases hsuicided : o.suicided = true
    · rw [if_pos hsuicided, h a o ho hsuicided]
      exact hf.fresh 0
    · rw [if_neg hsuicided]

theorem view_reload (hf : Untouched f) (s : StateDB) (a : Address) :
    view f s.reload a = view f s a := by
  simp only [view, reload]
  cases s.accounts a with
  | none => rfl
  | some o => exact hf.reload o

/-- States that agree up to absent balances have the same in the field. -/
theorem view_of_equiv (hf : Untouched f) (h : t.accounts.Equiv s.accounts) (a : Address) :
    view f t a = view f s a := by
  have ha := h a
  unfold view
  cases ht : t.accounts a with
  | none =>
    rw [ht] at ha
    rw [Option.map_eq_none_iff.mp ha.symm]
  | some o =>
    rw [ht] at ha
    obtain ⟨o', ho', heq⟩ := Option.map_eq_some_iff.mp ha.symm
    rw [ho']
    exact (hf.normal heq).symm

/-- Choosing the next address leaves the lists of stakes and miners. -/
theorem nextMint_tokens {p q : Pools} {a : Address} (h : nextMint p bn = some (a, q)) :
    q.pledgedTokenPool = p.pledgedTokenPool ∧ q.exchangerTokenPool = p.exchangerTokenPool ∧
      q.activeMinersPool = p.activeMinersPool := by
  simp only [nextMint] at h
  split at h
  · cases h
    exact ⟨rfl, rfl, rfl⟩
  · split at h
    · cases h
    · cases h
      exact ⟨rfl, rfl, rfl⟩

/-- An official mint at addresses that have nothing leaves the field and the lists. -/
theorem leaves_createNFTByOfficial16 (hf : Untouched f) {H : Hasher} {owners : List Address}
    (hfree : ∀ a ∈ upcoming bn owners.length s.pools, view f s a = 0)
    (h : s.createNFTByOfficial16 H owners bn = some t) : Leaves f s t := by
  obtain ⟨u, full, hu, hend⟩ := createNFTByOfficial16_cases h
  have hloop : Leaves f s u := by
    refine mintLoop_upcoming ?_ hfree hu (.refl s)
    intro _ s₁ s₂ a _ hnext hsteps ha hkeep
    obtain ⟨hpledges, hstakes, -⟩ := nextMint_tokens hnext
    exact hkeep.trans ⟨hf.view_mintAt hsteps ((hkeep.values a).trans ha), hpledges, hstakes⟩
  rcases hend with rfl | helect
  · exact hloop
  · obtain ⟨e, n, he⟩ := electNominatedOfficialNFT_pools helect
    refine hloop.trans ⟨(electNominatedOfficialNFT_steps helect).view_eq hf.of_voteOnly, ?_, ?_⟩
    · rw [he]
    · rw [he]

theorem destroysNone_of_mintAny (hf : Untouched f) (h : Steps MintAny s t) (hs : DestroysNone f s) :
    DestroysNone f t := by
  refine h.forall_accounts (fun _ h => by cases h) ?_ hs
  rintro a o o' ((hnft | ⟨-, rfl⟩) | hvote) ho hsuicided
  · rw [hf.of_nftOnly hnft]
    obtain ⟨n, rfl⟩ := hnft
    exact ho hsuicided
  · exact hf.fresh _
  · rw [hf.of_voteOnly hvote]
    obtain ⟨v, rfl⟩ := hvote
    exact ho hsuicided

/-- An entry that a stake list keeps has an amount of its own. `AddStaker` keeps the caller's `*big.Int`
for an account it does not list yet and adds later amounts into it, and all CALLs without a value hand on
the same zero of the EVM. A top-up of a stake is the one operation that may do so without a value. -/
def Event.OwnAmount : Event → Prop
  | .call _ _ (.wormholes w) value => w.type = 21 → value ≠ 0
  | _ => True

/-- An operation of a block loses nothing of the field and leaves nothing undone in the list. -/
def KeepsQueued (f : StateObject → ℤ) (q : Pools → List PledgedToken) (c : Chain) (e : Event) : Prop :=
  match e with
  | .revert id => ∀ t, c.revertsTo id = some t → q c.db.pools = q t.pools
  | .finalise => DestroysNone f c.db
  | .finalizeBlock beneficiaries =>
    DestroysNone f c.db ∧ ∀ a ∈ upcoming c.number beneficiaries.length c.db.pools, view f c.db a = 0
  | e => OverwritesNone f e c.db

theorem overwritesNone_of_keepsQueued {q : Pools → List PledgedToken} (h : KeepsQueued f q c e) :
    OverwritesNone f e c.db := by
  cases e with
  | revert | finalise | finalizeBlock => trivial
  | _ => exact h

theorem overwritesNone_setNonce (hf : Untouched f) {a : Address} {n : ℕ}
    (h : OverwritesNone f e s) : OverwritesNone f e (s.setNonce a n) := by
  have hview : ∀ b, view f (s.setNonce a n) b = view f s b := (setNonce_steps s a n).view_eq hf.of_codeOnly
  unfold OverwritesNone at h ⊢
  split at h
  · rw [hview]
    exact h
  · rw [setNonce_pools, hview]
    exact h
  · rw [setNonce_pools, hview]
    exact h
  · trivial

/-! ## A pool of the chain -/

/-- An amount that is kept three times: in a field of the accounts, in a list of the block, and in a pool
of the chain into which each block folds its list. -/
structure Queue where
  field : StateObject → ℤ
  get : StateDB → Address → ℤ
  list : Pools → List PledgedToken
  fold : List Staked → List PledgedToken → List Staked
  stored : Chain → List Staked
  untouched : Untouched field
  get_eq : ∀ s a, get s a = view field s a
  list_eq : ∀ {p p' : Pools}, p'.pledgedTokenPool = p.pledgedTokenPool →
    p'.exchangerTokenPool = p.exchangerTokenPool → list p' = list p
  once_fold : ∀ {pool : List Staked}, StakedList.Once pool → ∀ l, StakedList.Once (fold pool l)
  fold_nil : ∀ pool, fold pool [] = pool
  frame : ∀ {K e c c'}, Chain.step K e c = some c' → (∀ bs, e ≠ .finalizeBlock bs) →
    stored c' = stored c
  stored_writeBlock : ∀ c db, stored (c.writeBlock db) = fold (stored c) (list db.pools)
  list_writeBlock : ∀ (c : Chain) db, list (c.writeBlock db).db.pools = []

namespace Queue

variable {Q : Queue} {pool : List Staked} {a : Address}

/-- The pool that the block's list would give now agrees with the accounts. -/
def InStep (Q : Queue) (pool : List Staked) (s : StateDB) : Prop :=
  ∀ a, StakedList.stakeBalance (Q.fold pool (Q.list s.pools)) a = Q.get s a

theorem InStep.of_eq (h : Q.InStep pool s) (hvalues : ∀ a, view Q.field t a = view Q.field s a)
    (hlist : Q.list t.pools = Q.list s.pools) : Q.InStep pool t := by
  intro a
  rw [hlist, Q.get_eq, hvalues a, ← Q.get_eq]
  exact h a

theorem InStep.leaves (h : Q.InStep pool s) (hl : Leaves Q.field s t) : Q.InStep pool t :=
  h.of_eq hl.values (Q.list_eq hl.pledges hl.stakes)

/-- What is queued and written to the account stays in step. -/
theorem InStep.add (hpool : StakedList.Once pool) (h : Q.InStep pool s) {x : ℤ}
    (hfold : Q.fold pool (Q.list t.pools) = StakedList.add (Q.fold pool (Q.list s.pools)) a x)
    (hvalues : ∀ b, Q.get t b = Q.get s b + if b = a then x else 0) : Q.InStep pool t := by
  intro b
  rw [hfold, hvalues b, StakedList.stakeBalance_add (Q.once_fold hpool _), h b]

/-- What holds along a chain that loses nothing of the field. -/
structure Inv (Q : Queue) (c : Chain) : Prop where
  savedOk : c.SavedOk
  once : StakedList.Once (Q.stored c)
  states : c.AllStates (Q.InStep (Q.stored c))

/-- At the genesis it is enough that the pool agrees with the accounts as they are made. -/
theorem Inv.genesis {g : Genesis} (hlist : Q.list g.chain.db.pools = [])
    (hliving : ∀ a o, g.toState.accounts a = some o → o.suicided = false)
    (h : StakedList.Once (Q.stored g.chain) ∧
      ∀ a, StakedList.stakeBalance (Q.stored g.chain) a = Q.get g.toState a) : Q.Inv g.chain := by
  refine ⟨trivial, h.1, fun a => ?_, fun p hp => by cases hp⟩
  rw [hlist, Q.fold_nil, h.2 a, Q.get_eq, Q.get_eq]
  show _ = view Q.field g.toState.finalise.reload a
  rw [view_reload Q.untouched, (leaves_finalise Q.untouched ?_).values]
  intro b o hb hsuicided
  cases (hliving b o hb).symm.trans hsuicided

/-- Every step that keeps what is queued keeps pool and accounts in step, if the payloads that write the
field do. -/
theorem Inv.step {c' : Chain} (hc : Q.Inv c) (hok : KeepsQueued Q.field Q.list c e)
    (h : Chain.step K e c = some c')
    (hstakes : ∀ {caller addr w value s t}, e = .call caller addr (.wormholes w) value → stakes w →
      (∀ a, view Q.field s a = view Q.field c.db a) → Handled K s c.number caller addr w value t →
        Q.InStep (Q.stored c) s → Q.InStep (Q.stored c) t) : Q.Inv c' := by
  have hsaved := Chain.step_savedOk h hc.savedOk
  by_cases hinner : ∃ bs, e = .finalizeBlock bs
  · obtain ⟨bs, rfl⟩ := hinner
    obtain ⟨db, hdb, rfl⟩ := Chain.step_finalizeBlock_inv h
    have hdestroys := destroysNone_of_mintAny Q.untouched (createNFTByOfficial16_steps hdb) hok.1
    have hfinal := (hc.states.1.leaves (leaves_createNFTByOfficial16 Q.untouched hok.2 hdb)).leaves
      (leaves_finalise Q.untouched hdestroys)
    refine ⟨hsaved, ?_, fun a => ?_, fun p hp => by cases hp⟩
    · rw [Q.stored_writeBlock]
      exact Q.once_fold hc.once _
    · rw [Q.list_writeBlock, Q.fold_nil, Q.stored_writeBlock, hfinal a, Q.get_eq, Q.get_eq]
      exact (view_reload Q.untouched _ a).symm
  have hne : ∀ bs, e ≠ .finalizeBlock bs := fun bs heq => hinner ⟨bs, heq⟩
  have hover := overwritesNone_of_keepsQueued hok
  have hpool := Q.frame h hne
  refine ⟨hsaved, hpool ▸ hc.once, ?_⟩
  rw [hpool]
  refine Chain.allStates_step
    (C := fun s => OverwritesNone Q.field e s ∧ ((∀ {caller addr value}, e ≠ .create caller addr value) →
      ∀ a, view Q.field s a = view Q.field c.db a)) h hc.savedOk hc.states
    (fun _ => ⟨hover, fun _ _ => rfl⟩) ⟨hover, fun _ _ => rfl⟩
    (fun n he => ⟨overwritesNone_setNonce Q.untouched hover, fun hne => absurd he hne⟩)
    (fun {s} hs => hs.of_eq (fun _ => rfl) rfl) ?_ ?_ ?_ ?_ hne
  · exact fun a n hs => hs.leaves (.of_steps (setNonce_steps _ a n) Q.untouched.of_codeOnly (by simp))
  · rintro s t heffect hs ⟨hC, hsame⟩
    by_cases hpayload : ∃ caller addr w value, e = .call caller addr (.wormholes w) value ∧ stakes w
    · obtain ⟨caller, addr, w, value, rfl, hw⟩ := hpayload
      cases heffect with
      | skip => exact hs
      | payload hpayload =>
        exact hstakes rfl hw (hsame fun heq => by cases heq) (handleNFT_inv hpayload) hs
    · exact hs.leaves (heffect.leaves Q.untouched (fun he hw => hpayload ⟨_, _, _, _, he, hw⟩) hC)
  · rintro id t u rfl hto ht hequiv hpools
    refine ht.of_eq (view_of_equiv Q.untouched hequiv) ?_
    rw [hpools]
    exact hok t hto
  · rintro rfl
    exact hc.states.1.leaves (leaves_finalise Q.untouched hok)

/-- After a block the stored pool gives each account its amount. -/
theorem Inv.after_block {ok : Chain → Event → Prop} {c₀ : Chain} {es : List Event} {bs : List Address}
    (hc : Q.Inv c) (hrun : Run (Chain.step K) ok c₀ (es ++ [.finalizeBlock bs]) c) (a : Address) :
    StakedList.stakeBalance (Q.stored c) a = Q.get c.db a := by
  have hagree := hc.states.1 a
  generalize hall : es ++ [.finalizeBlock bs] = all at hrun
  cases hrun with
  | nil => simp at hall
  | snoc _ _ hstep =>
    obtain ⟨-, heq⟩ := List.append_inj' hall rfl
    cases heq
    obtain ⟨db, -, rfl⟩ := Chain.step_finalizeBlock_inv hstep
    rwa [Q.list_writeBlock, Q.fold_nil] at hagree

end Queue

end Wormholes
