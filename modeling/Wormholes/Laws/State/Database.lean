import Wormholes.Laws.State.Steps

/-!
# Laws.State.Database — what the general state functions change

For each function of `State.Database`: which fields of which accounts it may rewrite, that it
leaves the pools alone, and the balance it sets. Later modules cite these and do not unfold the
functions again.
-/

namespace Wormholes

variable {β : Type} {f : StateObject → β}

namespace JournalEntry

variable {a : Address} {o o' : StateObject}

/-- An entry that writes one existing account back undoes a rewriting if its write-back does. -/
theorem restores_of_restore {e : JournalEntry} (f : StateObject → StateObject)
    (hrev : ∀ m, e.revert m = restore m a f)
    (hf : ∀ x : StateObject, x.normal = o'.normal → (f x).normal = o.normal) :
    e.Restores a o o' := by
  refine ⟨f, fun m x hx => ?_, hf⟩
  rw [hrev, restore, hx]

theorem restores_balance (b : ℤ) :
    (balanceChange a o.balance).Restores a o { o with balance := b } := by
  apply restores_of_restore _ fun _ => rfl
  simp +contextual [StateObject.normal]

theorem restores_nonce (n : ℕ) : (nonceChange a o.nonce).Restores a o { o with nonce := n } := by
  apply restores_of_restore _ fun _ => rfl
  simp +contextual [StateObject.normal]

theorem restores_code (c : GoString) : (codeChange a o.code).Restores a o { o with code := c } := by
  apply restores_of_restore _ fun _ => rfl
  simp +contextual [StateObject.normal]

theorem restores_storage (key value : ℕ) :
    (storageChange a key (o.storage key)).Restores a o
      { o with storage := fun k => if k = key then value else o.storage k } := by
  refine restores_of_restore _ (fun _ => rfl) fun x hx => ?_
  simp only [StateObject.normal, StateObject.mk.injEq] at hx ⊢
  have hstorage : (fun k => if k = key then o.storage key else x.storage k) = o.storage := by
    funext k
    rw [hx.2.2.2.1]
    by_cases hk : k = key
    · simp [hk]
    · simp [hk]
  exact ⟨hx.1, hx.2.1, hx.2.2.1, hstorage, hx.2.2.2.2⟩

theorem restores_suicide :
    (suicideChange a o.suicided o.balance).Restores a o { o with suicided := true, balance := 0 } := by
  refine ⟨fun x => { x with suicided := o.suicided, balance := o.balance }, fun m x hx => ?_,
    fun x hx => ?_⟩
  · simp [revert, hx]
  · simp only [StateObject.normal, StateObject.mk.injEq] at hx ⊢
    simp [hx]

theorem restores_pledged (p : ℤ) :
    (pledgedBalanceChange a (o.pledgedBalance.getD 0)).Restores a o
      { o with pledgedBalance := some p } := by
  apply restores_of_restore _ fun _ => rfl
  simp +contextual [StateObject.normal]

theorem restores_exchangerBalance (p : ℤ) :
    (exchangerBalanceChange a (o.exchangerBalance.getD 0)).Restores a o
      { o with exchangerBalance := some p } := by
  apply restores_of_restore _ fun _ => rfl
  simp +contextual [StateObject.normal]

theorem restores_voteWeight (p : ℤ) :
    (voteWeightChange a (o.voteWeight.getD 0)).Restores a o { o with voteWeight := some p } := by
  apply restores_of_restore _ fun _ => rfl
  simp +contextual [StateObject.normal]

theorem restores_approveList (l : List Address) :
    (nftApproveAddressChange a o.approveAddressList).Restores a o
      { o with approveAddressList := l } := by
  apply restores_of_restore _ fun _ => rfl
  simp +contextual [StateObject.normal]

theorem restores_exchangerInfo (flag : Bool) (block : Option ℕ) (fee : ℕ) (name url : GoString) :
    (openExchangerChange a o.exchangerFlag o.blockNumber o.feeRate o.exchangerName
      o.exchangerURL).Restores a o
      { o with
        exchangerFlag := flag, blockNumber := block, feeRate := fee, exchangerName := name,
        exchangerURL := url } := by
  apply restores_of_restore _ fun _ => rfl
  simp +contextual [StateObject.normal]

theorem restores_nftInfo (n : AccountNFT) :
    (nftInfoChange a o.nft).Restores a o { o with nft := n } := by
  apply restores_of_restore _ fun _ => rfl
  simp +contextual [StateObject.normal]

theorem restores_nftOwner (owner : Address) :
    (nftOwnerChange a o.nft.owner).Restores a o { o with nft := { o.nft with owner := owner } } := by
  apply restores_of_restore _ fun _ => rfl
  simp +contextual [StateObject.normal]

theorem restores_nftApprove (approved : Address) :
    (nftApproveAddressChangeOne a o.nft.nftApproveAddressList).Restores a o
      { o with nft := { o.nft with nftApproveAddressList := approved } } := by
  apply restores_of_restore _ fun _ => rfl
  simp +contextual [StateObject.normal]

end JournalEntry

namespace StateDB

open JournalEntry

/-! ## Kinds of rewriting -/

/-- Only the spendable balance changes. -/
def BalanceOnly (_ : Address) (o o' : StateObject) : Prop := ∃ b, o' = { o with balance := b }

/-- Only the pledge changes. -/
def PledgeOnly (_ : Address) (o o' : StateObject) : Prop := ∃ p, o' = { o with pledgedBalance := p }

/-- Only the exchanger stake changes. -/
def StakeOnly (_ : Address) (o o' : StateObject) : Prop := ∃ p, o' = { o with exchangerBalance := p }

/-- Only the vote weight changes. -/
def VoteOnly (_ : Address) (o o' : StateObject) : Prop := ∃ p, o' = { o with voteWeight := p }

/-- Only nonce, code and storage change. -/
def CodeOnly (_ : Address) (o o' : StateObject) : Prop :=
  ∃ n c st, o' = { o with nonce := n, code := c, storage := st }

/-- Only the NFT part changes. -/
def NFTOnly (_ : Address) (o o' : StateObject) : Prop := ∃ n, o' = { o with nft := n }

/-- A field is left alone. -/
def Keeps {β : Type} (f : StateObject → β) (_ : Address) (o o' : StateObject) : Prop := f o' = f o

theorem keeps_of_balanceOnly {a : Address} {o o' : StateObject} (h : BalanceOnly a o o')
    (hf : ∀ b, f { o with balance := b } = f o) : Keeps f a o o' := by
  obtain ⟨b, rfl⟩ := h
  exact hf b

theorem keeps_of_pledgeOnly {a : Address} {o o' : StateObject} (h : PledgeOnly a o o')
    (hf : ∀ p, f { o with pledgedBalance := p } = f o) : Keeps f a o o' := by
  obtain ⟨p, rfl⟩ := h
  exact hf p

theorem keeps_of_codeOnly {a : Address} {o o' : StateObject} (h : CodeOnly a o o')
    (hf : ∀ n c st, f { o with nonce := n, code := c, storage := st } = f o) :
    Keeps f a o o' := by
  obtain ⟨n, c, st, rfl⟩ := h
  exact hf n c st

/-! ## Making and finding accounts -/

section

variable {P : Address → StateObject → StateObject → Prop} (s : StateDB) (a : Address)
variable (e : JournalEntry)

@[simp] theorem change_pools (o : StateObject) : (s.change e a o).pools = s.pools := rfl

@[simp] theorem change_accounts (o : StateObject) :
    (s.change e a o).accounts = s.accounts.set a (some o) := rfl

@[simp] theorem append_pools : (s.append e).pools = s.pools := rfl

@[simp] theorem view_append (f : StateObject → β) (e : JournalEntry) (b : Address) :
    view f (s.append e) b = view f s b := rfl

theorem createObject_of_none (h : s.getStateObject a = none) :
    s.createObject a = s.change (.createObjectChange a) a .fresh := by
  simp [createObject, h]

@[simp] theorem getOrNewStateObject_pools : (s.getOrNewStateObject a).1.pools = s.pools := by
  unfold getOrNewStateObject
  split
  · rfl
  next h => simp [createObject_of_none s a h]

theorem getOrNewStateObject_found : (s.getOrNewStateObject a).1.accounts a = some (s.getOrNewStateObject a).2 := by
  unfold getOrNewStateObject
  split
  next o h => exact h
  next h => simp [createObject, h]

theorem getOrNewStateObject_steps : Steps P s (s.getOrNewStateObject a).1 := by
  unfold getOrNewStateObject
  split
  · exact .refl s
  next h =>
    rw [createObject_of_none s a h]
    exact .create (.refl s) h

theorem getOrNewStateObject_accounts_of_some {b : Address} {o : StateObject}
    (h : s.accounts b = some o) : (s.getOrNewStateObject a).1.accounts b = some o := by
  unfold getOrNewStateObject
  split
  · exact h
  next hnone =>
    have hne : b ≠ a := by
      rintro rfl
      rw [getStateObject, h] at hnone
      cases hnone
    rw [createObject_of_none s a hnone, change_accounts, Accounts.set_of_ne _ _ hne]
    exact h

/-- Looking an account up does not change what is found elsewhere or in a field. -/
theorem view_getOrNewStateObject (f : StateObject → β) (b : Address) :
    view f (s.getOrNewStateObject a).1 b = view f s b :=
  (getOrNewStateObject_steps s a (P := fun _ _ _ => False)).view_eq (fun h => h.elim) b

theorem field_getOrNewStateObject (f : StateObject → β) :
    f (s.getOrNewStateObject a).2 = view f s a := by
  rw [← view_getOrNewStateObject s a, view_of_some f (getOrNewStateObject_found s a)]

@[simp] theorem createAccount_pools : (s.createAccount a).pools = s.pools := by
  unfold createAccount createObject
  split
  · rfl
  · rfl

/-- A fresh account keeps the balance and nothing else. -/
theorem createAccount_steps (hP : ∀ o, P a o { StateObject.fresh with balance := o.balance }) :
    Steps P s (s.createAccount a) := by
  unfold createAccount
  split
  next h =>
    simp only [createObject, h]
    exact .create (.refl s) h
  next prev h =>
    have heq : ({ s.createObject a with
          accounts := (s.createObject a).accounts.set a
            (some { StateObject.fresh with balance := prev.balance }) } : StateDB) =
        s.change (.resetObjectChange a prev) a { StateObject.fresh with balance := prev.balance } := by
      have hset : ∀ m : Accounts, ∀ x y : Option StateObject, (m.set a x).set a y = m.set a y := by
        intro m x y
        funext b
        by_cases hb : b = a
        · simp [Accounts.set, hb]
        · simp [Accounts.set, hb]
      simp only [createObject, h, change, hset]
    rw [heq]
    exact .reset (.refl s) h (hP prev)

/-- The account of an address, made if there is none. -/
theorem ensure_steps : Steps P s (if s.exist a then s else s.createAccount a) := by
  split
  · exact .refl s
  next hexist =>
    have hnone : s.getStateObject a = none := by simpa [exist] using hexist
    unfold createAccount
    rw [hnone]
    simp only [createObject_of_none s a hnone]
    exact .create (.refl s) hnone

theorem ensure_pools : (if s.exist a then s else s.createAccount a : StateDB).pools = s.pools := by
  split
  · rfl
  · exact createAccount_pools s a

theorem createAccount_found : ∃ b, (s.createAccount a).accounts a = some { StateObject.fresh with balance := b } := by
  unfold createAccount
  split
  next h => exact ⟨0, by simp [createObject, h, StateObject.fresh]⟩
  next prev h => exact ⟨prev.balance, Accounts.set_self _ _ _⟩

end

/-! ## Setters -/

section

variable {P : Address → StateObject → StateObject → Prop} (s : StateDB) (a : Address)
variable (x : ℤ) (b : Address)
variable {t : StateDB}

/-- A setter: the account is looked up, made if absent, and rewritten. -/
theorem getOrNewStateObject_change_steps {e : StateObject → JournalEntry}
    {g : StateObject → StateObject} (he : ∀ o, (e o).Restores a o (g o)) (hP : ∀ o, P a o (g o)) :
    Steps P s ((s.getOrNewStateObject a).1.change (e (s.getOrNewStateObject a).2) a
      (g (s.getOrNewStateObject a).2)) :=
  .rewrite (getOrNewStateObject_steps s a) (getOrNewStateObject_found s a) (he _) (hP _)

theorem addBalance_steps : Steps BalanceOnly s (s.addBalance a x) := by
  simp only [addBalance]
  split_ifs
  · exact .touch a (getOrNewStateObject_steps s a)
  · exact getOrNewStateObject_steps s a
  · exact getOrNewStateObject_change_steps s a (fun o => restores_balance _) fun o => ⟨_, rfl⟩

theorem subBalance_steps : Steps BalanceOnly s (s.subBalance a x) := by
  show Steps BalanceOnly s (if x = 0 then _ else _)
  split
  · exact getOrNewStateObject_steps s a
  · exact getOrNewStateObject_change_steps s a (fun o => restores_balance _) fun o => ⟨_, rfl⟩

theorem transfer_steps (x : ℕ) : Steps BalanceOnly s (s.transfer a b x) :=
  (subBalance_steps s a x).trans (addBalance_steps _ b x)

theorem addPledgedBalance_steps : Steps PledgeOnly s (s.addPledgedBalance a x) := by
  show Steps PledgeOnly s (if x = 0 then _ else _)
  split
  · exact getOrNewStateObject_steps s a
  · exact getOrNewStateObject_change_steps s a (fun o => restores_pledged _) fun o => ⟨_, rfl⟩

theorem subPledgedBalance_steps {x : ℤ} (h : s.subPledgedBalance a x = some t) :
    Steps PledgeOnly s t := by
  simp only [subPledgedBalance] at h
  split at h
  · cases h
    exact getOrNewStateObject_steps s a
  · split at h
    · cases h
    next p hp =>
      cases h
      exact getOrNewStateObject_change_steps s a (fun o => restores_pledged _) fun o => ⟨_, rfl⟩

theorem setExchangerBalance_steps {o : StateObject} (h : s.accounts a = some o) (x : ℤ) :
    Steps StakeOnly s (s.setExchangerBalance a o x) :=
  .rewrite (.refl s) h (restores_exchangerBalance x) ⟨_, rfl⟩

theorem addExchangerBalance_steps {x : ℤ} (h : s.addExchangerBalance a x = some t) :
    Steps StakeOnly s t := by
  simp only [addExchangerBalance] at h
  split at h
  · cases h
    exact getOrNewStateObject_steps s a
  · split at h
    · cases h
    next p hp =>
      cases h
      exact (getOrNewStateObject_steps s a).trans
        (setExchangerBalance_steps _ a (getOrNewStateObject_found s a) _)

theorem addVoteWeight_steps {x : ℤ} (h : s.addVoteWeight a x = some t) : Steps VoteOnly s t := by
  simp only [addVoteWeight] at h
  split at h
  · cases h
    exact getOrNewStateObject_steps s a
  · split at h
    · cases h
    next p hp =>
      cases h
      exact getOrNewStateObject_change_steps s a (fun o => restores_voteWeight _) fun o => ⟨_, rfl⟩

theorem setNonce_steps (n : ℕ) : Steps CodeOnly s (s.setNonce a n) :=
  getOrNewStateObject_change_steps s a (fun _ => restores_nonce n) fun o =>
    ⟨n, o.code, o.storage, rfl⟩

theorem setCode_steps (c : GoString) : Steps CodeOnly s (s.setCode a c) :=
  getOrNewStateObject_change_steps s a (fun _ => restores_code c) fun o =>
    ⟨o.nonce, c, o.storage, rfl⟩

theorem setState_steps (key value : ℕ) : Steps CodeOnly s (s.setState a key value) := by
  simp only [setState]
  split_ifs
  · exact getOrNewStateObject_steps s a
  · exact getOrNewStateObject_change_steps s a (fun _ => restores_storage key value) fun o =>
      ⟨o.nonce, o.code, _, rfl⟩

theorem suicide_steps (hP : ∀ o : StateObject, P a o { o with suicided := true, balance := 0 }) :
    Steps P s (s.suicide a) := by
  unfold suicide
  split
  · exact .refl s
  next o h => exact .rewrite (.refl s) h restores_suicide (hP o)

/-! ## Pools -/

@[simp] theorem addBalance_pools : (s.addBalance a x).pools = s.pools := by
  simp only [addBalance]
  split_ifs
  all_goals exact getOrNewStateObject_pools s a

@[simp] theorem subBalance_pools : (s.subBalance a x).pools = s.pools := by
  show (if x = 0 then _ else _ : StateDB).pools = _
  split
  all_goals exact getOrNewStateObject_pools s a

@[simp] theorem transfer_pools (x : ℕ) : (s.transfer a b x).pools = s.pools := by
  simp [transfer]

@[simp] theorem addPledgedBalance_pools : (s.addPledgedBalance a x).pools = s.pools := by
  show (if x = 0 then _ else _ : StateDB).pools = _
  split
  all_goals exact getOrNewStateObject_pools s a

theorem subPledgedBalance_pools {x : ℤ} (h : s.subPledgedBalance a x = some t) :
    t.pools = s.pools := by
  simp only [subPledgedBalance] at h
  split at h
  · cases h
    exact getOrNewStateObject_pools s a
  · split at h
    · cases h
    · cases h
      exact getOrNewStateObject_pools s a

theorem addExchangerBalance_pools {x : ℤ} (h : s.addExchangerBalance a x = some t) :
    t.pools = s.pools := by
  simp only [addExchangerBalance] at h
  split at h
  · cases h
    exact getOrNewStateObject_pools s a
  · split at h
    · cases h
    · cases h
      exact getOrNewStateObject_pools s a

theorem addVoteWeight_pools {x : ℤ} (h : s.addVoteWeight a x = some t) : t.pools = s.pools := by
  simp only [addVoteWeight] at h
  split at h
  · cases h
    exact getOrNewStateObject_pools s a
  · split at h
    · cases h
    · cases h
      exact getOrNewStateObject_pools s a

@[simp] theorem setNonce_pools (n : ℕ) : (s.setNonce a n).pools = s.pools :=
  getOrNewStateObject_pools s a

@[simp] theorem setCode_pools (c : GoString) : (s.setCode a c).pools = s.pools :=
  getOrNewStateObject_pools s a

@[simp] theorem setState_pools (key value : ℕ) : (s.setState a key value).pools = s.pools := by
  simp only [setState]
  split_ifs
  all_goals exact getOrNewStateObject_pools s a

@[simp] theorem suicide_pools : (s.suicide a).pools = s.pools := by
  unfold suicide
  split
  · rfl
  · rfl

/-! ## Values -/

theorem getBalance_eq_view : s.getBalance a = view StateObject.balance s a := by
  unfold getBalance view getStateObject
  cases s.accounts a with
  | none => rfl
  | some o => rfl

/-- The pledge of an account; an absent one is zero. -/
def pledge (o : StateObject) : ℤ := o.pledgedBalance.getD 0

/-- The exchanger stake of an account; an absent one is zero. -/
def stake (o : StateObject) : ℤ := o.exchangerBalance.getD 0

theorem getPledgedBalance_eq_view : s.getPledgedBalance a = view pledge s a := by
  unfold getPledgedBalance view getStateObject
  cases s.accounts a with
  | none => rfl
  | some o => rfl

theorem getExchangerBalance_eq_view : s.getExchangerBalance a = view stake s a := by
  unfold getExchangerBalance view getStateObject
  cases s.accounts a with
  | none => rfl
  | some o => rfl

theorem getBalance_addBalance :
    (s.addBalance a x).getBalance b = s.getBalance b + if b = a then x else 0 := by
  simp only [getBalance_eq_view, addBalance, setBalance]
  split_ifs with hx hempty hb hb hb
  · subst hx; simpa using view_getOrNewStateObject s a StateObject.balance b
  · simpa using view_getOrNewStateObject s a StateObject.balance b
  · subst hx; simpa using view_getOrNewStateObject s a StateObject.balance b
  · simpa using view_getOrNewStateObject s a StateObject.balance b
  · subst hb
    rw [view_change_self, ← field_getOrNewStateObject s b]
  · rw [view_change_of_ne _ _ _ _ hb, view_getOrNewStateObject, add_zero]

theorem getBalance_subBalance :
    (s.subBalance a x).getBalance b = s.getBalance b - if b = a then x else 0 := by
  simp only [getBalance_eq_view, subBalance, setBalance]
  split_ifs with hx hb hb
  · subst hx; simpa using view_getOrNewStateObject s a StateObject.balance b
  · simpa using view_getOrNewStateObject s a StateObject.balance b
  · subst hb
    rw [view_change_self, ← field_getOrNewStateObject s b]
  · rw [view_change_of_ne _ _ _ _ hb, view_getOrNewStateObject, sub_zero]

theorem getPledgedBalance_addPledgedBalance : (s.addPledgedBalance a x).getPledgedBalance b =
      s.getPledgedBalance b + if b = a then x else 0 := by
  simp only [getPledgedBalance_eq_view, addPledgedBalance, setPledgedBalance]
  split_ifs with hx hb hb
  · subst hx; simpa using view_getOrNewStateObject s a pledge b
  · simpa using view_getOrNewStateObject s a pledge b
  · subst hb
    rw [view_change_self, ← field_getOrNewStateObject s b]
    rfl
  · rw [view_change_of_ne _ _ _ _ hb, view_getOrNewStateObject, add_zero]

theorem getPledgedBalance_subPledgedBalance {x : ℤ} (h : s.subPledgedBalance a x = some t)
    (b : Address) :
    t.getPledgedBalance b = s.getPledgedBalance b - if b = a then x else 0 := by
  simp only [subPledgedBalance, setPledgedBalance] at h
  simp only [getPledgedBalance_eq_view]
  split at h
  next hx =>
    cases h
    simpa [hx] using view_getOrNewStateObject s a pledge b
  · split at h
    · cases h
    next p hp =>
      cases h
      by_cases hb : b = a
      · subst hb
        rw [view_change_self, ← field_getOrNewStateObject s b]
        simp [pledge, hp]
      · rw [view_change_of_ne _ _ _ _ hb, view_getOrNewStateObject, if_neg hb, sub_zero]

theorem getExchangerBalance_addExchangerBalance {x : ℤ} (h : s.addExchangerBalance a x = some t)
    (b : Address) :
    t.getExchangerBalance b = s.getExchangerBalance b + if b = a then x else 0 := by
  simp only [addExchangerBalance, setExchangerBalance] at h
  simp only [getExchangerBalance_eq_view]
  split at h
  next hx =>
    cases h
    simpa [hx] using view_getOrNewStateObject s a stake b
  · split at h
    · cases h
    next p hp =>
      cases h
      by_cases hb : b = a
      · subst hb
        rw [view_change_self, ← field_getOrNewStateObject s b]
        simp [stake, hp]
      · rw [view_change_of_ne _ _ _ _ hb, view_getOrNewStateObject, if_neg hb, add_zero]

end

/-! ## Values kept -/

section

variable {P : Address → StateObject → StateObject → Prop} {s t : StateDB}

theorem Steps.getBalance_eq (h : Steps P s t) (hP : ∀ {a o o'}, P a o o' → Keeps StateObject.balance a o o')
    (b : Address) : t.getBalance b = s.getBalance b := by
  rw [getBalance_eq_view, getBalance_eq_view]
  exact h.view_eq hP b

theorem Steps.getPledgedBalance_eq (h : Steps P s t) (hP : ∀ {a o o'}, P a o o' → Keeps pledge a o o')
    (b : Address) : t.getPledgedBalance b = s.getPledgedBalance b := by
  rw [getPledgedBalance_eq_view, getPledgedBalance_eq_view]
  exact h.view_eq hP b

theorem Steps.getExchangerBalance_eq (h : Steps P s t) (hP : ∀ {a o o'}, P a o o' → Keeps stake a o o')
    (b : Address) : t.getExchangerBalance b = s.getExchangerBalance b := by
  rw [getExchangerBalance_eq_view, getExchangerBalance_eq_view]
  exact h.view_eq hP b

end

/-! ## Finalisation -/

/-- The approved address of an NFT has twenty bytes, so no account is empty. -/
theorem never_empty (o : StateObject) : o.empty = false := by
  simp [StateObject.empty, StateObject.nftApproveAddressLen]

theorem accounts_finalise (s : StateDB) (a : Address) :
    s.finalise.accounts a = (s.accounts a).filter fun o => !o.suicided := by
  simp only [finalise]
  cases s.accounts a with
  | none => rfl
  | some o =>
    rw [Option.filter_some]
    cases hsuicided : o.suicided <;> simp [hsuicided, never_empty]

theorem accounts_of_finalise {s : StateDB} {a : Address} {o : StateObject}
    (h : s.finalise.accounts a = some o) : s.accounts a = some o := by
  rw [accounts_finalise, Option.filter_eq_some_iff] at h
  exact h.1

end StateDB

end Wormholes
