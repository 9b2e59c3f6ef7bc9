import Wormholes.Laws.State.Database

/-!
# Laws.State.Nft — what the NFT functions can change

Lookups change nothing. Splits, merges and changes of owner rewrite NFT parts only and leave the
pools alone; an exchange also pays, a mint also writes an account anew at the minted address.
-/

namespace Wormholes

namespace StateDB

open JournalEntry

variable {H : Hasher}
variable {a nftAddr newOwner address nftaddress owner : Address} {o : StateObject}
  {info : InjectedInfo} {level blocknumber : ℕ} {store : AccountNFT} {owners : List Address}
variable {b child storeAddr : Address} {calls i : ℕ} {α : Type} {I : StateDB → Prop} {full : Bool}
variable {s t u : StateDB}

/-! ## Writes of NFT parts -/

/-- Rewritings that `P` allows, with the pools left alone. -/
structure PartWrite (P : Address → StateObject → StateObject → Prop) (s t : StateDB) : Prop where
  steps : Steps P s t
  pools : t.pools = s.pools

/-- What a change of owner, a split or a merge can do. -/
abbrev NFTWrite : StateDB → StateDB → Prop := PartWrite NFTOnly

/-- `P` allows whatever the NFT functions write: a part whose merge level leaves an official
address' text a digit, a new owner, a new approved address. -/
structure AllowsParts (P : Address → StateObject → StateObject → Prop) : Prop where
  info : ∀ {a o} {i : AccountNFT}, (isOfficialNFT a = true → i.mergeLevel ≤ 39) →
    P a o { o with nft := i }
  owner : ∀ {a o} (w : Address), P a o { o with nft := { o.nft with owner := w } }
  approve : ∀ {a o} (x : Address), P a o { o with nft := { o.nft with nftApproveAddressList := x } }

theorem allowsParts_nftOnly : AllowsParts NFTOnly where
  info _ := ⟨_, rfl⟩
  owner _ := ⟨_, rfl⟩
  approve _ := ⟨_, rfl⟩

section PartWrite

variable {P : Address → StateObject → StateObject → Prop} {s t u : StateDB}

theorem PartWrite.refl (s : StateDB) : PartWrite P s s := ⟨.refl s, rfl⟩

theorem PartWrite.trans (h : PartWrite P s t) (h' : PartWrite P t u) : PartWrite P s u :=
  ⟨h.steps.trans h'.steps, h'.pools.trans h.pools⟩

theorem getOrNewStateObject_partWrite (s : StateDB) (a : Address) :
    PartWrite P s (s.getOrNewStateObject a).1 :=
  ⟨getOrNewStateObject_steps s a, getOrNewStateObject_pools s a⟩

theorem setNFTInfo_partWrite (hP : AllowsParts P) (h : s.accounts a = some o) {info : AccountNFT}
    (hlevel : isOfficialNFT a = true → info.mergeLevel ≤ 39) :
    PartWrite P s (s.setNFTInfo a o info) :=
  ⟨.rewrite (.refl s) h (restores_nftInfo info) (hP.info hlevel), rfl⟩

theorem putNFTInfo_partWrite (hP : AllowsParts P) {info : AccountNFT}
    (hlevel : isOfficialNFT a = true → info.mergeLevel ≤ 39) :
    PartWrite P s (s.putNFTInfo a info) :=
  (getOrNewStateObject_partWrite s a).trans
    (setNFTInfo_partWrite hP (getOrNewStateObject_found s a) hlevel)

theorem cleanNFT_partWrite (hP : AllowsParts P) (h : s.accounts a = some o) :
    PartWrite P s (s.cleanNFT a o) :=
  setNFTInfo_partWrite hP h fun _ => Nat.zero_le _

theorem changeObjectOwner_partWrite (hP : AllowsParts P) (h : s.accounts a = some o)
    (newOwner : Address) : PartWrite P s (s.changeObjectOwner a o newOwner) := by
  unfold changeObjectOwner
  split
  · exact .refl s
  · refine ⟨.rewrite (.rewrite (.refl s) h (restores_nftOwner newOwner) (hP.owner newOwner)) ?_
      (restores_nftApprove 0) (hP.approve 0), rfl⟩
    exact Accounts.set_self _ _ _

/-! ## Merge -/

theorem cleanAll_partWrite (hP : AllowsParts P) {l : List Address} (h : s.cleanAll l = some t) :
    PartWrite P s t := by
  induction l generalizing s with
  | nil =>
    cases h
    exact .refl _
  | cons a rest ih =>
    rw [cleanAll] at h
    split at h
    · cases h
    next o ho => exact (cleanNFT_partWrite hP ho).trans (ih h)

/-- The address a merge writes at is official only if its level leaves the text a digit. -/
theorem level_le_of_parentDigits {digits : GoString} (h : parentDigits H a level = some digits)
    (hoff : isOfficialNFT (mergedAddr digits) = true) : (level + 1) % 256 ≤ 39 := by
  unfold parentDigits at h
  split at h
  next hle =>
    cases h
    by_contra hcon
    have hforty : (level + 1) % 256 = 40 := by omega
    rw [hforty, Nat.sub_self, List.take_zero] at hoff
    exact absurd hoff (by decide)
  · cases h

theorem mergeOnce_partWrite (hP : AllowsParts P) (h : s.mergeOnce H a o = some (t, b)) :
    PartWrite P s t := by
  unfold mergeOnce at h
  split at h
  · cases h
  next digits hdigits =>
    split at h
    · cases h
    next s' hclean =>
      simp only at h
      split at h
      · cases h
      · cases h
        exact (cleanAll_partWrite hP hclean).trans
          (putNFTInfo_partWrite hP fun hoff => level_le_of_parentDigits hdigits hoff)

/-- A call of the walk ends it, or merges once and goes on at the parent. -/
theorem mergeWalk_inv (h : mergeWalk H (calls + 1) s a = some t) :
    (s.isCanMergeNFT16 H a = some false ∧ s = t) ∨
      ∃ o u b, s.accounts a = some o ∧ s.isCanMergeNFT16 H a = some true ∧
        s.mergeOnce H a o = some (u, b) ∧ mergeWalk H calls u b = some t := by
  rw [mergeWalk] at h
  split at h
  · cases h
  next hcan => exact Or.inl ⟨hcan, Option.some.inj h⟩
  next hcan =>
    split at h
    · cases h
    next o ho =>
      split at h
      · cases h
      next u b hmerge => exact Or.inr ⟨o, u, b, ho, hcan, hmerge, h⟩

theorem mergeNFT16_partWrite (hP : AllowsParts P) (h : s.mergeNFT16 H a = some t) :
    PartWrite P s t := by
  unfold mergeNFT16 at h
  generalize 64 = calls at h
  induction calls generalizing s a with
  | zero => cases h
  | succ calls ih =>
    rcases mergeWalk_inv h with ⟨-, rfl⟩ | ⟨o, u, b, -, -, hmerge, hrest⟩
    · exact .refl _
    · exact (mergeOnce_partWrite hP hmerge).trans (ih hrest)

/-! ## Split -/

theorem foldlM_partWrite {f : StateDB → α → Option StateDB}
    (hf : ∀ {s t x}, f s x = some t → PartWrite P s t) {l : List α} (h : l.foldlM f s = some t) :
    PartWrite P s t := by
  induction l generalizing s with
  | nil =>
    cases h
    exact .refl _
  | cons x rest ih =>
    rw [List.foldlM_cons] at h
    obtain ⟨s', hs', hrest⟩ := Option.bind_eq_some_iff.mp h
    exact (hf hs').trans (ih hrest)

theorem splitPut_partWrite (hP : AllowsParts P) (hlevel : level ≤ 39)
    (h : splitPut H store level s child = some t) : PartWrite P s t := by
  unfold splitPut at h
  split at h
  · cases h
  · cases h
    exact putNFTInfo_partWrite hP fun _ => hlevel

theorem splitRow_partWrite (hP : AllowsParts P) (hstore : store.mergeLevel ≤ 40)
    (h : splitRow H storeAddr nftAddr store s i = some t) : PartWrite P s t :=
  foldlM_partWrite (fun h => splitPut_partWrite hP (by omega) h) h

/-- The lookup finds NFTs up to its depth limit. -/
theorem level_le_of_storeWalk {depth : ℕ} {S O : Address}
    (h : storeWalk H s calls a depth = some (S, O)) (ho : s.getStateObject S = some o) :
    o.nft.mergeLevel ≤ queryDepthLimit16 := by
  induction calls generalizing a depth with
  | zero => cases h
  | succ calls ih =>
    rw [storeWalk] at h
    split at h
    · cases h
    next hdepth =>
      split at h
      · cases h
      next o' ho' =>
        split at h
        next hfound =>
          cases h
          cases ho'.symm.trans ho
          omega
        · exact ih h

theorem splitNFT16_partWrite (hP : AllowsParts P) (h : s.splitNFT16 H a level = some t) :
    PartWrite P s t := by
  unfold splitNFT16 at h
  split at h
  · cases h
    exact .refl s
  next S O hstore =>
    split at h
    · cases h
    next store hobj =>
      have hlevel := level_le_of_storeWalk hstore hobj
      split at h
      · cases h
        exact .refl s
      · split at h
        · cases h
          exact .refl s
        · refine foldlM_partWrite (fun h => splitRow_partWrite hP ?_ h) h
          exact hlevel.trans (by decide)

/-! ## Change of owner -/

/-- A change of owner is: find the account, split, write the owner, merge. -/
theorem changeNFTOwner_inv (h : s.changeNFTOwner H nftAddr newOwner level = some t) :
    ∃ s₁ : StateDB,
      (if isOfficialNFT nftAddr then
        splitNFT16 H (s.getOrNewStateObject nftAddr).1 nftAddr level = some s₁
      else (s.getOrNewStateObject nftAddr).1 = s₁) ∧
      let s₂ := (s₁.getOrNewStateObject nftAddr).1.changeObjectOwner nftAddr
        (s₁.getOrNewStateObject nftAddr).2 newOwner
      if isOfficialNFT nftAddr then s₂.mergeNFT16 H nftAddr = some t else s₂ = t := by
  simp only [changeNFTOwner] at h
  split at h
  · cases h
  next s₁ hs₁ =>
    refine ⟨s₁, ?_, ?_⟩
    · by_cases hoff : isOfficialNFT nftAddr = true
      · simpa [hoff] using hs₁
      · simpa [hoff] using hs₁
    · by_cases hoff : isOfficialNFT nftAddr = true
      · simpa [hoff] using h
      · simpa [hoff] using h

theorem changeNFTOwner_partWrite (hP : AllowsParts P)
    (h : s.changeNFTOwner H nftAddr newOwner level = some t) : PartWrite P s t := by
  obtain ⟨s₁, hsplit, hmerge⟩ := changeNFTOwner_inv h
  have h₁ : PartWrite P s s₁ := by
    split at hsplit
    · exact (getOrNewStateObject_partWrite s nftAddr).trans (splitNFT16_partWrite hP hsplit)
    · exact hsplit ▸ getOrNewStateObject_partWrite s nftAddr
  have h₂ := (getOrNewStateObject_partWrite s₁ nftAddr).trans
    (changeObjectOwner_partWrite hP (getOrNewStateObject_found s₁ nftAddr) newOwner)
  simp only at hmerge
  split at hmerge
  · exact h₁.trans (h₂.trans (mergeNFT16_partWrite hP hmerge))
  · exact h₁.trans (hmerge ▸ h₂)

end PartWrite

/-! ## The writes as rewritings of NFT parts alone -/

section NFTWrite

variable {s t : StateDB}

theorem setNFTInfo_nftWrite (h : s.accounts a = some o) (info : AccountNFT) :
    NFTWrite s (s.setNFTInfo a o info) :=
  ⟨.rewrite (.refl s) h (restores_nftInfo info) ⟨info, rfl⟩, rfl⟩

theorem putNFTInfo_nftWrite (s : StateDB) (a : Address) (info : AccountNFT) :
    NFTWrite s (s.putNFTInfo a info) :=
  (getOrNewStateObject_partWrite s a).trans
    (setNFTInfo_nftWrite (getOrNewStateObject_found s a) info)

theorem changeObjectOwner_nftWrite (h : s.accounts a = some o) (newOwner : Address) :
    NFTWrite s (s.changeObjectOwner a o newOwner) :=
  changeObjectOwner_partWrite allowsParts_nftOnly h newOwner

theorem mergeNFT16_nftWrite (h : s.mergeNFT16 H a = some t) : NFTWrite s t :=
  mergeNFT16_partWrite allowsParts_nftOnly h

theorem splitPut_nftWrite (h : splitPut H store level s child = some t) : NFTWrite s t := by
  unfold splitPut at h
  split at h
  · cases h
  · cases h
    exact putNFTInfo_nftWrite _ _ _

theorem splitRow_nftWrite (h : splitRow H storeAddr nftAddr store s i = some t) : NFTWrite s t :=
  foldlM_partWrite (fun h => splitPut_nftWrite h) h

theorem splitNFT16_nftWrite (h : s.splitNFT16 H a level = some t) : NFTWrite s t :=
  splitNFT16_partWrite allowsParts_nftOnly h

theorem changeNFTOwner_nftWrite (h : s.changeNFTOwner H nftAddr newOwner level = some t) :
    NFTWrite s t :=
  changeNFTOwner_partWrite allowsParts_nftOnly h

end NFTWrite

variable {P : Address → StateObject → StateObject → Prop}

/-! ## Exchange -/

/-- The queue entry an exchange appends for the account it finds. -/
def exchangeEntry (H : Hasher) (nftaddress : Address) (o : StateObject) (blocknumber : ℕ) :
    SNFTExchange :=
  { nftAddress := nftaddress, mergeLevel := o.nft.mergeLevel, currentMintAddress := nftaddress,
    blockNumber := blocknumber, metalUrl := o.nft.metaURL, royalty := o.nft.royalty,
    creator := o.nft.creator.string H }

/-- The state with one more entry in the exchange queue. -/
def enqueue (s : StateDB) (e : SNFTExchange) : StateDB :=
  { s with pools := { s.pools with snftExchangePool := s.pools.snftExchangePool ++ [e] } }

theorem enqueue_steps (s : StateDB) (e : SNFTExchange) : Steps P s (s.enqueue e) :=
  .pools _ (.refl s)

/-- An exchange is: split, queue the entry, clean the NFT, pay. -/
theorem exchangeNFTToCurrency_inv
    (h : s.exchangeNFTToCurrency H address nftaddress blocknumber level = some t) :
    ∃ s₁, s.splitNFT16 H nftaddress level = some s₁ ∧
      let s₂ := (s₁.getOrNewStateObject nftaddress).1
      let o := (s₁.getOrNewStateObject nftaddress).2
      let s₃ := (s₂.getOrNewStateObject address).1
      s₃.accounts nftaddress = some o ∧
      t = ((s₃.enqueue (exchangeEntry H nftaddress o blocknumber)).cleanNFT nftaddress o).addBalance
        address (calculateExchangeAmount o.nft.mergeLevel) := by
  simp only [exchangeNFTToCurrency] at h
  split at h
  · cases h
  next s₁ hs₁ =>
    refine ⟨s₁, hs₁, ?_, (Option.some.inj h).symm⟩
    exact getOrNewStateObject_accounts_of_some _ address (getOrNewStateObject_found s₁ nftaddress)

theorem exchangeNFTToCurrency_allowed (hP : AllowsParts P)
    (hbalance : ∀ {a o b}, P a o { o with balance := b })
    (h : s.exchangeNFTToCurrency H address nftaddress blocknumber level = some t) :
    Steps P s t := by
  obtain ⟨s₁, hsplit, hfound, rfl⟩ := exchangeNFTToCurrency_inv h
  have h₁ := ((splitNFT16_partWrite hP hsplit).trans
    (getOrNewStateObject_partWrite s₁ nftaddress)).trans (getOrNewStateObject_partWrite _ address)
  have hqueue := h₁.steps.trans
    (enqueue_steps _ (exchangeEntry H nftaddress (s₁.getOrNewStateObject nftaddress).2 blocknumber))
  refine (hqueue.trans (cleanNFT_partWrite hP (s := enqueue _ _) hfound).steps).trans
    ((addBalance_steps _ _ _).mono ?_)
  rintro a o o' ⟨b, rfl⟩
  exact hbalance

/-- An NFT part or a balance changes. -/
def NFTOrBalance (a : Address) (o o' : StateObject) : Prop := NFTOnly a o o' ∨ BalanceOnly a o o'

theorem exchangeNFTToCurrency_steps
    (h : s.exchangeNFTToCurrency H address nftaddress blocknumber level = some t) :
    Steps NFTOrBalance s t :=
  exchangeNFTToCurrency_allowed
    ⟨fun _ => Or.inl ⟨_, rfl⟩, fun _ => Or.inl ⟨_, rfl⟩, fun _ => Or.inl ⟨_, rfl⟩⟩
    (Or.inr ⟨_, rfl⟩) h

theorem exchangeNFTToCurrency_pools
    (h : s.exchangeNFTToCurrency H address nftaddress blocknumber level = some t) :
    ∃ e, t.pools = { s.pools with snftExchangePool := s.pools.snftExchangePool ++ [e] } := by
  obtain ⟨s₁, hsplit, -, rfl⟩ := exchangeNFTToCurrency_inv h
  refine ⟨exchangeEntry H nftaddress (s₁.getOrNewStateObject nftaddress).2 blocknumber, ?_⟩
  rw [addBalance_pools]
  simp only [cleanNFT, setNFTInfo, change_pools, enqueue, getOrNewStateObject_pools,
    (splitNFT16_nftWrite hsplit).pools]

/-! ## User mints -/

/-- An NFT part changes, or the account at the minted address is written anew. -/
def MintAt (A a : Address) (o o' : StateObject) : Prop :=
  NFTOnly a o o' ∨ (a = A ∧ o' = { StateObject.fresh with balance := o.balance })

theorem createAccount_put_steps (s : StateDB) (a : Address) (info : AccountNFT) :
    Steps (MintAt a) s ((s.createAccount a).putNFTInfo a info) :=
  (createAccount_steps s a fun _ => Or.inr ⟨rfl, rfl⟩).trans
    ((putNFTInfo_nftWrite _ a info).steps.mono Or.inl)

theorem createNFTByUser_steps (s : StateDB) (exchanger owner : Address) (royalty : ℕ)
    (metaurl : GoString) :
    Steps (MintAt (Common.bigToAddress s.pools.mintDeep.userMint)) s
      (s.createNFTByUser exchanger owner royalty metaurl).1 :=
  .pools _ (createAccount_put_steps s _ _)

theorem createNFTByUser_pools (s : StateDB) (exchanger owner : Address) (royalty : ℕ)
    (metaurl : GoString) :
    (s.createNFTByUser exchanger owner royalty metaurl).1.pools =
      { s.pools with mintDeep := { s.pools.mintDeep with userMint := s.pools.mintDeep.userMint + 1 } } := by
  simp only [createNFTByUser, (putNFTInfo_nftWrite _ _ _).pools, createAccount_pools]

/-! ## Official mints -/

theorem mintOfficial_steps (h : s.mintOfficial H nftAddr owner info = some t) :
    Steps (MintAt nftAddr) s t :=
  (createAccount_put_steps s _ _).trans ((mergeNFT16_nftWrite h).steps.mono Or.inl)

theorem mintOfficial_pools (h : s.mintOfficial H nftAddr owner info = some t) :
    t.pools = s.pools := by
  rw [(mergeNFT16_nftWrite h).pools, (putNFTInfo_nftWrite _ _ _).pools, createAccount_pools]

/-- Choosing the next address changes no account, and of the pools only the exchange queue. -/
theorem nextOfficial_eq {s' : StateDB} {popped : Bool}
    (h : nextOfficial H s blocknumber = some (s', nftAddr, info, popped)) :
    ∃ queue, s' = { s with pools := { s.pools with snftExchangePool := queue } } := by
  simp only [nextOfficial] at h
  split at h
  · cases h
    exact ⟨_, rfl⟩
  · split at h
    · cases h
    · cases h
      exact ⟨s.pools.snftExchangePool, rfl⟩

/-- One round of the mint loop. -/
def MintRound (H : Hasher) (blocknumber : ℕ) (owner : Address) (s t : StateDB) : Prop :=
  ∃ s₁ nftAddr info popped s₂,
    nextOfficial H s blocknumber = some (s₁, nftAddr, info, popped) ∧
      s₁.mintOfficial H nftAddr owner info = some s₂ ∧
        t = if popped then s₂ else s₂.advanceOfficial

/-- The loop ends where no leaf is left, or makes a round and goes on. -/
theorem mintLoop_cons (h : s.mintLoop H blocknumber (owner :: owners) = some (t, full)) :
    (s.nextOfficial H blocknumber = none ∧ s = t ∧ full = false) ∨
      ∃ u, MintRound H blocknumber owner s u ∧ u.mintLoop H blocknumber owners = some (t, full) := by
  rw [mintLoop] at h
  split at h
  next hnone =>
    cases h
    exact Or.inl ⟨hnone, rfl, rfl⟩
  next s₁ nftAddr info popped hnext =>
    split at h
    · cases h
    next s₂ hmint => exact Or.inr ⟨_, ⟨s₁, nftAddr, info, popped, s₂, hnext, hmint, rfl⟩, h⟩

/-- What every round of the mint loop keeps, the loop keeps. -/
theorem mintLoop_invariant (hround : ∀ {owner s t}, MintRound H blocknumber owner s t → I s → I t)
    (h : s.mintLoop H blocknumber owners = some (t, full)) (hs : I s) : I t := by
  induction owners generalizing s with
  | nil =>
    cases h
    exact hs
  | cons owner owners ih =>
    rcases mintLoop_cons h with ⟨-, rfl, -⟩ | ⟨u, hfirst, hrest⟩
    · exact hs
    · exact ih hrest (hround hfirst hs)

/-- A block's mints are its loop and perhaps an election. -/
theorem createNFTByOfficial16_cases (h : s.createNFTByOfficial16 H owners blocknumber = some t) :
    ∃ u full, s.mintLoop H blocknumber owners = some (u, full) ∧
      (u = t ∨ u.electNominatedOfficialNFT = some t) := by
  unfold createNFTByOfficial16 at h
  split at h
  · cases h
  next u hu => exact ⟨u, _, hu, Or.inl (Option.some.inj h)⟩
  next u hu =>
    split at h
    · exact ⟨u, _, hu, Or.inr h⟩
    · exact ⟨u, _, hu, Or.inl (Option.some.inj h)⟩

/-! ### The addresses a mint will use -/

/-- The address the next official mint uses, and the pools after it: they do not depend on the
accounts. -/
def nextMint (p : Pools) (blocknumber : ℕ) : Option (Address × Pools) :=
  match popAddress p.snftExchangePool blocknumber with
  | some (nftAddr, _, rest) => some (nftAddr, { p with snftExchangePool := rest })
  | none =>
    let nftAddr := Common.bigToAddress p.mintDeep.officialMint
    match InjectedOfficialNFTList.getInjectedInfo p.officialNFTPool nftAddr with
    | none => none
    | some _ =>
      some (nftAddr,
        { p with
          officialNFTPool :=
            InjectedOfficialNFTList.deleteExpireElem p.officialNFTPool p.mintDeep.officialMint
          mintDeep := { p.mintDeep with officialMint := p.mintDeep.officialMint + 1 } })

/-- The addresses the next `n` official mints use. -/
def upcoming (blocknumber : ℕ) : ℕ → Pools → List Address
  | 0, _ => []
  | n + 1, p =>
    match nextMint p blocknumber with
    | none => []
    | some (nftAddr, p') => nftAddr :: upcoming blocknumber n p'

/-- The next mint's address and pools are those of `nextOfficial` and the counter after it. -/
theorem nextMint_eq (H : Hasher) (s : StateDB) (blocknumber : ℕ) :
    nextMint s.pools blocknumber =
      (nextOfficial H s blocknumber).map fun r =>
        (r.2.1, (if r.2.2.2 then r.1 else r.1.advanceOfficial).pools) := by
  unfold nextMint nextOfficial
  cases popAddress s.pools.snftExchangePool blocknumber with
  | some r => rfl
  | none =>
    cases hinjected : InjectedOfficialNFTList.getInjectedInfo s.pools.officialNFTPool
        (Common.bigToAddress s.pools.mintDeep.officialMint) with
    | none => simp [hinjected]
    | some injected => simp [hinjected, advanceOfficial]

/-- A round of the mint loop writes the account of the next address and merges. -/
theorem MintRound.nextMint (h : MintRound H blocknumber owner s t) :
    ∃ nftAddr, nextMint s.pools blocknumber = some (nftAddr, t.pools) ∧
      Steps (MintAt nftAddr) s t := by
  obtain ⟨s₁, nftAddr, info, popped, s₂, hnext, hmint, rfl⟩ := h
  have hpools := mintOfficial_pools hmint
  have hsteps : Steps (MintAt nftAddr) s s₂ := by
    obtain ⟨queue, rfl⟩ := nextOfficial_eq hnext
    exact Steps.trans (.pools _ (.refl s)) (mintOfficial_steps hmint)
  refine ⟨nftAddr, ?_, ?_⟩
  · rw [nextMint_eq H, hnext]
    cases popped with
    | true => simp [hpools]
    | false => simp [advanceOfficial, hpools]
  · cases popped with
    | true => exact hsteps
    | false => exact .pools _ hsteps

/-- What every round keeps whose address meets a condition, the loop keeps if every upcoming
address meets it. -/
theorem mintLoop_upcoming {C : Address → Prop}
    (hround : ∀ {owner s t nftAddr}, MintRound H blocknumber owner s t →
      nextMint s.pools blocknumber = some (nftAddr, t.pools) → Steps (MintAt nftAddr) s t →
      C nftAddr → I s → I t) (hC : ∀ a ∈ upcoming blocknumber owners.length s.pools, C a)
    (h : s.mintLoop H blocknumber owners = some (t, full)) (hs : I s) : I t := by
  induction owners generalizing s with
  | nil =>
    cases h
    exact hs
  | cons owner owners ih =>
    rcases mintLoop_cons h with ⟨-, rfl, -⟩ | ⟨u, hfirst, hrest⟩
    · exact hs
    · obtain ⟨a, hmintAt, hsteps⟩ := hfirst.nextMint
      simp only [List.length_cons, upcoming, hmintAt] at hC
      exact ih (fun b hb => hC b (List.mem_cons_of_mem _ hb)) hrest
        (hround hfirst hmintAt hsteps (hC a List.mem_cons_self) hs)

/-- What an official mint can do to an account. -/
def MintAny (a : Address) (o o' : StateObject) : Prop := MintAt a a o o' ∨ VoteOnly a o o'

/-- `P` allows whatever a block's mints write. -/
structure AllowsMints (P : Address → StateObject → StateObject → Prop) : Prop
    extends AllowsParts P where
  reset : ∀ {a} {o : StateObject}, P a o { StateObject.fresh with balance := o.balance }
  vote : ∀ {a o v}, P a o { o with voteWeight := v }

theorem allowsMints_mintAny : AllowsMints MintAny where
  info _ := Or.inl (Or.inl ⟨_, rfl⟩)
  owner _ := Or.inl (Or.inl ⟨_, rfl⟩)
  approve _ := Or.inl (Or.inl ⟨_, rfl⟩)
  reset := Or.inl (Or.inr ⟨rfl, rfl⟩)
  vote := Or.inr ⟨_, rfl⟩

theorem createNFTByUser_allowed (hP : AllowsMints P) (s : StateDB) (exchanger owner : Address)
    (royalty : ℕ) (metaurl : GoString) :
    Steps P s (s.createNFTByUser exchanger owner royalty metaurl).1 :=
  .pools _ ((createAccount_steps s _ fun _ => hP.reset).trans
    (putNFTInfo_partWrite hP.toAllowsParts fun _ => Nat.zero_le _).steps)

theorem MintRound.allowed (hP : AllowsMints P) (h : MintRound H blocknumber owner s t) :
    Steps P s t := by
  obtain ⟨s₁, nftAddr, info, popped, s₂, hnext, hmint, rfl⟩ := h
  obtain ⟨queue, rfl⟩ := nextOfficial_eq hnext
  have hsteps : Steps P s s₂ :=
    (Steps.trans (.pools _ (.refl s)) (createAccount_steps _ nftAddr fun _ => hP.reset)).trans
      ((putNFTInfo_partWrite hP.toAllowsParts fun _ => Nat.zero_le _).trans
        (mergeNFT16_partWrite hP.toAllowsParts hmint)).steps
  cases popped with
  | true => exact hsteps
  | false => exact .pools _ hsteps

theorem electNominatedOfficialNFT_steps (h : s.electNominatedOfficialNFT = some t) :
    Steps VoteOnly s t := by
  unfold electNominatedOfficialNFT at h
  split at h
  · cases h
    exact .pools _ (.refl s)
  · split at h
    · cases h
      exact .pools _ (.refl s)
    · simp only at h
      split at h
      · cases h
      · split at h
        · cases h
        next s' hsub =>
          cases h
          exact .pools _ (Steps.trans (.pools _ (.refl s)) (addVoteWeight_steps _ _ hsub))

/-- An election appends a batch, may change the nomination, and leaves the other pools alone. -/
theorem electNominatedOfficialNFT_pools (h : s.electNominatedOfficialNFT = some t) :
    ∃ e n, t.pools =
      { s.pools with
        officialNFTPool := s.pools.officialNFTPool ++ [e], nominatedOfficialNFT := n } := by
  unfold electNominatedOfficialNFT at h
  split at h
  · cases h
    exact ⟨_, _, rfl⟩
  · split at h
    · cases h
      exact ⟨_, _, rfl⟩
    · simp only at h
      split at h
      · cases h
      · split at h
        · cases h
        next s' hsub =>
          cases h
          simp only [addVoteWeight_pools _ _ hsub]
          exact ⟨_, _, rfl⟩

theorem createNFTByOfficial16_allowed (hP : AllowsMints P)
    (h : s.createNFTByOfficial16 H owners blocknumber = some t) :
    Steps P s t := by
  obtain ⟨u, full, hu, hend⟩ := createNFTByOfficial16_cases h
  have hloop : Steps P s u :=
    mintLoop_invariant (fun hround hs => hs.trans (hround.allowed hP)) hu (.refl s)
  rcases hend with rfl | helect
  · exact hloop
  · refine hloop.trans ((electNominatedOfficialNFT_steps helect).mono ?_)
    rintro a o o' ⟨v, rfl⟩
    exact hP.vote

theorem createNFTByOfficial16_steps (h : s.createNFTByOfficial16 H owners blocknumber = some t) :
    Steps MintAny s t :=
  createNFTByOfficial16_allowed allowsMints_mintAny h

end StateDB

end Wormholes
