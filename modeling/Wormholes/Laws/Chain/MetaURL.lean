import Wormholes.Laws.Chain.Trades
import Wormholes.Laws.State.MetaURL

/-!
# Laws.Chain.MetaURL — the URL of every official NFT of a run names its address

`official_url_of_run`: along a run in which the exchange queue gives out no other leaf than the one that
was traded in, every official NFT with an owner has a URL whose last path component is the address of
the NFT. The condition is needed: `PopAddress` counts through the leaves of a merged NFT that was traded
in, `CreateNFTByOfficial16` mints each of them with the URL of the queue entry, and that URL names the
first one (`reminted_leaf_misnamed`).
-/

namespace Wormholes

open Lib Common Core StateDB

variable {K : Crypto}

/-! ## Trades -/

namespace StateDB

variable {H : Hasher} {s t : StateDB}

/-- Every NFT and every entry of the queue is named, and no NFT has a level out of range. -/
structure Named (H : Hasher) (s : StateDB) : Prop where
  leveled : Leveled s
  records : NamedRecords H s
  queue : NamedQueue H s

theorem Named.quiet (h : Quiet s t) (hs : Named H s) : Named H t where
  leveled := h.leveled hs.leveled
  records a hoff howner := by
    obtain ⟨x, hsame | hblank⟩ := h.record a
    · rw [hsame] at howner ⊢
      exact hs.records a hoff howner
    · rw [hblank] at howner
      exact absurd rfl howner
  queue := by
    rw [NamedQueue, h.queue]
    exact hs.queue

/-- Records are looked up among the accounts alone. -/
theorem Carries.of_accounts {A : Address} {level : ℕ} (hparts : nftAt t = nftAt s)
    (hstore : splitStore H t A level = splitStore H s A level) (h : Carries H s A level) :
    Carries H t A level := by
  unfold Carries handed at h ⊢
  rw [hstore, hparts]
  exact h

theorem Named.mint {exchanger owner : Address} {royalty : ℕ} {url : GoString}
    (hoff : isOfficialNFT (bigToAddress s.pools.mintDeep.userMint) = false) (hs : Named H s) :
    Named H (s.createNFTByUser exchanger owner royalty url).1 where
  leveled := (createNFTByUser_follows exchanger owner royalty url).leveled hs.leveled
  records := by
    have hwritten := written_namedRecords
      (i := { AccountNFT.blank with
        owner := owner, creator := owner, royalty := royalty, exchanger := exchanger,
        metaURL := url }) hs.records fun hofficial => by rw [hoff] at hofficial; cases hofficial
    exact hwritten.of_parts rfl
  queue := by
    rw [NamedQueue, createNFTByUser_pools]
    exact hs.queue

theorem Named.handover {A N : Address} {level : ℕ}
    (hcarries : isOfficialNFT A = true → N = 0 ∨ Carries H (s.getOrNewStateObject A).1 A level)
    (h : changeNFTOwner H s A N level = some t) (hs : Named H s) : Named H t := by
  have hrecords := changeNFTOwner_named hcarries h hs.records hs.leveled
  refine ⟨changeNFTOwner_leveled h hs.leveled, hrecords, ?_⟩
  rw [NamedQueue, (changeNFTOwner_nftWrite h).pools]
  exact hs.queue

theorem Named.of_same (h : SameNFTs s t) (hpools : t.pools = s.pools) (hs : Named H s) : Named H t :=
  hs.quiet (.of_parts h.parts (by rw [hpools]) (by rw [hpools]))

end StateDB

/-! ## Steps -/

/-- What a step of a chain may do, so that URLs go on naming their NFTs. An official NFT that is handed
over or traded in has an owner, or a URL that names it, user NFTs are minted at user addresses, and
of a queue entry only the leaf that was traded in is minted again. -/
structure KeepsURLs (K : Crypto) (c : Chain) (e : Event) : Prop where
  handover : e.Accepted K c → ∀ A level N, e.handedOver = some (A, level, N) →
    isOfficialNFT A = true → N = 0 ∨ Carries K.toHasher (c.db.opened [A]) A level
  exchange : e.Accepted K c → ∀ A level, e.tradedIn = some (A, level) → Carries K.toHasher c.db A level
  mint : e.Accepted K c → e.mintsUser = true →
    isOfficialNFT (bigToAddress c.db.pools.mintDeep.userMint) = false
  remint : ∀ bs, e = .finalizeBlock bs → RemintsOwn c.number bs c.db.pools

theorem KeepsURLs.block {c : Chain} {bs : List Address} (h : RemintsOwn c.number bs c.db.pools) :
    KeepsURLs K c (.finalizeBlock bs) where
  handover _ _ _ _ he := by cases he
  exchange _ _ _ he := by cases he
  mint _ he := by cases he
  remint bs' he := by
    cases he
    exact h

/-- What an operation does to the records keeps them named. -/
theorem Trade.named {c : Chain} {e : Event} {s t : StateDB} (hok : KeepsURLs K c e)
    (haccounts : s.accounts = c.db.accounts) (hpools : s.pools = c.db.pools)
    (haccepted : e.Accepted K c) (h : Trade K c.number e s t) (hs : Named K.toHasher s) :
    Named K.toHasher t := by
  have hparts : SameParts c.db s := sameParts_of_accounts haccounts.symm
  cases h with
  | quiet h => exact hs.quiet h
  | @handover A N level s₁ he hreached h =>
    have hopened : SameParts (c.db.opened [A]) (s.opened [A]) := hparts.opened [A]
    refine (hs.of_same hreached.same hreached.pools).handover (fun hoff => ?_) h
    refine (hok.handover haccepted A level N he hoff).imp_right fun hcarries => ?_
    refine hcarries.of_accounts ?_ (hreached.store.trans (hopened.splitStore_eq A level))
    rw [nftAt_getOrNewStateObject, hreached.same.parts, hparts.parts, nftAt_opened]
  | @exchange caller A level he hoff howner h =>
    have hcarries : Carries K.toHasher s A level :=
      (hok.exchange haccepted A level he).of_accounts hparts.parts (hparts.splitStore_eq A level)
    obtain ⟨hrecords, hqueue⟩ :=
      exchangeNFTToCurrency_named hoff hcarries h hs.records hs.leveled hs.queue
    exact ⟨(exchangeNFTToCurrency_follows h).leveled hs.leveled, hrecords, hqueue⟩
  | mint he h =>
    subst h
    refine hs.mint ?_
    rw [hpools]
    exact hok.mint haccepted he
  | mintSale he hsame hsold h =>
    have hoff : isOfficialNFT (bigToAddress s.pools.mintDeep.userMint) = false := by
      rw [hpools]
      exact hok.mint haccepted he
    refine ((hs.mint hoff).of_same hsame hsold).handover (fun hofficial => ?_) h
    rw [hoff] at hofficial
    cases hofficial

namespace Chain

/-- Every step that keeps URLs leaves the official NFTs named, in the states kept for a revert too. -/
theorem named_step {c c' : Chain} {e : Event} (h : step K e c = some c') (hok : KeepsURLs K c e)
    (hc : c.SavedOk ∧ c.AllStates (Named K.toHasher)) :
    c'.SavedOk ∧ c'.AllStates (Named K.toHasher) := by
  refine ⟨step_savedOk h hc.1, allStates_trade h hc.1 hc.2 (fun hq hs => hs.quiet hq) ?_ ?_ ?_⟩
  · intro s t haccounts hpools haccepted htrade hs
    exact Trade.named hok haccounts hpools haccepted htrade hs
  · -- accounts are those of the snapshot, while the queue is the one of now
    intro id t u _ _ ht hparts hpools
    refine ⟨fun a => ?_, ht.records.of_parts hparts, ?_⟩
    · rw [hparts]
      exact ht.leveled a
    · rw [NamedQueue, hpools]
      exact hc.2.1.queue
  · intro bs db he hdb
    obtain ⟨hrecords, hqueue⟩ :=
      createNFTByOfficial16_named hdb hc.2.1.records hc.2.1.queue (hok.remint bs he)
    exact ⟨(createNFTByOfficial16_follows hdb).leveled hc.2.1.leveled, hrecords, hqueue⟩

theorem named_genesis (g : Genesis) : Named K.toHasher g.chain.db where
  leveled a := by
    rw [nftAt_genesis]
    exact Nat.zero_le _
  records a _ howner := by
    rw [nftAt_genesis] at howner
    exact absurd rfl howner
  queue e he := by cases he

end Chain

/-- Along a run whose steps keep URLs, the URL of every official NFT with an owner names the NFT. -/
theorem official_url_of_run {g : Genesis} {es : List Event} {c : Chain}
    (hrun : Run (Chain.step K) (KeepsURLs K) g.chain es c) {A : Address}
    (hofficial : isOfficialNFT A = true) (howner : (nftAt c.db A).owner ≠ 0) :
    '/' ∈ (nftAt c.db A).metaURL ∧ lastComponent (nftAt c.db A).metaURL = A.string K.toHasher := by
  have hinv : c.SavedOk ∧ c.AllStates (Named K.toHasher) :=
    hrun.invariant (P := fun c => c.SavedOk ∧ c.AllStates (Named K.toHasher))
      ⟨trivial, Chain.named_genesis g, fun p hp => by cases hp⟩
      fun hc hok hstep => Chain.named_step hstep hok hc
  exact hinv.2.1.records A hofficial howner

/-- The leaf is handed over, traded in and minted again; its URL names it. -/
theorem official_url_of_run_reminted : ∃ c : Chain,
    Run (Chain.step .trivial) (KeepsURLs .trivial) (Genesis.small []).chain
      [.finalizeBlock [0xc0], .nTransferFrom 0xc0 0xc0 0xd0 firstLeaf,
        .call 0xd0 0xd0 (.wormholes { WormholesTx.bare 6 with
          nftAddress := "0x8000000000000000000000000000000000000000".toList }) 0,
        .finalizeBlock [], .finalizeBlock [0xe0]] c ∧
    (nftAt c.db firstLeaf).owner = 0xe0 ∧
    '/' ∈ (nftAt c.db firstLeaf).metaURL ∧
    lastComponent (nftAt c.db firstLeaf).metaURL = firstLeaf.string Crypto.trivial.toHasher := by
  have hall : ((Chain.step .trivial (.finalizeBlock [0xc0]) (Genesis.small []).chain).bind fun c₁ =>
      (Chain.step .trivial (.nTransferFrom 0xc0 0xc0 0xd0 firstLeaf) c₁).bind fun c₂ =>
      (Chain.step .trivial (.call 0xd0 0xd0 (.wormholes { WormholesTx.bare 6 with
        nftAddress := "0x8000000000000000000000000000000000000000".toList }) 0) c₂).bind fun c₃ =>
      (Chain.step .trivial (.finalizeBlock []) c₃).bind fun c₄ =>
      (Chain.step .trivial (.finalizeBlock [0xe0]) c₄).map fun c₅ =>
        ((handed Crypto.trivial.toHasher (c₁.db.opened [firstLeaf]) firstLeaf 0).2,
          (handed Crypto.trivial.toHasher c₂.db firstLeaf 0).2,
          c₄.db.pools.snftExchangePool.map fun e => (e.currentMintAddress, e.nftAddress),
          (nftAt c₅.db firstLeaf).owner)) =
        some (0xc0, 0xd0, [(firstLeaf, firstLeaf)], 0xe0) := by
    decide +kernel
  obtain ⟨c₁, h₁, hall⟩ := Option.bind_eq_some_iff.mp hall
  obtain ⟨c₂, h₂, hall⟩ := Option.bind_eq_some_iff.mp hall
  obtain ⟨c₃, h₃, hall⟩ := Option.bind_eq_some_iff.mp hall
  obtain ⟨c₄, h₄, hall⟩ := Option.bind_eq_some_iff.mp hall
  obtain ⟨c₅, h₅, hall⟩ := Option.map_eq_some_iff.mp hall
  simp only [Prod.mk.injEq] at hall
  obtain ⟨hhanded, htraded, hqueue, howner⟩ := hall
  have hok₁ : KeepsURLs .trivial (Genesis.small []).chain (.finalizeBlock [0xc0]) :=
    .block ⟨fun _ _ hhead => (nomatch hhead), fun _ _ _ => trivial⟩
  have hok₂ : KeepsURLs .trivial c₁ (.nTransferFrom 0xc0 0xc0 0xd0 firstLeaf) := by
    refine ⟨fun _ A level N he _ => ?_, fun _ _ _ he => ?_, fun _ he => ?_, fun _ he => ?_⟩
    · cases he
      refine Or.inr (Or.inl ?_)
      rw [hhanded]
      decide
    all_goals cases he
  have hok₃ : KeepsURLs .trivial c₂ (.call 0xd0 0xd0 (.wormholes { WormholesTx.bare 6 with
      nftAddress := "0x8000000000000000000000000000000000000000".toList }) 0) := by
    refine ⟨fun _ _ _ _ he => ?_, fun _ A level he => ?_, fun _ he => ?_, fun _ he => ?_⟩
    · cases he
    · have hnft : some (A, level) = some (firstLeaf, 0) := by
        rw [← he]
        decide +kernel
      cases hnft
      refine Or.inl ?_
      rw [htraded]
      decide
    · cases he
    · cases he
  have hok₄ : KeepsURLs .trivial c₃ (.finalizeBlock []) := .block trivial
  have hok₅ : KeepsURLs .trivial c₄ (.finalizeBlock [0xe0]) := by
    refine .block ⟨fun head rest hhead _ => Or.inr ?_, fun _ _ _ => trivial⟩
    rw [hhead] at hqueue
    simp only [List.map_cons, List.cons.injEq, Prod.mk.injEq] at hqueue
    rw [hqueue.1.1, hqueue.1.2]
  have hrun := Run.cons hok₁ h₁ (.cons hok₂ h₂ (.cons hok₃ h₃ (.cons hok₄ h₄ (.cons hok₅ h₅ (.nil _)))))
  refine ⟨c₅, hrun, howner, official_url_of_run hrun (by decide) ?_⟩
  rw [howner]
  decide

/-- Sixteen leaves merge and are traded in. Two of them are minted again, and the second one has the URL
of the first. -/
theorem reminted_leaf_misnamed : ∃ (g : Genesis) (es : List Event) (c : Chain) (A : Address),
    Run (Chain.step .trivial) (fun _ _ => True) g.chain es c ∧ isOfficialNFT A = true ∧
      (nftAt c.db A).owner ≠ 0 ∧
      lastComponent (nftAt c.db A).metaURL ≠ A.string Crypto.trivial.toHasher := by
  have hall : ((runAll (Chain.step .trivial) [.finalizeBlock (List.replicate 16 0xc0),
      .call 0xc0 0xc0 (.wormholes { WormholesTx.bare 6 with
        nftAddress := "0x800000000000000000000000000000000000000".toList }) 0,
      .finalizeBlock [], .finalizeBlock [0xd0, 0xd0]] (Genesis.small []).chain).map fun c =>
        ((nftAt c.db (firstLeaf + 1)).owner, lastComponent (nftAt c.db (firstLeaf + 1)).metaURL)) =
        some (0xd0, firstLeaf.string Crypto.trivial.toHasher) := by
    decide +kernel
  obtain ⟨c, hc, hall⟩ := Option.map_eq_some_iff.mp hall
  simp only [Prod.mk.injEq] at hall
  refine ⟨_, _, c, firstLeaf + 1, Run.of_runAll (fun _ _ _ => trivial) hc, by decide, ?_, ?_⟩
  · rw [hall.1]
    decide
  · rw [hall.2]
    decide +kernel

end Wormholes
