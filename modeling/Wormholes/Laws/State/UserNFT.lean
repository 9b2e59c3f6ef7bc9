import Wormholes.Laws.State.Approvals
import Wormholes.Laws.State.Storage

/-!
# Laws.State.UserNFT — which addresses can have an owner

Official NFTs and user NFTs lie in two halves of the address space. Splits, merges and mints of official
NFTs stay in theirs: a family of sixteen lies in one half unless it is the highest one, and that one
would need a merged NFT at a user address, which no operation writes.

`Unminted n m` bounds both halves. A user NFT with an owner lies below `n` and is not merged, so the
lookup of a user address from `n` on finds nobody. An official NFT with an owner, the official counter
and the queue's next leaves lie below the end of the first `m` blocks of sixteen to the sixth: a split
stays in such a block, as the lookup goes no higher, and a mint passes the end by one address at most.
-/

namespace Wormholes.StateDB

open Lib Lib.Forest Common

variable {H : Hasher} {s t u : StateDB} {p q : Pools}
variable {A a b N : Address} {level : ℕ}
variable {i : AccountNFT} {k bn n m : ℕ}

/-! ## Records -/

/-- The end of the addresses that can have an owner, in the half of an address. -/
def mintedEnd (n m : ℕ) (a : Address) : ℕ := if isOfficialNFT a then 2 ^ 159 + 16 ^ 6 * m else n

theorem mintedEnd_official (ha : isOfficialNFT a = true) : mintedEnd n m a = 2 ^ 159 + 16 ^ 6 * m :=
  if_pos ha

/-- What the record at an address can be. -/
structure Bounded (n m : ℕ) (a : Address) (i : AccountNFT) : Prop where
  level : i.mergeLevel ≤ 40
  flat : isOfficialNFT a = false → i.mergeLevel = 0
  owned : i.owner ≠ 0 → a.toNat < mintedEnd n m a

theorem Bounded.unowned (hlevel : i.mergeLevel = 0) (howner : i.owner = 0) : Bounded n m a i :=
  ⟨by omega, fun _ => hlevel, fun h => absurd howner h⟩

/-- An address before the end may be given to anybody. -/
theorem Bounded.leaf (hlevel : i.mergeLevel = 0) (ha : a.toNat < mintedEnd n m a) : Bounded n m a i :=
  ⟨by omega, fun _ => hlevel, fun _ => ha⟩

theorem Bounded.mono {n' m' : ℕ} (h : Bounded n m a i) (hn : n ≤ n') (hm : m ≤ m') :
    Bounded n' m' a i where
  level := h.level
  flat := h.flat
  owned howner := by
    have hlt := h.owned howner
    unfold mintedEnd at hlt ⊢
    split
    next hoff =>
      rw [if_pos hoff] at hlt
      omega
    next hoff =>
      rw [if_neg hoff] at hlt
      omega

/-- A merge leaves the parts no owner, and the whole has its first part's. -/
theorem Merges.bounded {w : Address} (h : Merges s t A k w) (hk : k + 1 ≤ 39)
    (hoff : isOfficialNFT A = true) (hs : ∀ a, Bounded n m a (nftAt s a)) (a : Address) :
    Bounded n m a (nftAt t a) := by
  by_cases hparent : a = blockAddr (k + 1) A
  · have hofficial : isOfficialNFT a = true := hparent ▸ isOfficialNFT_blockAddr hk hoff
    refine ⟨?_, fun huser => ?_, fun howner => (hs a).owned ?_⟩
    · rw [hparent, h.parent.2.1]
      omega
    · rw [hofficial] at huser
      cases huser
    · have hfirst := (h.sibling 0 (by decide)).2.1
      rw [show childAddr A k 0 = a by simp [hparent, childAddr, blockAddr]] at hfirst
      rwa [hfirst, ← h.parent.1, ← hparent]
  · by_cases hchild : a ∈ children A k
    · rw [h.cleaned a hchild hparent]
      exact .unowned rfl rfl
    · rw [h.kept a hchild]
      exact hs a

theorem mergeWalk_bounded {calls : ℕ} (h : mergeWalk H calls s A = some t)
    (hoff : isOfficialNFT A = true) (hs : ∀ a, Bounded n m a (nftAt s a)) :
    ∀ a, Bounded n m a (nftAt t a) := by
  induction calls generalizing s A with
  | zero => cases h
  | succ calls ih =>
    rcases mergeWalk_inv h with ⟨-, rfl⟩ | ⟨o, v, b, ho, hcan, hmerge, hrest⟩
    · exact hs
    · have hlevel := mergeOnce_level (Leveled.level_le (fun a => (hs a).level) ho) hmerge
      obtain ⟨rfl, -, hmerges⟩ := merges_of_mergeOnce ho hlevel hcan hmerge
      -- the highest family has a part at address zero, where nothing is merged
      have hlow := hmerges.level_lt_of_top (by rw [(hs 0).flat (by decide)]; decide) (by omega)
      exact ih hrest (isOfficialNFT_blockAddr hlow hoff) (hmerges.bounded hlow hoff hs)

/-- A split writes in the block of the sixth level around its address. -/
theorem splitNFT16_block (hs : Leveled s) (h : splitNFT16 H s A level = some t) (b : Address) :
    nftAt t b = nftAt s b ∨ blockAddr 6 b = blockAddr 6 A := by
  cases hstore : splitStore H s A level with
  | none =>
    rw [splitNFT16_of_none hstore] at h
    cases h
    exact Or.inl rfl
  | some store => exact ((splitNFT16_opens hs hstore h).1.parts b).imp_right And.right

/-- The end of the official half is the end of a block. -/
theorem lt_mintedEnd_of_block {l : ℕ} (hl : l ≤ 6) (hA : isOfficialNFT A = true)
    (hlt : (blockAddr l A).toNat < mintedEnd n m A) : A.toNat < mintedEnd n m A := by
  rw [mintedEnd_official hA] at hlt ⊢
  have hdvd : 16 ^ l ∣ 2 ^ 159 + 16 ^ 6 * m :=
    (pow_dvd_pow 16 hl).trans (Nat.dvd_add (by decide) (Nat.dvd_mul_right _ _))
  obtain ⟨r, hr⟩ := hdvd
  rw [toNat_blockAddr, blockStart, hr, Nat.mul_comm] at hlt
  rw [hr]
  exact (Nat.div_lt_iff_lt_mul (by positivity)).mp (Nat.lt_of_mul_lt_mul_left hlt) |>.trans_eq
    (Nat.mul_comm _ _)

theorem splitNFT16_bounded (h : splitNFT16 H s A level = some t) (hoff : isOfficialNFT A = true)
    (hA : A.toNat < mintedEnd n m A) (hs : ∀ a, Bounded n m a (nftAt s a)) (b : Address) :
    Bounded n m b (nftAt t b) := by
  have hleveled : Leveled s := fun a => (hs a).level
  rcases splitNFT16_block hleveled h b with hsame | hblock
  · rw [hsame]
    exact hs b
  · have hb : isOfficialNFT b = true := by
      rw [← isOfficialNFT_blockAddr_iff (l := 6) (by decide), hblock]
      exact isOfficialNFT_blockAddr (by decide) hoff
    refine ⟨(splitNFT16_follows h).leveled hleveled b, fun huser => ?_, fun _ => ?_⟩
    · rw [hb] at huser
      cases huser
    · refine lt_mintedEnd_of_block (Nat.le_refl 6) hb ?_
      rw [hblock, mintedEnd_official hb, ← mintedEnd_official (n := n) hoff]
      refine lt_of_le_of_lt ?_ hA
      rw [toNat_blockAddr]
      exact Nat.div_mul_le_self _ _

/-! ## Queue and counter -/

/-- An official address up to the end. -/
def UpTo (m x : ℕ) : Prop := 2 ^ 159 ≤ x ∧ x ≤ 2 ^ 159 + 16 ^ 6 * m

theorem UpTo.succ {x : ℕ} (h : UpTo m x) : UpTo (m + 1) (x + 1) := by
  unfold UpTo at h ⊢
  omega

theorem UpTo.mono {x m' : ℕ} (h : UpTo m x) (hm : m ≤ m') : UpTo m' x := by
  unfold UpTo at h ⊢
  omega

/-- Queue and counter are official, up to the end. -/
structure OfficialNext (m : ℕ) (p : Pools) : Prop where
  queue : ∀ e ∈ p.snftExchangePool, UpTo m e.currentMintAddress.toNat
  counter : UpTo m p.mintDeep.officialMint

theorem OfficialNext.mono {m' : ℕ} (h : OfficialNext m p) (hm : m ≤ m') : OfficialNext m' p :=
  ⟨fun e he => (h.queue e he).mono hm, h.counter.mono hm⟩

theorem UpTo.toNat {x : ℕ} (h : UpTo m x) (hm : m ≤ 2 ^ 127) : (bigToAddress x).toNat = x := by
  unfold UpTo at h
  exact toNat_bigToAddress (by omega)

theorem popAddress_upTo {list rest : List SNFTExchange} {info : InjectedInfo} (hm : m < 2 ^ 127)
    (h : popAddress list bn = some (a, info, rest))
    (hlist : ∀ e ∈ list, UpTo m e.currentMintAddress.toNat) :
    UpTo m a.toNat ∧ ∀ e ∈ rest, UpTo (m + 1) e.currentMintAddress.toNat := by
  cases list with
  | nil => cases h
  | cons head tail =>
    obtain ⟨hhead, htail⟩ := List.forall_mem_cons.mp hlist
    have htail' : ∀ e ∈ tail, UpTo (m + 1) e.currentMintAddress.toNat := fun e he =>
      (htail e he).mono (Nat.le_succ m)
    simp only [popAddress] at h
    split at h
    · cases h
    · cases h
      refine ⟨hhead, ?_⟩
      split
      · exact htail'
      · refine List.forall_mem_cons.mpr ⟨?_, htail'⟩
        have hnext := hhead.succ
        rwa [← hnext.toNat (by omega)] at hnext

theorem nextMint_official (hm : m < 2 ^ 127) (h : nextMint p bn = some (a, q))
    (hp : OfficialNext m p) : UpTo m a.toNat ∧ OfficialNext (m + 1) q := by
  unfold nextMint at h
  split at h
  next hpop =>
    cases h
    obtain ⟨ha, hrest⟩ := popAddress_upTo hm hpop hp.queue
    exact ⟨ha, hrest, hp.counter.mono (Nat.le_succ m)⟩
  next =>
    dsimp only at h
    split at h
    · cases h
    · cases h
      refine ⟨?_, (hp.mono (Nat.le_succ m)).queue, hp.counter.succ⟩
      rw [hp.counter.toNat hm.le]
      exact hp.counter

/-! ## States -/

/-- Records, queue and counter are bounded. -/
structure Unminted (n m : ℕ) (s : StateDB) : Prop where
  records : ∀ a, Bounded n m a (nftAt s a)
  next : OfficialNext m s.pools

theorem Unminted.mono {n' m' : ℕ} (h : Unminted n m s) (hn : n ≤ n') (hm : m ≤ m') :
    Unminted n' m' s :=
  ⟨fun a => (h.records a).mono hn hm, h.next.mono hm⟩

section

variable (h : Unminted n m s)
include h

theorem Unminted.of_parts (hparts : nftAt t = nftAt s) (hpools : OfficialNext m t.pools) :
    Unminted n m t :=
  ⟨fun a => by rw [hparts]; exact h.records a, hpools⟩

/-- One record is written. -/
theorem Unminted.update (hi : Bounded n m A i) (ht : nftAt t = Function.update (nftAt s) A i)
    (hpools : OfficialNext m t.pools) : Unminted n m t := by
  refine ⟨fun a => ?_, hpools⟩
  rw [ht]
  by_cases ha : a = A
  · subst ha
    rwa [Function.update_self]
  · rw [Function.update_of_ne ha]
    exact h.records a

theorem Unminted.opened (A : Address) : Unminted n m (s.getOrNewStateObject A).1 :=
  h.of_parts (nftAt_getOrNewStateObject A) (by rw [getOrNewStateObject_pools]; exact h.next)

theorem Unminted.split (hoff : isOfficialNFT A = true) (hA : A.toNat < mintedEnd n m A)
    (hsplit : splitNFT16 H s A level = some t) : Unminted n m t :=
  ⟨splitNFT16_bounded hsplit hoff hA h.records, by
    rw [(splitNFT16_nftWrite hsplit).pools]; exact h.next⟩

theorem Unminted.merge (hoff : isOfficialNFT A = true) (hmerge : mergeNFT16 H s A = some t) :
    Unminted n m t :=
  ⟨mergeWalk_bounded hmerge hoff h.records, by
    rw [(mergeNFT16_nftWrite hmerge).pools]; exact h.next⟩

theorem Unminted.owned {o : StateObject} (hA : A.toNat < mintedEnd n m A)
    (ho : s.accounts A = some o) : Unminted n m (s.changeObjectOwner A o N) := by
  refine h.update ?_ (nftAt_changeObjectOwner ho) (by
    rw [(changeObjectOwner_nftWrite ho N).pools]; exact h.next)
  have hrecord := h.records A
  rw [show nftAt s A = o.nft from view_of_some _ ho] at hrecord
  split
  · exact hrecord
  · exact ⟨hrecord.level, hrecord.flat, fun _ => hA⟩

/-- A handover below the end. -/
theorem Unminted.handover (hA : A.toNat < mintedEnd n m A)
    (hchange : changeNFTOwner H s A N level = some t) : Unminted n m t := by
  obtain ⟨s₁, hsplit, hmerge⟩ := changeNFTOwner_inv hchange
  have hfound := getOrNewStateObject_found s₁ A
  by_cases hoff : isOfficialNFT A = true
  · rw [if_pos hoff] at hsplit
    rw [if_pos hoff] at hmerge
    exact ((((h.opened A).split hoff hA hsplit).opened A).owned hA hfound).merge hoff hmerge
  · rw [if_neg hoff] at hsplit
    rw [if_neg hoff] at hmerge
    subst hsplit hmerge
    exact ((h.opened A).opened A).owned hA hfound

/-- An exchange below the end: the queue is to mint the address again. -/
theorem Unminted.exchange {caller : Address} (hoff : isOfficialNFT A = true)
    (hA : A.toNat < mintedEnd n m A)
    (hexchange : exchangeNFTToCurrency H s caller A bn level = some t) : Unminted n m t := by
  obtain ⟨s₁, hsplit, hfound, rfl⟩ := exchangeNFTToCurrency_inv hexchange
  have hopened := ((h.split hoff hA hsplit).opened A).opened caller
  generalize ((s₁.getOrNewStateObject A).1.getOrNewStateObject caller).1 = v at hopened
  generalize (s₁.getOrNewStateObject A).2 = o
  have hqueue : OfficialNext m (v.enqueue (exchangeEntry H A o bn)).pools := by
    refine ⟨List.forall_mem_append.mpr ⟨hopened.next.queue, List.forall_mem_singleton.mpr ?_⟩,
      hopened.next.counter⟩
    rw [mintedEnd_official hoff] at hA
    exact ⟨isOfficialNFT_iff.mp hoff, hA.le⟩
  have hcleaned : Unminted n m ((v.enqueue (exchangeEntry H A o bn)).cleanNFT A o) :=
    hopened.update (.unowned rfl rfl) (nftAt_setNFTInfo .blank) hqueue
  refine hcleaned.of_parts ((addBalance_steps _ _ _).sameNFTs fun hP => ?_).parts (by
    rw [addBalance_pools]; exact hcleaned.next)
  obtain ⟨x, rfl⟩ := hP
  rfl

/-- A user mint at a counter value below the end. -/
theorem Unminted.userMint {exchanger owner : Address} {royalty : ℕ} {url : GoString}
    (hA : (bigToAddress s.pools.mintDeep.userMint).toNat <
      mintedEnd n m (bigToAddress s.pools.mintDeep.userMint)) :
    Unminted n m (s.createNFTByUser exchanger owner royalty url).1 := by
  refine h.update (.leaf rfl hA) (nftAt_written _ _) ?_
  rw [createNFTByUser_pools]
  exact ⟨h.next.queue, h.next.counter⟩

/-- A round of the official mints is at the next address and moves the end. -/
theorem Unminted.round {owner : Address} (hm : m < 2 ^ 127) (hround : MintRound H bn owner s t) :
    Unminted n (m + 1) t := by
  obtain ⟨a, hnext, -⟩ := hround.nextMint
  obtain ⟨ha, hpools⟩ := nextMint_official hm hnext h.next
  obtain ⟨s₁, a', info, popped, s₂, hnext', hmint, rfl⟩ := hround
  rw [nextMint_eq H, hnext'] at hnext
  obtain rfl : a' = a := (Prod.mk.inj (Option.some.inj hnext)).1
  have hoff : isOfficialNFT a' = true := isOfficialNFT_iff.mpr ha.1
  have hend : a'.toNat < mintedEnd n (m + 1) a' := by
    rw [mintedEnd_official hoff]
    have := ha.2
    omega
  have hs₁ : ∀ b, Bounded n (m + 1) b (nftAt s₁ b) := by
    obtain ⟨queue, rfl⟩ := nextOfficial_eq hnext'
    exact fun b => (h.records b).mono (Nat.le_refl n) (Nat.le_succ m)
  have hwritten : ∀ b, Bounded n (m + 1) b (nftAt (s₁.written a' (mintInfo owner info)) b) := by
    intro b
    rw [nftAt_written]
    by_cases hb : b = a'
    · subst hb
      rw [Function.update_self]
      exact .leaf rfl hend
    · rw [Function.update_of_ne hb]
      exact hs₁ b
  refine ⟨fun b => ?_, hpools⟩
  have hs₂ := mergeWalk_bounded hmint hoff hwritten b
  split
  · exact hs₂
  · exact hs₂

/-- The official mints of a block. -/
theorem Unminted.block {owners : List Address} (hm : m + owners.length < 2 ^ 127)
    (hblock : createNFTByOfficial16 H s owners bn = some t) : Unminted n (m + owners.length) t := by
  obtain ⟨u, full, hloop, hend⟩ := createNFTByOfficial16_cases hblock
  have hu : Unminted n (m + owners.length) u := by
    clear hblock hend
    induction owners generalizing s m with
    | nil =>
      cases hloop
      exact h
    | cons owner owners ih =>
      rw [List.length_cons] at hm ⊢
      rcases mintLoop_cons hloop with ⟨-, rfl, -⟩ | ⟨v, hround, hrest⟩
      · exact h.mono (Nat.le_refl n) (by omega)
      · rw [show m + (owners.length + 1) = m + 1 + owners.length by omega] at hm ⊢
        exact ih (h.round (by omega) hround) hm hrest
  rcases hend with rfl | helect
  · exact hu
  · obtain ⟨e, x, hpools⟩ := electNominatedOfficialNFT_pools helect
    refine hu.of_parts ((electNominatedOfficialNFT_steps helect).sameNFTs fun hP => ?_).parts ?_
    · obtain ⟨v, rfl⟩ := hP
      rfl
    · rw [hpools]
      exact ⟨hu.next.queue, hu.next.counter⟩

end

end Wormholes.StateDB
