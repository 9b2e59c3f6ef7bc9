import Wormholes.Laws.State.Approvals
import Wormholes.Laws.State.RoundTrip

/-!
# Laws.State.MetaURL — meta URLs that name their NFT

The last component of an official NFT's meta URL is to be the NFT's own address. Merges and splits
write it anew, a mint from the counter writes it first. A mint from the exchange queue takes the URL of
the NFT that was traded in, whichever of its leaves is minted, and a change of owner takes whatever URL
the account at the address has. `Named` is the invariant, `Carries` and `RemintsOwn` what it asks of a
handover and of a block's mints.
-/

namespace Wormholes

open Common

variable {a A : Address} {level bn : ℕ}
variable {i : AccountNFT} {o : StateObject} {N owner : Address} {s₁ : StateDB} {info : InjectedInfo}
  {owners : List Address}

/-- What follows the last slash of a URL. -/
def lastComponent (url : GoString) : GoString := (url.reverse.takeWhile (· ≠ '/')).reverse

theorem lastComponent_append {dir text : GoString} (h : '/' ∉ text) :
    lastComponent (dir ++ '/' :: text) = text := by
  have htext : ∀ c ∈ text.reverse, decide (c ≠ '/') = true := by
    intro c hc
    refine decide_eq_true fun heq => h ?_
    rw [← heq]
    exact List.mem_reverse.mp hc
  unfold lastComponent
  rw [List.reverse_append, List.reverse_cons, List.append_assoc, List.takeWhile_append_of_pos htext,
    List.singleton_append, List.takeWhile_cons_of_neg (by decide), List.append_nil, List.reverse_reverse]

namespace StateDB

variable {H : Hasher} {s t u : StateDB}

/-- The URL has a slash and its last component is the address' text. -/
def NamesAddress (H : Hasher) (url : GoString) (a : Address) : Prop :=
  '/' ∈ url ∧ lastComponent url = a.string H

theorem namesAddress_append (dir : GoString) (a : Address) :
    NamesAddress H (dir ++ '/' :: a.string H) a :=
  ⟨List.mem_append_right _ List.mem_cons_self, lastComponent_append (slash_notMem_string H a)⟩

theorem namesAddress_retarget {url url' : GoString} (h : retarget H url a = some url') :
    NamesAddress H url' a := by
  unfold retarget at h
  split at h
  · cases h
  · cases h
    exact namesAddress_append _ a

/-- Every official NFT with an owner has a URL that names it. -/
def NamedRecords (H : Hasher) (s : StateDB) : Prop :=
  ∀ a, isOfficialNFT a = true → (nftAt s a).owner ≠ 0 → NamesAddress H (nftAt s a).metaURL a

/-- Every entry of the exchange queue has a URL that names the NFT that was traded in. -/
def NamedQueue (H : Hasher) (s : StateDB) : Prop :=
  ∀ e ∈ s.pools.snftExchangePool, NamesAddress H e.metalUrl e.nftAddress

/-! ## Single writes -/

section

variable (hs : NamedRecords H s)
include hs

theorem NamedRecords.update (ht : nftAt t = Function.update (nftAt s) A i)
    (hi : isOfficialNFT A = true → i.owner ≠ 0 → NamesAddress H i.metaURL A) :
    NamedRecords H t := by
  intro a hoff howner
  rw [ht] at howner ⊢
  by_cases ha : a = A
  · subst ha
    rw [Function.update_self] at howner ⊢
    exact hi hoff howner
  · rw [Function.update_of_ne ha] at howner ⊢
    exact hs a hoff howner

theorem NamedRecords.of_parts (h : nftAt t = nftAt s) : NamedRecords H t := by
  unfold NamedRecords
  rw [h]
  exact hs

theorem cleanNFT_namedRecords (A : Address) (o : StateObject) :
    NamedRecords H (s.cleanNFT A o) :=
  hs.update (nftAt_setNFTInfo .blank) fun _ howner => absurd rfl howner

theorem cleanAll_namedRecords {l : List Address} (h : s.cleanAll l = some t) :
    NamedRecords H t := by
  induction l generalizing s with
  | nil =>
    cases h
    exact hs
  | cons a rest ih =>
    rw [cleanAll] at h
    split at h
    · cases h
    next o ho => exact ih (cleanNFT_namedRecords hs a o) h

theorem mergeOnce_namedRecords {b : Address}
    (h : s.mergeOnce H a o = some (t, b)) : NamedRecords H t := by
  unfold mergeOnce at h
  split at h
  · cases h
  next digits hdigits =>
    split at h
    · cases h
    next s' hclean =>
      simp only at h
      split at h
      · cases h
      next url hurl =>
        cases h
        exact (cleanAll_namedRecords hs hclean).update (nftAt_putNFTInfo _ _) fun _ _ =>
          namesAddress_retarget hurl

theorem mergeWalk_namedRecords {calls : ℕ}
    (h : mergeWalk H calls s a = some t) : NamedRecords H t := by
  induction calls generalizing s a with
  | zero => cases h
  | succ calls ih =>
    rcases mergeWalk_inv h with ⟨-, rfl⟩ | ⟨o, u, b, -, -, hmerge, hrest⟩
    · exact hs
    · exact ih (mergeOnce_namedRecords hs hmerge) hrest

end

theorem splitPut_namedRecords {store : AccountNFT} {child : Address}
    (h : splitPut H store level s child = some t) (hs : NamedRecords H s) : NamedRecords H t := by
  unfold splitPut at h
  split at h
  · cases h
  next url hurl =>
    cases h
    exact hs.update (nftAt_putNFTInfo _ _) fun _ _ => namesAddress_retarget hurl

theorem foldlM_keeps {α : Type} {I : StateDB → Prop} {f : StateDB → α → Option StateDB}
    (hf : ∀ {s t x}, f s x = some t → I s → I t) {l : List α} (h : l.foldlM f s = some t) (hs : I s) :
    I t := by
  induction l generalizing s with
  | nil =>
    cases h
    exact hs
  | cons x rest ih =>
    rw [List.foldlM_cons] at h
    obtain ⟨s', hs', hrest⟩ := Option.bind_eq_some_iff.mp h
    exact ih hrest (hf hs' hs)

theorem splitNFT16_namedRecords (h : splitNFT16 H s A level = some t) (hs : NamedRecords H s) :
    NamedRecords H t := by
  cases hstore : splitStore H s A level with
  | none =>
    rw [splitNFT16_of_none hstore] at h
    cases h
    exact hs
  | some store =>
    obtain ⟨S, o, -, -, -, -, -, -, hsplit⟩ := splitStore_inv hstore
    rw [hsplit] at h
    exact foldlM_keeps (fun hrow => foldlM_keeps splitPut_namedRecords hrow) h hs

/-! ## Changes of owner -/

/-- The NFT at an address, once split off, has an owner, or the account there names it already. -/
def Carries (H : Hasher) (s : StateDB) (A : Address) (level : ℕ) : Prop :=
  (handed H s A level).2 ≠ 0 ∨ NamesAddress H (nftAt s A).metaURL A

/-- What is split off to be handed over is named. -/
theorem Carries.named (h : Carries H s A level) (hoff : isOfficialNFT A = true)
    (hs : NamedRecords H s) (hleveled : Leveled s) (hsplit : splitNFT16 H s A level = some t) :
    NamesAddress H (nftAt t A).metaURL A := by
  cases hstore : splitStore H s A level with
  | none =>
    rw [splitNFT16_of_none hstore] at hsplit
    cases hsplit
    simp only [Carries, handed, hstore] at h
    rcases h with howner | hnamed
    · exact hs A hoff howner
    · exact hnamed
  | some store =>
    obtain ⟨hopens, hdvd⟩ := splitNFT16_opens hleveled hstore hsplit
    obtain ⟨-, howner, hne⟩ := covers_iff.mp hopens.block
    rw [blockAddr_of_dvd hdvd] at howner
    exact splitNFT16_namedRecords hsplit hs A hoff (howner ▸ hne)

theorem changeObjectOwner_namedRecords (hs : NamedRecords H s) (ho : s.accounts A = some o)
    (hN : isOfficialNFT A = true → N = 0 ∨ NamesAddress H o.nft.metaURL A) :
    NamedRecords H (s.changeObjectOwner A o N) := by
  refine hs.update (nftAt_changeObjectOwner ho) fun hoff howner => ?_
  split
  next hsame =>
    rw [if_pos hsame] at howner
    have hnft : nftAt s A = o.nft := view_of_some _ ho
    exact hnft ▸ hs A hoff (hnft ▸ howner)
  next hchanged =>
    rw [if_neg hchanged] at howner
    exact (hN hoff).resolve_left howner

/-- A change of owner of an NFT that is named, or to nobody. -/
theorem changeNFTOwner_named
    (hcarries : isOfficialNFT A = true → N = 0 ∨ Carries H (s.getOrNewStateObject A).1 A level)
    (h : changeNFTOwner H s A N level = some t) (hs : NamedRecords H s) (hleveled : Leveled s) :
    NamedRecords H t := by
  obtain ⟨s₁, hsplit, hmerge⟩ := changeNFTOwner_inv h
  have hopened : NamedRecords H (s.getOrNewStateObject A).1 := hs.of_parts (nftAt_getOrNewStateObject A)
  have hopened' : Leveled (s.getOrNewStateObject A).1 :=
    (getOrNewStateObject_follows s A).leveled hleveled
  have hfound := getOrNewStateObject_found s₁ A
  have hnft : nftAt s₁ A = (s₁.getOrNewStateObject A).2.nft := by
    rw [← nftAt_getOrNewStateObject A]
    exact view_of_some _ hfound
  have hs₁ : NamedRecords H s₁ ∧
      (isOfficialNFT A = true → N = 0 ∨ NamesAddress H (nftAt s₁ A).metaURL A) := by
    split at hsplit
    next hoff =>
      refine ⟨splitNFT16_namedRecords hsplit hopened, fun _ => ?_⟩
      exact (hcarries hoff).imp_right fun hcarries => hcarries.named hoff hopened hopened' hsplit
    next hoff =>
      subst hsplit
      exact ⟨hopened, fun hoff' => absurd hoff' hoff⟩
  have howned := changeObjectOwner_namedRecords (hs₁.1.of_parts (nftAt_getOrNewStateObject A)) hfound
    (fun hoff => hnft ▸ hs₁.2 hoff)
  dsimp only at hmerge
  split at hmerge
  · exact mergeWalk_namedRecords howned hmerge
  · exact hmerge ▸ howned

/-! ## Exchanges -/

/-- An NFT that is named is traded in under its URL. -/
theorem exchangeNFTToCurrency_named {caller : Address} (hoff : isOfficialNFT A = true)
    (hcarries : Carries H s A level) (h : exchangeNFTToCurrency H s caller A bn level = some t)
    (hs : NamedRecords H s) (hleveled : Leveled s) (hqueue : NamedQueue H s) :
    NamedRecords H t ∧ NamedQueue H t := by
  obtain ⟨s₁, hsplit, hfound, rfl⟩ := exchangeNFTToCurrency_inv h
  have hnft : nftAt s₁ A = (s₁.getOrNewStateObject A).2.nft := by
    rw [← nftAt_getOrNewStateObject A]
    exact view_of_some _ (getOrNewStateObject_found s₁ A)
  constructor
  · have hopened : NamedRecords H
        (((s₁.getOrNewStateObject A).1.getOrNewStateObject caller).1.enqueue
          (exchangeEntry H A (s₁.getOrNewStateObject A).2 bn)) :=
      (splitNFT16_namedRecords hsplit hs).of_parts
        ((nftAt_getOrNewStateObject caller).trans (nftAt_getOrNewStateObject A))
    refine (cleanNFT_namedRecords hopened A (s₁.getOrNewStateObject A).2).of_parts ?_
    refine ((addBalance_steps _ _ _).sameNFTs fun hP => ?_).parts
    obtain ⟨b, rfl⟩ := hP
    rfl
  · intro e he
    rw [addBalance_pools] at he
    simp only [cleanNFT, setNFTInfo, change_pools, enqueue, getOrNewStateObject_pools,
      (splitNFT16_nftWrite hsplit).pools, List.mem_append, List.mem_singleton] at he
    rcases he with hold | rfl
    · exact hqueue e hold
    · show NamesAddress H (s₁.getOrNewStateObject A).2.nft.metaURL A
      rw [← hnft]
      exact hcarries.named hoff hs hleveled hsplit

/-! ## Mints -/

/-- A mint at an address that is a user's, or for nobody, or under a URL that names the address. -/
theorem written_namedRecords (hs : NamedRecords H s)
    (hi : isOfficialNFT A = true → i.owner ≠ 0 → NamesAddress H i.metaURL A) :
    NamedRecords H (s.written A i) :=
  hs.update (nftAt_written A i) hi

/-- The next leaf of the queue is the NFT that was traded in, if it goes to an owner. -/
def PopsOwn (bn : ℕ) (owner : Address) (p : Pools) : Prop :=
  ∀ head rest, p.snftExchangePool = head :: rest → head.blockNumber < bn →
    owner = 0 ∨ head.currentMintAddress = head.nftAddress

/-- The queue gives out no other leaves in a run of mints. -/
def RemintsOwn (bn : ℕ) : List Address → Pools → Prop
  | [], _ => True
  | owner :: owners, p =>
    PopsOwn bn owner p ∧ ∀ a q, nextMint p bn = some (a, q) → RemintsOwn bn owners q

/-- What the next mint takes from the queue, and what it leaves there. -/
theorem nextOfficial_popped (h : nextOfficial H s bn = some (s₁, A, info, true)) :
    ∃ head rest, s.pools.snftExchangePool = head :: rest ∧ head.blockNumber < bn ∧
      A = head.currentMintAddress ∧ info = head.toInjectedInfo ∧
      ∀ e ∈ s₁.pools.snftExchangePool, e ∈ rest ∨
        (e.toInjectedInfo = head.toInjectedInfo ∧ e.nftAddress = head.nftAddress) := by
  unfold nextOfficial at h
  cases hqueue : s.pools.snftExchangePool with
  | nil =>
    rw [hqueue] at h
    simp only [popAddress] at h
    split at h
    · cases h
    · cases h
  | cons head rest =>
    rw [hqueue] at h
    by_cases hlate : head.blockNumber ≥ bn
    · simp only [popAddress, if_pos hlate] at h
      split at h
      · cases h
      · cases h
    · simp only [popAddress, if_neg hlate] at h
      cases h
      refine ⟨head, rest, rfl, by omega, rfl, rfl, fun e he => ?_⟩
      simp only at he
      split at he
      · exact Or.inl he
      · rcases List.mem_cons.mp he with rfl | hmem
        · exact Or.inr ⟨rfl, rfl⟩
        · exact Or.inl hmem

/-- The next mint's URL names its address, if the queue does not give out another leaf. -/
theorem nextOfficial_named {popped : Bool} (h : nextOfficial H s bn = some (s₁, A, info, popped))
    (hqueue : NamedQueue H s) (hpops : PopsOwn bn owner s.pools) :
    (owner = 0 ∨ NamesAddress H info.metalUrl A) ∧ NamedQueue H s₁ := by
  cases popped with
  | true =>
    obtain ⟨head, rest, hhead, hblock, rfl, rfl, hleft⟩ := nextOfficial_popped h
    have hnamed : NamesAddress H head.metalUrl head.nftAddress :=
      hqueue head (hhead ▸ List.mem_cons_self)
    refine ⟨?_, fun e he => ?_⟩
    · rcases hpops head rest hhead hblock with hnobody | hown
      · exact Or.inl hnobody
      · exact Or.inr (hown ▸ hnamed)
    rcases hleft e he with hold | ⟨hinfo, haddr⟩
    · exact hqueue e (hhead ▸ List.mem_cons_of_mem head hold)
    · rw [hinfo, haddr]
      exact hnamed
  | false =>
    simp only [nextOfficial] at h
    split at h
    · cases h
    · split at h
      · cases h
      · cases h
        exact ⟨Or.inr (namesAddress_append _ _), hqueue⟩

theorem MintRound.named (h : MintRound H bn owner s t) (hs : NamedRecords H s)
    (hqueue : NamedQueue H s) (hpops : PopsOwn bn owner s.pools) :
    NamedRecords H t ∧ NamedQueue H t := by
  obtain ⟨s₁, A, info, popped, s₂, hnext, hmint, rfl⟩ := h
  obtain ⟨hurl, hqueue₁⟩ := nextOfficial_named hnext hqueue hpops
  have hs₁ : NamedRecords H s₁ := by
    obtain ⟨pool, rfl⟩ := nextOfficial_eq hnext
    exact hs
  have hs₂ : NamedRecords H s₂ :=
    mergeWalk_namedRecords (written_namedRecords hs₁
      fun _ howner => hurl.resolve_left howner) hmint
  have hqueue₂ : NamedQueue H s₂ := by
    unfold NamedQueue
    rw [mintOfficial_pools hmint]
    exact hqueue₁
  split
  · exact ⟨hs₂, hqueue₂⟩
  · exact ⟨hs₂, hqueue₂⟩

theorem mintLoop_named {full : Bool} (h : mintLoop H s bn owners = some (t, full))
    (hs : NamedRecords H s) (hqueue : NamedQueue H s) (hown : RemintsOwn bn owners s.pools) :
    NamedRecords H t ∧ NamedQueue H t := by
  induction owners generalizing s with
  | nil =>
    cases h
    exact ⟨hs, hqueue⟩
  | cons owner owners ih =>
    rcases mintLoop_cons h with ⟨-, rfl, -⟩ | ⟨u, hround, hrest⟩
    · exact ⟨hs, hqueue⟩
    · obtain ⟨hs', hqueue'⟩ := hround.named hs hqueue hown.1
      obtain ⟨a, hmintAt, -⟩ := hround.nextMint
      exact ih hrest hs' hqueue' (hown.2 a _ hmintAt)

theorem createNFTByOfficial16_named (h : createNFTByOfficial16 H s owners bn = some t)
    (hs : NamedRecords H s) (hqueue : NamedQueue H s) (hown : RemintsOwn bn owners s.pools) :
    NamedRecords H t ∧ NamedQueue H t := by
  obtain ⟨u, full, hloop, hend⟩ := createNFTByOfficial16_cases h
  obtain ⟨hu, hqueue'⟩ := mintLoop_named hloop hs hqueue hown
  rcases hend with rfl | helect
  · exact ⟨hu, hqueue'⟩
  · refine ⟨hu.of_parts ((electNominatedOfficialNFT_steps helect).sameNFTs fun hP => ?_).parts, ?_⟩
    · obtain ⟨x, rfl⟩ := hP
      rfl
    · obtain ⟨e, n, hpools⟩ := electNominatedOfficialNFT_pools helect
      unfold NamedQueue
      rw [hpools]
      exact hqueue'

end StateDB

end Wormholes
