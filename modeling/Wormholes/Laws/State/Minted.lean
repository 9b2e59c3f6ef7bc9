import Wormholes.Laws.State.Writes
import Wormholes.Laws.Types.Nft
import Wormholes.Lib.Lookup

/-!
# Laws.State.Minted — what a block's official mints leave

A mint writes an account anew and merges from there upwards, so the NFTs that a run of mints leaves are
not all of those that it wrote. Two things can be read off the state in which the run ends. The owner of
every leaf: that of the smallest NFT around it (`leafOwner`), which no merge changes. And the metadata of
the leaves that are still NFTs of their own (`Alone`): a merge clears a leaf or makes it the start of a
larger NFT, and leaves the others as they were written.
-/

namespace Wormholes.StateDB

open Lib Lib.Forest Common InjectedOfficialNFTList

variable {H : Hasher} {s t u : StateDB} {a b w x A owner : Address} {bn k calls : ℕ}
  {owners : List Address} {info : InjectedInfo} {full : Bool}

/-! ## Merges -/

/-- An owned NFT of level zero. -/
def Alone (s : StateDB) (a : Address) : Prop := (nftAt s a).mergeLevel = 0 ∧ (nftAt s a).owner ≠ 0

/-- Who owns a leaf: the owner of the smallest NFT stored around it, or zero. -/
def leafOwner (s : StateDB) (x : Address) : Address := (ownerAt 16 40 (forestOf s) x.toNat).getD 0

/-- What merging leaves as it is. -/
structure Settled (s t : StateDB) : Prop where
  alone : ∀ b, Alone t b → nftAt t b = nftAt s b
  unowned : ∀ b, (nftAt s b).owner = 0 → (nftAt t b).owner = 0
  owners : ∀ x, leafOwner t x = leafOwner s x

/-- Owners of leaves depend on the NFT parts only. -/
theorem leafOwner_congr (h : nftAt t = nftAt s) (x : Address) : leafOwner t x = leafOwner s x := by
  have hforest : forestOf t = forestOf s := forestOf_congr (fun a => by rw [h]) fun a => by rw [h]
  rw [leafOwner, hforest, leafOwner]

theorem settled_of_parts (h : nftAt t = nftAt s) : Settled s t where
  alone b _ := by rw [h]
  unowned b hb := by rw [h, hb]
  owners := leafOwner_congr h

theorem Settled.trans (h : Settled s t) (h' : Settled t u) : Settled s u where
  alone b hb := by
    have htu := h'.alone b hb
    refine htu.trans (h.alone b ?_)
    unfold Alone at hb ⊢
    rwa [htu] at hb
  unowned b hb := h'.unowned b (h.unowned b hb)
  owners x := (h'.owners x).trans (h.owners x)

theorem Merges.alone (h : Merges s t a k w) (hb : Alone t b) : nftAt t b = nftAt s b := by
  by_cases hmem : b ∈ children a k
  · by_cases hparent : b = blockAddr (k + 1) a
    · subst hparent
      exact absurd (h.parent.2.1.symm.trans hb.1) (Nat.succ_ne_zero k)
    · refine absurd ?_ hb.2
      rw [h.cleaned b hmem hparent]
      rfl
  · exact h.kept b hmem

theorem Merges.unowned (h : Merges s t a k w) (hb : (nftAt s b).owner = 0) : (nftAt t b).owner = 0 := by
  by_cases hmem : b ∈ children a k
  · by_cases hparent : b = blockAddr (k + 1) a
    · obtain ⟨-, hw, -⟩ := h.sibling 0 (by decide)
      rw [childAddr_zero, ← hparent, hb] at hw
      rw [hparent, h.parent.1, hw]
    · rw [h.cleaned b hmem hparent]
      rfl
  · rw [h.kept b hmem, hb]

/-- Blocks of nobody are not in the forest, so merging them does not change it. -/
theorem Merges.forestOf_of_nobody (h : Merges s t a k 0) : forestOf t = forestOf s := by
  funext n
  simp only [forestOf]
  split
  · by_cases hs : (nftAt s (bigToAddress n)).owner = 0
    · rw [AccountNFT.entry_eq_none_iff.mpr hs, AccountNFT.entry_eq_none_iff.mpr (h.unowned hs)]
    · rw [h.kept _ fun hmem => ?_]
      obtain ⟨i, hi, heq⟩ := mem_children.mp hmem
      exact hs (heq ▸ (h.sibling i hi).2.1)
  · rfl

theorem Merges.leafOwner (h : Merges s t a k w) (hk : k + 1 ≤ 40) (x : Address) :
    leafOwner t x = leafOwner s x := by
  by_cases hw : w = 0
  · subst hw
    rw [StateDB.leafOwner, h.forestOf_of_nobody, ← StateDB.leafOwner]
  · unfold StateDB.leafOwner
    congr 1
    ext o
    have hall : ∀ i < 16, forestOf s (blockStart 16 (k + 1) a.toNat + i * 16 ^ k) = some (k, w) := by
      intro i hi
      obtain ⟨-, howner, hlevel⟩ := h.sibling i hi
      rw [← toNat_childAddr a hk hi, forestOf_toNat]
      exact AccountNFT.entry_eq_some_iff.mpr ⟨hlevel, howner, hw⟩
    rw [ownerAt_eq_some_iff, ownerAt_eq_some_iff, h.forestOf_eq_join hk hw]
    exact yields_join_iff (by decide) (dvd_blockStart 16 (k + 1) a.toNat) hall hk trivial

theorem Merges.settled (h : Merges s t a k w) (hk : k + 1 ≤ 40) : Settled s t :=
  ⟨fun _ => h.alone, fun _ => h.unowned, h.leafOwner hk⟩

theorem mergeWalk_settled (h : mergeWalk H calls s a = some t) (hlevel : (nftAt s a).mergeLevel ≤ 40) :
    Settled s t := by
  induction calls generalizing s a with
  | zero => cases h
  | succ calls ih =>
    rcases mergeWalk_inv h with ⟨-, rfl⟩ | ⟨o, v, P, ho, hcan, hmerge, hrest⟩
    · exact settled_of_parts rfl
    · have hnft : nftAt s a = o.nft := view_of_some _ ho
      rw [hnft] at hlevel
      have hk := mergeOnce_level hlevel hmerge
      obtain ⟨rfl, -, hmerges⟩ := merges_of_mergeOnce ho hk hcan hmerge
      refine (hmerges.settled hk).trans (ih hrest ?_)
      rw [hmerges.parent.2.1]
      exact hk

/-! ## One mint -/

/-- A leaf that is nobody's: no NFT is stored at it or around it. -/
structure Vacant (s : StateDB) (a : Address) : Prop where
  unowned : (nftAt s a).owner = 0
  nobody : leafOwner s a = 0

/-- Recording a leaf that is nobody's changes no other leaf's owner. -/
theorem leafOwner_update {i : AccountNFT} (hi : i.mergeLevel = 0) (ha : Vacant s A)
    (hu : nftAt u = Function.update (nftAt s) A i) (x : Address) :
    leafOwner u x = if x = A then i.owner else leafOwner s x := by
  have hnone : forestOf s A.toNat = none := by
    rw [forestOf_toNat]
    exact AccountNFT.entry_eq_none_iff.mpr ha.unowned
  by_cases howner : i.owner = 0
  · have hsame : forestOf u = forestOf s := by
      rw [forestOf_update hu, AccountNFT.entry_eq_none_iff.mpr howner, ← hnone,
        Function.update_eq_self]
    rw [leafOwner, hsame, ← leafOwner]
    split_ifs with hx
    · rw [hx, ha.nobody, howner]
    · rfl
  · have hentry : i.entry = some (0, i.owner) := AccountNFT.entry_eq_some_iff.mpr ⟨hi, rfl, howner⟩
    have hreaches : Reaches 16 40 (fun _ => True) (forestOf s) A.toNat 0 x.toNat ↔ x = A := by
      constructor
      · rintro ⟨-, -, hstart⟩
        rw [blockStart_zero] at hstart
        exact BitVec.eq_of_toNat_eq hstart
      · rintro rfl
        exact ⟨Nat.zero_le _, ⟨fun _ _ => trivial, fun e he => absurd he (Nat.not_lt_zero e)⟩,
          blockStart_zero _ _⟩
    have hlevel : ∀ l p, forestOf s A.toNat = some (l, p) → l = 0 := by
      intro l p h
      cases hnone.symm.trans h
    have howns : ownerAt 16 40 (forestOf u) x.toNat =
        if x = A then some i.owner else ownerAt 16 40 (forestOf s) x.toNat := by
      ext o
      rw [ownerAt_eq_some_iff, forestOf_update hu, hentry, yields_update_iff hlevel,
        hreaches]
      split_ifs with hx
      · simp [hx, eq_comm]
      · simp [hx, ownerAt_eq_some_iff]
    unfold leafOwner
    rw [howns]
    split_ifs
    · rfl
    · rfl

/-- A round of the mint loop writes the leaf its pools give next and merges. -/
theorem mintRound_inv (h : MintRound H bn owner s t) :
    ∃ A info u, nextMint s.pools bn = some (A, t.pools) ∧
      nftAt u = Function.update (nftAt s) A (mintInfo owner info) ∧ Settled u t ∧
      (popAddress s.pools.snftExchangePool bn = none → A = bigToAddress s.pools.mintDeep.officialMint ∧
        ∃ e, getInjectedInfo s.pools.officialNFTPool A = some e ∧
          info = ⟨e.dir ++ '/' :: A.string H, e.royalty, e.creator⟩) := by
  obtain ⟨A, hnext', -⟩ := h.nextMint
  obtain ⟨s₁, A', info, popped, s₂, hnext, hmint, rfl⟩ := h
  obtain rfl : A' = A := by
    rw [nextMint_eq H, hnext] at hnext'
    exact (Prod.mk.inj (Option.some.inj hnext')).1
  have hs₁ : nftAt s₁ = nftAt s := by
    obtain ⟨queue, rfl⟩ := nextOfficial_eq hnext
    rfl
  have hu : nftAt (s₁.written A' (mintInfo owner info)) =
      Function.update (nftAt s) A' (mintInfo owner info) := by
    rw [nftAt_written, hs₁]
  have hsettled : Settled (s₁.written A' (mintInfo owner info)) s₂ := by
    refine mergeWalk_settled hmint ?_
    rw [hu, Function.update_self]
    exact Nat.zero_le _
  refine ⟨A', info, _, hnext', hu, hsettled.trans (settled_of_parts ?_), fun hpop => ?_⟩
  · cases popped with
    | true => rfl
    | false => rfl
  · simp only [nextOfficial, hpop] at hnext
    split at hnext
    · cases hnext
    next e he =>
      cases hnext
      exact ⟨rfl, e, he, rfl⟩

/-- A mint at one leaf leaves another vacant. -/
theorem Vacant.settled {i : AccountNFT} (hs : Vacant s a) (hA : Vacant s A) (hne : a ≠ A)
    (hi : i.mergeLevel = 0) (hu : nftAt u = Function.update (nftAt s) A i) (ht : Settled u t) :
    Vacant t a where
  unowned := ht.unowned a (by rw [hu, Function.update_of_ne hne, hs.unowned])
  nobody := by rw [ht.owners, leafOwner_update hi hA hu, if_neg hne, hs.nobody]

/-! ## Runs of mints -/

/-- A block's mints are its loop and perhaps an election, which is about votes and batches only. -/
theorem createNFTByOfficial16_inv (h : s.createNFTByOfficial16 H owners bn = some t) :
    ∃ u full, s.mintLoop H bn owners = some (u, full) ∧ nftAt t = nftAt u ∧
      t.pools.mintDeep = u.pools.mintDeep := by
  obtain ⟨u, full, hloop, hend⟩ := createNFTByOfficial16_cases h
  refine ⟨u, full, hloop, ?_⟩
  rcases hend with rfl | helect
  · exact ⟨rfl, rfl⟩
  · obtain ⟨e, n, hpools⟩ := electNominatedOfficialNFT_pools helect
    refine ⟨((electNominatedOfficialNFT_steps helect).sameNFTs fun hP => ?_).parts, by rw [hpools]⟩
    obtain ⟨x, rfl⟩ := hP
    rfl

/-- After a run of mints at vacant leaves, each of them belongs to the owner it was minted for, and no other
leaf has changed hands. -/
theorem mintLoop_leafOwner (hnodup : (upcoming bn owners.length s.pools).Nodup)
    (hvacant : ∀ a ∈ upcoming bn owners.length s.pools, Vacant s a)
    (h : s.mintLoop H bn owners = some (t, full)) :
    (upcoming bn owners.length s.pools).map (leafOwner t) =
        owners.take (upcoming bn owners.length s.pools).length ∧
      ∀ x ∉ upcoming bn owners.length s.pools, leafOwner t x = leafOwner s x := by
  induction owners generalizing s with
  | nil =>
    cases h
    exact ⟨rfl, fun _ _ => rfl⟩
  | cons owner owners ih =>
    rw [List.length_cons, upcoming] at hnodup hvacant ⊢
    rcases mintLoop_cons h with ⟨hnone, rfl, -⟩ | ⟨v, hround, hloop⟩
    · rw [nextMint_eq H, hnone]
      exact ⟨rfl, fun _ _ => rfl⟩
    · obtain ⟨A, _, u, hnext, hu, hsettled, -⟩ := mintRound_inv hround
      rw [hnext] at hnodup hvacant ⊢
      obtain ⟨hnew, hrest⟩ := List.nodup_cons.mp hnodup
      have hA := hvacant A List.mem_cons_self
      have howner := leafOwner_update rfl hA hu
      have hvacant' := fun a ha => (hvacant a (List.mem_cons_of_mem A ha)).settled hA
        (fun heq => hnew (heq ▸ ha)) rfl hu hsettled
      obtain ⟨hmap, hothers⟩ := ih hrest hvacant' hloop
      constructor
      · rw [List.map_cons, List.length_cons, List.take_succ_cons, hmap, hothers A hnew,
          hsettled.owners, howner, if_pos rfl]
        rfl
      · intro x hx
        obtain ⟨hxA, hxrest⟩ := not_or.mp (List.mem_cons.not.mp hx)
        rw [hothers x hxrest, hsettled.owners, howner, if_neg hxA]

/-- The owners of leaves after a block's mints: its election, if there is one, changes none. -/
theorem createNFTByOfficial16_leafOwner (hnodup : (upcoming bn owners.length s.pools).Nodup)
    (hvacant : ∀ a ∈ upcoming bn owners.length s.pools, Vacant s a)
    (h : s.createNFTByOfficial16 H owners bn = some t) :
    (upcoming bn owners.length s.pools).map (leafOwner t) =
        owners.take (upcoming bn owners.length s.pools).length ∧
      ∀ x ∉ upcoming bn owners.length s.pools, leafOwner t x = leafOwner s x := by
  obtain ⟨u, full, hloop, hparts, -⟩ := createNFTByOfficial16_inv h
  have hsame : leafOwner t = leafOwner u := funext (leafOwner_congr hparts)
  rw [hsame]
  exact mintLoop_leafOwner hnodup hvacant hloop

/-! ## Metadata -/

/-- The NFT stored at an address has the metadata of a batch. -/
structure FromBatch (H : Hasher) (s : StateDB) (a : Address) (e : InjectedOfficialNFT) : Prop where
  metaURL : (nftAt s a).metaURL = e.dir ++ '/' :: a.string H
  royalty : (nftAt s a).royalty = e.royalty
  creator : (nftAt s a).creator = hexToAddress e.creator

/-- A leaf that a run of mints does not write and that is an NFT of its own in the end is what it was. -/
theorem mintLoop_alone (hA : A ∉ upcoming bn owners.length s.pools)
    (h : s.mintLoop H bn owners = some (t, full)) (halone : Alone t A) : nftAt t A = nftAt s A := by
  have hkept : Alone t A → nftAt t A = nftAt s A := by
    refine mintLoop_upcoming (I := fun u => Alone u A → nftAt u A = nftAt s A) (C := fun a => a ≠ A)
      ?_ (fun a ha heq => hA (heq ▸ ha)) h fun _ => rfl
    intro owner u v a hround hnext _ hne ih hv
    obtain ⟨a', _, w, hnext', hw, hsettled, -⟩ := mintRound_inv hround
    obtain rfl : a' = a := (Prod.mk.inj (Option.some.inj (hnext'.symm.trans hnext))).1
    have hsame : nftAt v A = nftAt u A := by
      rw [hsettled.alone A hv, hw, Function.update_of_ne (Ne.symm hne)]
    refine hsame.trans (ih ?_)
    unfold Alone at hv ⊢
    rwa [hsame] at hv
  exact hkept halone

/-- The next mint takes its leaf from the counter once the queue has none. -/
theorem nextMint_of_drained {p q : Pools} (hpop : popAddress p.snftExchangePool bn = none)
    (h : nextMint p bn = some (a, q)) :
    a = bigToAddress p.mintDeep.officialMint ∧ q.snftExchangePool = p.snftExchangePool ∧
      q.mintDeep.officialMint = p.mintDeep.officialMint + 1 ∧
      q.officialNFTPool = deleteExpireElem p.officialNFTPool p.mintDeep.officialMint := by
  simp only [nextMint, hpop] at h
  split at h
  · cases h
  · cases h
    exact ⟨rfl, rfl, rfl, rfl⟩

theorem mem_upcoming_of_drained {p : Pools} (hpop : popAddress p.snftExchangePool bn = none)
    (ha : a ∈ upcoming bn k p) :
    ∃ n, p.mintDeep.officialMint ≤ n ∧ n < p.mintDeep.officialMint + k ∧ a = bigToAddress n := by
  induction k generalizing p with
  | zero => cases ha
  | succ k ih =>
    rw [upcoming] at ha
    split at ha
    · cases ha
    next A q hnext =>
      obtain ⟨rfl, hqueue, hcounter, -⟩ := nextMint_of_drained hpop hnext
      rcases List.mem_cons.mp ha with rfl | hrest
      · exact ⟨_, le_rfl, by omega, rfl⟩
      · obtain ⟨n, hle, hlt, rfl⟩ := ih (hqueue ▸ hpop) hrest
        exact ⟨n, by omega, by omega, rfl⟩

/-- The next mint leaves the counter to the queue as long as the queue has a leaf. -/
theorem nextMint_of_popped {p q : Pools} {r : Address × InjectedInfo × List SNFTExchange}
    (hpop : popAddress p.snftExchangePool bn = some r) (h : nextMint p bn = some (a, q)) :
    q.mintDeep = p.mintDeep ∧ q.officialNFTPool = p.officialNFTPool := by
  simp only [nextMint, hpop] at h
  cases h
  exact ⟨rfl, rfl⟩

/-- Every index that a run of mints takes from the counter is found in the pool the run starts with, and the
leaf has the metadata of the batch that is found, as long as it is an NFT of its own. -/
theorem mintLoop_fromBatch (hsize : s.pools.mintDeep.officialMint + owners.length ≤ 2 ^ 160)
    (h : s.mintLoop H bn owners = some (t, full)) :
    t.pools.mintDeep.officialMint ≤ s.pools.mintDeep.officialMint + owners.length ∧
      ∀ n, s.pools.mintDeep.officialMint ≤ n → n < t.pools.mintDeep.officialMint →
        ∃ e, getInjectedInfo s.pools.officialNFTPool (bigToAddress n) = some e ∧
          (Alone t (bigToAddress n) → FromBatch H t (bigToAddress n) e) := by
  induction owners generalizing s with
  | nil =>
    cases h
    exact ⟨by omega, fun n hn hlt => by omega⟩
  | cons owner owners ih =>
    rw [List.length_cons] at hsize ⊢
    rcases mintLoop_cons h with ⟨-, rfl, -⟩ | ⟨v, hround, hloop⟩
    · exact ⟨by omega, fun n hn hlt => by omega⟩
    · obtain ⟨A, _, u, hnext, hu, hsettled, hcounted⟩ := mintRound_inv hround
      cases hpop : popAddress s.pools.snftExchangePool bn with
      | some r =>
        obtain ⟨hdeep, hpool⟩ := nextMint_of_popped hpop hnext
        rw [← hdeep, ← hpool]
        obtain ⟨hle, hmints⟩ := ih (by rw [hdeep]; omega) hloop
        exact ⟨by omega, hmints⟩
      | none =>
        obtain ⟨rfl, hqueue, hcounter, hpool⟩ := nextMint_of_drained hpop hnext
        obtain ⟨-, e, he, rfl⟩ := hcounted hpop
        obtain ⟨hle, hmints⟩ := ih (by omega) hloop
        refine ⟨by omega, fun n hn hlt => ?_⟩
        rcases Nat.eq_or_lt_of_le hn with rfl | hlater
        · -- the leaf of this round: later rounds are at other leaves
          refine ⟨e, he, fun halone => ?_⟩
          have hnew : bigToAddress s.pools.mintDeep.officialMint ∉ upcoming bn owners.length v.pools := by
            intro hmem
            obtain ⟨m, hm, hm', heq⟩ := mem_upcoming_of_drained (hqueue ▸ hpop) hmem
            have hnat := congrArg BitVec.toNat heq
            rw [toNat_bigToAddress (by omega), toNat_bigToAddress (by omega)] at hnat
            omega
          have hsame := mintLoop_alone hnew hloop halone
          unfold Alone at halone
          rw [hsame] at halone
          rw [hsettled.alone _ halone, hu, Function.update_self] at hsame
          exact ⟨by rw [hsame]; rfl, by rw [hsame]; rfl, by rw [hsame]; rfl⟩
        · obtain ⟨e', he', hfrom⟩ := hmints n (by omega) hlt
          rw [hpool, getInjectedInfo_deleteExpireElem (by rw [toNat_bigToAddress (by omega)]; omega)]
            at he'
          exact ⟨e', he', hfrom⟩

end Wormholes.StateDB
