import Wormholes.Laws.Types.Nft
import Wormholes.Laws.State.Minted

/-!
# Laws.State.Supply — exchanged leaves, batches and elections over whole runs of mints

Three laws of the official supply, each with the defect that limits it.

- An exchange puts one entry at the end of the queue, and later pops give back exactly its leaves
  if and only if it is a single leaf (`exchange_remints_iff`).
- Batches go from the pool only once the counter has passed them, so what matters for a leaf's metadata is
  the lookup: a leaf has its own batch's unless another batch stops at its index
  (`officialMints_ownBatch_iff`).
- The count of the indices left is right if and only if the gaps to later batches vanish in
  `uint64`; and an election follows a low count only if there was an address for every owner
  (`remainingSupply_iff`).
-/

namespace Wormholes.StateDB

open Common InjectedOfficialNFT InjectedOfficialNFTList

variable {H : Hasher} {s t : StateDB} {blocknumber : ℕ}
variable {s' u : StateDB} {nftAddr : Address} {info : InjectedInfo} {owners : List Address}
  {full : Bool}

/-- A state with no account, nothing minted and the given batches. -/
def stocked (list : List InjectedOfficialNFT) : StateDB where
  accounts := fun _ => none
  journal := []
  validRevisions := []
  nextRevisionId := 0
  pools :=
    { mintDeep := ⟨1, officialMask⟩, snftExchangePool := [], pledgedTokenPool := [],
      exchangerTokenPool := [], activeMinersPool := [], officialNFTPool := list,
      nominatedOfficialNFT := none }

/-- The first official NFT, of the given level and with owner `5`. -/
def stored (level : ℕ) : StateDB :=
  (stocked []).putNFTInfo (bigToAddress officialMask)
    { AccountNFT.blank with owner := 5, mergeLevel := level, metaURL := ['/'] }

/-! ## Exchanged leaves -/

/-- An exchange puts one entry into the queue, for the NFT's address and the block it was made in. The
queue mints each of the NFT's leaves again once, and no other, exactly if it was a single leaf. -/
theorem exchange_remints_iff {address nftaddress : Address} {level : ℕ}
    (h : s.exchangeNFTToCurrency H address nftaddress blocknumber level = some t) :
    ∃ e : SNFTExchange, t.pools.snftExchangePool = s.pools.snftExchangePool ++ [e] ∧
      e.nftAddress = nftaddress ∧ e.currentMintAddress = nftaddress ∧
      e.blockNumber = blocknumber ∧ (RemintsExactly e ↔ e.mergeLevel = 0) := by
  obtain ⟨s₁, hsplit, -, rfl⟩ := exchangeNFTToCurrency_inv h
  refine ⟨exchangeEntry H nftaddress (s₁.getOrNewStateObject nftaddress).2 blocknumber, ?_, rfl,
    rfl, rfl, remintsExactly_iff rfl⟩
  rw [addBalance_pools]
  simp only [cleanNFT, setNFTInfo, change_pools, enqueue, getOrNewStateObject_pools,
    (splitNFT16_nftWrite hsplit).pools]

/-- A single leaf is exchanged. -/
theorem exchange_remints_leaf :
    ∃ (t : StateDB) (e : SNFTExchange),
      (stored 0).exchangeNFTToCurrency ⟨fun _ => []⟩ 5 (bigToAddress officialMask) 7 0 = some t ∧
        t.pools.snftExchangePool = (stored 0).pools.snftExchangePool ++ [e] ∧
          e.nftAddress = bigToAddress officialMask ∧
            e.currentMintAddress = bigToAddress officialMask ∧ e.blockNumber = 7 ∧
              (RemintsExactly e ↔ e.mergeLevel = 0) := by
  obtain ⟨t, ht⟩ : ∃ t, (stored 0).exchangeNFTToCurrency ⟨fun _ => []⟩ 5
      (bigToAddress officialMask) 7 0 = some t :=
    Option.isSome_iff_exists.mp (by decide +kernel)
  obtain ⟨e, he⟩ := exchange_remints_iff ht
  exact ⟨t, e, ht, he⟩

/-- An exchanged NFT of level one has sixteen leaves; the queue's seventeenth pop gives the leaf
behind them, and the entry stays. -/
theorem exchange_levelOne_remints_beyond :
    ∃ (t : StateDB) (e : SNFTExchange),
      (stored 1).exchangeNFTToCurrency ⟨fun _ => []⟩ 5 (bigToAddress officialMask) 7 1 = some t ∧
        t.pools.snftExchangePool = [e] ∧ e.nftAddress = bigToAddress officialMask ∧
          e.mergeLevel = 1 ∧
            popMany [e] (List.replicate 17 8) =
              some ((List.range 17).map fun i => bigToAddress (officialMask + i), [e.after 17]) := by
  have hqueue : ((stored 1).exchangeNFTToCurrency ⟨fun _ => []⟩ 5
      (bigToAddress officialMask) 7 1).map (fun t => t.pools.snftExchangePool) =
        some [{ nftAddress := bigToAddress officialMask, mergeLevel := 1,
                currentMintAddress := bigToAddress officialMask, blockNumber := 7,
                metalUrl := ['/'], royalty := 0, creator := Address.string ⟨fun _ => []⟩ 0 }] := by
    decide +kernel
  obtain ⟨t, ht, hpool⟩ := Option.map_eq_some_iff.mp hqueue
  exact ⟨t, _, ht, hpool, rfl, rfl, by decide +kernel⟩

/-! ## Mints from the counter -/

/-- A leaf's index is in a batch of the pool, and the leaf has this batch's metadata as long as it is an NFT
of its own. -/
def OwnBatch (H : Hasher) (pool : List InjectedOfficialNFT) (t : StateDB) (a : Address) : Prop :=
  ∃ e ∈ pool, indexOf a ∈ e.indices ∧ (Alone t a → FromBatch H t a e)

/-- The first batch that stops at a leaf's index, if there is one, has the metadata of a batch that holds
it. -/
def Clear (pool : List InjectedOfficialNFT) (a : Address) : Prop :=
  ∀ e, pool.find? (fun e => e.stop = indexOf a) = some e →
    ∃ e' ∈ pool, indexOf a ∈ e'.indices ∧ SameMetadata e e'

theorem FromBatch.congr {a : Address} {e e' : InjectedOfficialNFT} (h : FromBatch H t a e)
    (hsame : SameMetadata e e') : FromBatch H t a e' := by
  obtain ⟨hdir, hroyalty, hcreator⟩ := hsame
  exact ⟨hdir ▸ h.metaURL, hroyalty ▸ h.royalty, hcreator ▸ h.creator⟩

theorem FromBatch.same {a : Address} {e e' : InjectedOfficialNFT} (h : FromBatch H t a e)
    (h' : FromBatch H t a e') : SameMetadata e e' :=
  ⟨List.append_cancel_right (h.metaURL.symm.trans h'.metaURL), h.royalty.symm.trans h'.royalty,
    h.creator.symm.trans h'.creator⟩

/-- A block mints from a pool of consecutive batches. Each leaf it takes from the counter has its own batch
in the state the block leaves, unless another batch that stops at its index differs from it; and a leaf that
is still an NFT of its own has its own batch only then. The counter does not wrap: it counts addresses. -/
theorem officialMints_ownBatch_iff (hpool : Consecutive s.pools.officialNFTPool)
    (hsize : s.pools.mintDeep.officialMint + owners.length ≤ 2 ^ 160)
    (h : s.createNFTByOfficial16 H owners blocknumber = some t) {n : ℕ}
    (hn : s.pools.mintDeep.officialMint ≤ n) (hlt : n < t.pools.mintDeep.officialMint) :
    (Clear s.pools.officialNFTPool (bigToAddress n) →
        OwnBatch H s.pools.officialNFTPool t (bigToAddress n)) ∧
      (Alone t (bigToAddress n) → OwnBatch H s.pools.officialNFTPool t (bigToAddress n) →
        Clear s.pools.officialNFTPool (bigToAddress n)) := by
  obtain ⟨u, full, hloop, hparts, hdeep⟩ := createNFTByOfficial16_inv h
  obtain ⟨e, he, hfrom⟩ := (mintLoop_fromBatch hsize hloop).2 n hn (hdeep ▸ hlt)
  replace hfrom : Alone t (bigToAddress n) → FromBatch H t (bigToAddress n) e := by
    intro halone
    unfold Alone at halone
    rw [hparts] at halone
    obtain ⟨hurl, hroyalty, hcreator⟩ := hfrom halone
    exact ⟨hparts ▸ hurl, hparts ▸ hroyalty, hparts ▸ hcreator⟩
  rw [getInjectedInfo_eq hpool] at he
  unfold OwnBatch Clear
  cases hstop : s.pools.officialNFTPool.find? (fun e => e.stop = indexOf (bigToAddress n)) with
  | some e₀ =>
    -- the batch that stops at the index is found in place of the one that holds it
    rw [hstop, Option.some_or] at he
    cases he
    constructor
    · intro hclear
      obtain ⟨e', he', hin, hsame⟩ := hclear e rfl
      exact ⟨e', he', hin, fun halone => (hfrom halone).congr hsame⟩
    · rintro halone ⟨e', he', hin, hfrom'⟩ _ ⟨⟩
      exact ⟨e', he', hin, (hfrom halone).same (hfrom' halone)⟩
  | none =>
    rw [hstop, Option.none_or] at he
    have hin : indexOf (bigToAddress n) ∈ e.indices := by simpa using List.find?_some he
    exact ⟨fun _ => ⟨e, List.mem_of_find?_eq_some he, hin, hfrom⟩, fun _ _ e' he' => by cases he'⟩

/-- A batch of one index. -/
def single (startIndex : ℤ) (royalty : ℕ) : InjectedOfficialNFT :=
  { dir := [], startIndex := startIndex, number := 1, royalty := royalty, creator := [] }

/-- Two batches of two indices each and two mints: the second leaf has the first batch's royalty. -/
theorem officialMints_ownBatch_second :
    ∃ t, (stocked [{ single 0 1 with number := 2 }, { single 2 2 with number := 2 }]).createNFTByOfficial16
        ⟨fun _ => []⟩ [5, 6] 7 = some t ∧
      t.pools.mintDeep.officialMint = officialMask + 2 ∧
      Alone t (bigToAddress (officialMask + 1)) ∧ (nftAt t (bigToAddress (officialMask + 1))).royalty = 1 ∧
      OwnBatch ⟨fun _ => []⟩ [{ single 0 1 with number := 2 }, { single 2 2 with number := 2 }] t
        (bigToAddress (officialMask + 1)) := by
  obtain ⟨t, ht, hvalues⟩ := Option.map_eq_some_iff.mp (show
    ((stocked [{ single 0 1 with number := 2 }, { single 2 2 with number := 2 }]).createNFTByOfficial16
      ⟨fun _ => []⟩ [5, 6] 7).map (fun t => (t.pools.mintDeep.officialMint,
        (nftAt t (bigToAddress (officialMask + 1))).mergeLevel,
        (nftAt t (bigToAddress (officialMask + 1))).owner,
        (nftAt t (bigToAddress (officialMask + 1))).royalty)) = some (officialMask + 2, 0, 6, 1) from by
    decide +kernel)
  obtain ⟨hcounter, hlevel, howner, hroyalty⟩ : _ ∧ _ ∧ _ ∧ _ := by simpa only [Prod.mk.injEq] using hvalues
  refine ⟨t, ht, hcounter, ⟨hlevel, by rw [howner]; decide⟩, hroyalty, ?_⟩
  refine (officialMints_ownBatch_iff ?_ (by decide) ht (n := officialMask + 1) (Nat.le_succ _)
    (by rw [hcounter]; exact Nat.lt_succ_self _)).1 ?_
  · exact List.isChain_cons_cons.mpr ⟨rfl, List.isChain_singleton _⟩
  · intro e he
    have hnone : [{ single 0 1 with number := 2 }, { single 2 2 with number := 2 }].find? (fun e =>
        e.stop = indexOf (bigToAddress (officialMask + 1))) = none := by decide +kernel
    cases hnone.symm.trans he

/-- Two batches of one index each and three mints. The second leaf has the first batch's royalty, and the
third, whose index is in no batch, the second's. -/
theorem officialMints_boundary :
    ∃ t, Consecutive (stocked [single 0 1, single 1 2]).pools.officialNFTPool ∧
      (stocked [single 0 1, single 1 2]).createNFTByOfficial16 ⟨fun _ => []⟩ [5, 6, 7] 7 = some t ∧
      t.pools.mintDeep.officialMint = officialMask + 3 ∧
      (nftAt t (bigToAddress (officialMask + 1))).royalty = 1 ∧
      (nftAt t (bigToAddress (officialMask + 2))).royalty = 2 ∧
      ¬ OwnBatch ⟨fun _ => []⟩ [single 0 1, single 1 2] t (bigToAddress (officialMask + 1)) ∧
      ¬ OwnBatch ⟨fun _ => []⟩ [single 0 1, single 1 2] t (bigToAddress (officialMask + 2)) := by
  obtain ⟨t, ht, hvalues⟩ := Option.map_eq_some_iff.mp (show
    ((stocked [single 0 1, single 1 2]).createNFTByOfficial16 ⟨fun _ => []⟩ [5, 6, 7] 7).map (fun t =>
      (t.pools.mintDeep.officialMint, (nftAt t (bigToAddress (officialMask + 1))).mergeLevel,
        (nftAt t (bigToAddress (officialMask + 1))).owner,
        (nftAt t (bigToAddress (officialMask + 1))).royalty,
        (nftAt t (bigToAddress (officialMask + 2))).royalty)) = some (officialMask + 3, 0, 6, 1, 2) from by
    decide +kernel)
  obtain ⟨hcounter, hlevel, howner, hsecond, hthird⟩ : _ ∧ _ ∧ _ ∧ _ ∧ _ := by
    simpa only [Prod.mk.injEq] using hvalues
  refine ⟨t, List.isChain_cons_cons.mpr ⟨rfl, List.isChain_singleton _⟩, ht, hcounter, hsecond, hthird,
    ?_, ?_⟩
  · rintro ⟨e, he, hin, hfrom⟩
    have hroyalty := (hfrom ⟨hlevel, by rw [howner]; decide⟩).royalty
    rw [hsecond] at hroyalty
    rcases List.mem_pair.mp he with rfl | rfl
    · exact absurd hin (by decide +kernel)
    · exact absurd hroyalty (by decide)
  · rintro ⟨e, he, hin, -⟩
    rcases List.mem_pair.mp he with rfl | rfl
    · exact absurd hin (by decide +kernel)
    · exact absurd hin (by decide +kernel)

/-! ## The supply that is left -/

theorem electNominatedOfficialNFT_ne (s : StateDB) : s.electNominatedOfficialNFT ≠ some s := by
  intro h
  obtain ⟨e, n, hpools⟩ := electNominatedOfficialNFT_pools h
  have hlen := congrArg (fun p => p.officialNFTPool.length) hpools
  simp at hlen

/-- A call that minted to `u` elects a batch if and only if its loop ran to the end and the count is
low. -/
theorem createNFTByOfficial16_elects_iff
    (hloop : s.mintLoop H blocknumber owners = some (u, full)) :
    s.createNFTByOfficial16 H owners blocknumber = u.electNominatedOfficialNFT ↔
      full = true ∧ remainderNum u.pools.officialNFTPool u.pools.mintDeep.officialMint ≤ 110 := by
  have hne := u.electNominatedOfficialNFT_ne.symm
  cases full with
  | false => simpa [createNFTByOfficial16, hloop] using hne
  | true =>
    by_cases hlow : remainderNum u.pools.officialNFTPool u.pools.mintDeep.officialMint ≤ 110
    · simp [createNFTByOfficial16, hloop, hlow]
    · simpa [createNFTByOfficial16, hloop, hlow] using hne

/-- The loop runs to its end if and only if there is an address for every owner. -/
theorem mintLoop_full_iff (hloop : s.mintLoop H blocknumber owners = some (u, full)) :
    full = true ↔ (upcoming blocknumber owners.length s.pools).length = owners.length := by
  induction owners generalizing s with
  | nil =>
    cases hloop
    exact iff_of_true rfl rfl
  | cons owner owners ih =>
    rcases mintLoop_cons hloop with ⟨hnone, rfl, rfl⟩ | ⟨v, hround, hrest⟩
    · simp [upcoming, nextMint_eq H, hnone]
    · obtain ⟨a, hmintAt, -⟩ := hround.nextMint
      simp only [ih hrest, List.length_cons, upcoming, hmintAt, Nat.add_right_cancel_iff]

/-- The count of the indices left in separate batches is right exactly if what it counts twice vanishes
in `uint64`. Both the count is right and an election is held exactly when at most 110 indices are left,
if besides every owner of the block got an NFT or more than 110 are left. -/
theorem remainingSupply_iff {list : List InjectedOfficialNFT} {counter : ℕ}
    (hlist : Separate list) (hcard : (remaining list counter).card < 2 ^ 64) :
    (remainderNum list counter = (remaining list counter).card ↔
      2 ^ 64 ∣ overcount list counter) ∧
    ∀ {s u : StateDB} {owners : List Address} {full : Bool},
      s.mintLoop H blocknumber owners = some (u, full) → u.pools.officialNFTPool = list →
      u.pools.mintDeep.officialMint = counter →
      ((remainderNum list counter = (remaining list counter).card ∧
          (s.createNFTByOfficial16 H owners blocknumber = u.electNominatedOfficialNFT ↔
            (remaining list counter).card ≤ 110)) ↔
        2 ^ 64 ∣ overcount list counter ∧
          ((upcoming blocknumber owners.length s.pools).length = owners.length ∨
            110 < (remaining list counter).card)) := by
  have hcount := remainderNum_eq_card_iff hlist hcard
  refine ⟨hcount, fun {s u owners full} hloop hpool hcounter => ?_⟩
  rw [createNFTByOfficial16_elects_iff hloop, ← mintLoop_full_iff hloop, hpool, hcounter, ← hcount]
  refine and_congr_right fun heq => ?_
  rw [heq]
  cases full <;> simp

/-- Batches of two and three indices. -/
def twoBatches : List InjectedOfficialNFT :=
  [{ single 0 1 with number := 2 }, { single 2 2 with number := 3 }]

/-- The first index of the two batches is minted. -/
def begun : StateDB :=
  { stocked twoBatches with
    pools := { (stocked twoBatches).pools with mintDeep := ⟨1, officialMask + 1⟩ } }

/-- A mint for one owner uses up the first batch. The three indices of the second one are counted, and
an election follows. -/
theorem remainingSupply_second :
    ∃ u, begun.mintLoop ⟨fun _ => []⟩ 7 [5] = some (u, true) ∧
      remainderNum twoBatches (officialMask + 2) = 3 ∧
      begun.createNFTByOfficial16 ⟨fun _ => []⟩ [5] 7 = u.electNominatedOfficialNFT := by
  have hlist : Separate twoBatches := List.pairwise_pair.mpr (by decide)
  have hcount : (remaining twoBatches (officialMask + 2)).card = 3 := by decide +kernel
  obtain ⟨⟨u, full⟩, hu, hvalues⟩ := Option.map_eq_some_iff.mp (show
    (begun.mintLoop ⟨fun _ => []⟩ 7 [5]).map (fun r =>
      (r.2, r.1.pools.officialNFTPool, r.1.pools.mintDeep.officialMint)) =
        some (true, twoBatches, officialMask + 2) from by decide +kernel)
  obtain ⟨rfl, hpool, hcounter⟩ : _ ∧ _ ∧ _ := by simpa only [Prod.mk.injEq] using hvalues
  have hsupply := (remainingSupply_iff hlist (by rw [hcount]; decide)).2 hu hpool hcounter
  obtain ⟨hremainder, helects⟩ := hsupply.mpr ⟨by decide +kernel, Or.inl (by decide +kernel)⟩
  exact ⟨u, hu, hremainder.trans hcount, helects.mpr (by rw [hcount]; decide)⟩

/-- Batches of sixty and forty indices, none minted: the count says a hundred and sixty, and no
election follows. -/
theorem remainderNum_counts_gap :
    ∃ list : List InjectedOfficialNFT,
      Consecutive list ∧ (remaining list officialMask).card = 100 ∧
        remainderNum list officialMask = 160 ∧
          (stocked list).createNFTByOfficial16 ⟨fun _ => []⟩ [] 7 = some (stocked list) := by
  refine ⟨[{ single 0 1 with number := 60 }, { single 60 1 with number := 40 }], ?_,
    by decide +kernel, by decide +kernel, ?_⟩
  · exact List.isChain_cons_cons.mpr ⟨rfl, List.isChain_singleton _⟩
  · rfl

end Wormholes.StateDB
