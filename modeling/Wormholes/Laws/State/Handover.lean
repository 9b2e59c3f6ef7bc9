import Wormholes.Laws.State.Writes

/-!
# Laws.State.Handover — when a change of owner returns

Splitting and merging replace the last path component of a meta URL and panic on a URL that has no
path. `HandoverSafe` says of the state before a change of owner that neither meets such a URL: the
NFT that is split has a path, and where nothing is split an NFT that completes its family has one.
What a split writes and what a merge writes has a path again, so nothing later on the way panics.

Merging above level thirty-nine leaves the text no digits. An official address never has such a
level; the one merge that would reach it needs a level-thirty-nine NFT at address zero.
-/

namespace Wormholes

open Lib Lib.Forest Common

namespace StateDB

variable {H : Hasher} {s t u : StateDB} {A N : Address} {level : ℕ}
variable {k : ℕ} {S a : Address} {store : AccountNFT} {o : StateObject}

/-! ## The condition -/

/-- The NFT that is split on the way to a part of it, if there is one. -/
def splitStore (H : Hasher) (s : StateDB) (A : Address) (level : ℕ) : Option AccountNFT :=
  match getNFTStoreAddress16 H s A 0 with
  | none => none
  | some (S, _) =>
    if level < (nftAt s S).mergeLevel ∧
        shouldNFTAddr H S A (nftAt s S).mergeLevel level = A.string H then some (nftAt s S)
    else none

/-- The siblings of the NFT at an address exist, belong to `N` and have its merge level. -/
def FamilyComplete (s : StateDB) (A N : Address) : Prop :=
  ∀ i < 16, childAddr A (nftAt s A).mergeLevel i = A ∨
    (s.accounts (childAddr A (nftAt s A).mergeLevel i)).isSome ∧
      (nftAt s (childAddr A (nftAt s A).mergeLevel i)).owner = N ∧
        (nftAt s (childAddr A (nftAt s A).mergeLevel i)).mergeLevel = (nftAt s A).mergeLevel

/-- An NFT that is to be split has a path in its meta URL. -/
def SplitSafe (H : Hasher) (s : StateDB) (A : Address) (level : ℕ) : Prop :=
  ∀ store, splitStore H s A level = some store → '/' ∈ store.metaURL

/-- An NFT that is given to `N` without a split, and then merges, has a path in its meta URL. -/
def MergeSafe (H : Hasher) (s : StateDB) (A N : Address) (level : ℕ) : Prop :=
  splitStore H s A level = none → FamilyComplete s A N → '/' ∈ (nftAt s A).metaURL

/-- A change of the owner of an official NFT meets no meta URL without a path. -/
def HandoverSafe (H : Hasher) (s : StateDB) (A N : Address) (level : ℕ) : Prop :=
  isOfficialNFT A = true → SplitSafe H s A level ∧ MergeSafe H s A N level

/-! ## Addresses -/

theorem isOfficialNFT_childAddr {i : ℕ} (hk : k + 1 ≤ 39) (hi : i < 16)
    (hoff : isOfficialNFT A = true) : isOfficialNFT (childAddr A k i) = true :=
  isOfficialNFT_of_blockStart hk hoff (blockStart_childAddr A (by omega) hi)

theorem isOfficialNFT_blockAddr (hk : k ≤ 39) (hoff : isOfficialNFT A = true) :
    isOfficialNFT (blockAddr k A) = true := by
  refine isOfficialNFT_of_blockStart hk hoff ?_
  rw [toNat_blockAddr, blockStart_blockStart (by decide) (Nat.le_refl _)]

theorem ne_zero_of_official (hoff : isOfficialNFT A = true) : A ≠ 0 := by
  rintro rfl
  exact absurd hoff (by decide)

/-- The highest family starts at address zero. -/
theorem childAddr_top (A : Address) : childAddr A 39 0 = 0 := by
  have hstart : blockStart 16 40 A.toNat = 0 := by
    rw [blockStart, Nat.div_eq_of_lt (toNat_lt_pow A), Nat.zero_mul]
  simp [childAddr, hstart, bigToAddress]

theorem user_notMem_children {b : Address} (hk : k + 1 ≤ 39) (hoff : isOfficialNFT A = true)
    (hb : isOfficialNFT b = false) : b ∉ children A k := by
  intro hmem
  obtain ⟨i, hi, rfl⟩ := mem_children.mp hmem
  rw [isOfficialNFT_childAddr hk hi hoff] at hb
  cases hb

theorem self_mem_children (h : 16 ^ k ∣ A.toNat) : A ∈ children A k := by
  obtain ⟨i, hi, hA⟩ := exists_childAddr rfl
  rw [blockAddr_of_dvd h] at hA
  exact mem_children.mpr ⟨i, hi, hA.symm⟩

/-- A text that passes the comparison before a split ends in the level's zeros. -/
theorem dvd_of_shouldNFTAddr {m : ℕ} (hm : m ≤ 40) (hl : level ≤ m) (hS : 16 ^ m ∣ S.toNat)
    (h : shouldNFTAddr H S A m level = A.string H) : 16 ^ level ∣ A.toNat := by
  have hlen : ((S.string H).take (42 - m) ++
      ((A.string H).take (42 - level)).drop (42 - m)).length = 42 - level := by
    simp only [List.length_append, List.length_take, List.length_drop, Address.length_string]
    omega
  have htail : (A.checksumDigits H).drop (40 - level) = List.replicate level '0' := by
    rw [← Address.drop_string H A (by omega), ← h, shouldNFTAddr, List.drop_left' hlen,
      Address.drop_string H S (by omega)]
    exact drop_checksumDigits_of_dvd H (by omega) ((Nat.pow_dvd_pow 16 hl).trans hS)
  have hdigits : A.digits.drop (40 - level) = List.replicate level 0 := by
    have hspells := (Address.spells_checksumDigits H A).drop (40 - level)
    rw [htail] at hspells
    exact List.map_injective_iff.mpr (Option.some_injective ℕ)
      (hspells.symm.trans (Spells.zeros level))
  have hvalue := Address.ofDigitsBE_digits A
  rw [← List.take_append_drop (40 - level) A.digits, hdigits, ofDigitsBE_append_zeros] at hvalue
  exact ⟨_, (hvalue.symm.trans (Nat.mul_comm _ _))⟩

/-! ## Splitting -/

/-- What the lookup finds is the block around the address, of level six at most, and exists. -/
theorem getNFTStoreAddress16_block {O : Address} (h : getNFTStoreAddress16 H s A 0 = some (S, O)) :
    (nftAt s S).mergeLevel ≤ 6 ∧ S = blockAddr (nftAt s S).mergeLevel A ∧ (s.accounts S).isSome := by
  obtain ⟨l, hl, hpresent, -, hcov, rfl⟩ := getNFTStoreAddress16_eq_some_iff.mp h
  have hlevel := (covers_iff.mp hcov).1
  exact ⟨by omega, by rw [hlevel], hpresent l (Nat.le_refl l)⟩

theorem splitNFT16_of_none (h : splitStore H s A level = none) : splitNFT16 H s A level = some s := by
  unfold splitStore at h
  unfold splitNFT16
  cases hstore : getNFTStoreAddress16 H s A 0 with
  | none => rfl
  | some found =>
    obtain ⟨S, O⟩ := found
    rw [hstore] at h
    obtain ⟨-, -, hsome⟩ := getNFTStoreAddress16_block hstore
    obtain ⟨o, ho⟩ := Option.isSome_iff_exists.mp hsome
    have hnft : nftAt s S = o.nft := view_of_some _ ho
    simp only [hnft, ite_eq_right_iff, reduceCtorEq, imp_false, not_and] at h
    simp only [show s.getStateObject S = some o from ho]
    by_cases hle : o.nft.mergeLevel ≤ level
    · rw [if_pos hle]
    · rw [if_neg hle, if_pos (h (by omega))]

/-- The NFT that is split is found above the address, and the address starts a block of the level. -/
theorem splitStore_inv (h : splitStore H s A level = some store) :
    ∃ S o, s.accounts S = some o ∧ o.nft = store ∧ store.mergeLevel ≤ 6 ∧ level < store.mergeLevel ∧
      S = blockAddr store.mergeLevel A ∧ 16 ^ level ∣ A.toNat ∧
      splitNFT16 H s A level =
        (List.range (store.mergeLevel - level)).foldlM (splitRow H S A store) s := by
  unfold splitStore at h
  cases hstore : getNFTStoreAddress16 H s A 0 with
  | none =>
    rw [hstore] at h
    cases h
  | some found =>
    obtain ⟨S, O⟩ := found
    rw [hstore] at h
    obtain ⟨hsix, hS, hsome⟩ := getNFTStoreAddress16_block hstore
    obtain ⟨o, ho⟩ := Option.isSome_iff_exists.mp hsome
    have hnft : nftAt s S = o.nft := view_of_some _ ho
    rw [hnft] at hsix hS
    simp only [hnft, Option.ite_none_right_eq_some, Option.some.injEq] at h
    obtain ⟨⟨hlt, htext⟩, rfl⟩ := h
    have hdvd : 16 ^ o.nft.mergeLevel ∣ S.toNat := by
      rw [hS, toNat_blockAddr]
      exact dvd_blockStart 16 _ _
    refine ⟨S, o, ho, rfl, hsix, hlt, hS,
      dvd_of_shouldNFTAddr (by omega) (Nat.le_of_lt hlt) hdvd htext, ?_⟩
    unfold splitNFT16
    simp only [hstore, show s.getStateObject S = some o from ho]
    rw [if_neg (by omega), if_neg (not_not_intro htext)]

theorem retarget_eq_none {url : GoString} (a : Address) (h : '/' ∉ url) : retarget H url a = none :=
  Option.not_isSome_iff_eq_none.mp fun hsome => h (retarget_isSome_iff.mp hsome)

/-- Without a path the first row of a split panics. -/
theorem splitNFT16_eq_none (h : splitStore H s A level = some store)
    (hslash : '/' ∉ store.metaURL) : splitNFT16 H s A level = none := by
  obtain ⟨S, o, -, -, -, hlt, -, -, hsplit⟩ := splitStore_inv h
  have hput : ∀ k c, splitPut H store k s c = none := fun k c => by
    rw [splitPut, retarget_eq_none c hslash]
  have hrow : splitRow H S A store s 0 = none := by
    rw [splitRow, List.range_succ_eq_map, List.foldlM_cons, hput]
    rfl
  obtain ⟨n, hn⟩ := Nat.exists_eq_add_of_lt hlt
  rw [hsplit, show store.mergeLevel - level = n + 1 by omega, List.range_succ_eq_map,
    List.foldlM_cons, hrow]
  rfl

/-- What the rows of a split leave: the sixteen NFTs of the last row have a path and the row's
level, no account is lost, and user NFTs are not written. -/
structure Rows (s t : StateDB) (A : Address) (k : ℕ) : Prop where
  row : ∀ b ∈ children A k, (nftAt t b).mergeLevel = k ∧ '/' ∈ (nftAt t b).metaURL
  grows : ∀ b, (s.accounts b).isSome → (t.accounts b).isSome
  user : ∀ b, isOfficialNFT b = false → nftAt t b = nftAt s b

section

variable (hoff : isOfficialNFT A = true)
include hoff

theorem splitRow_rows {n : ℕ} (hm : store.mergeLevel ≤ 6)
    (hS : S = blockAddr store.mergeLevel A) (hslash : '/' ∈ store.metaURL)
    (hn : n < store.mergeLevel) :
    ∃ t, splitRow H S A store s n = some t ∧ Rows s t A (store.mergeLevel - (n + 1)) := by
  have hstart : S.toNat = blockStart 16 store.mergeLevel A.toNat := by rw [hS, toNat_blockAddr]
  have hsome : (splitRow H S A store s n).isSome := by
    rw [splitRow_eq (by omega) hstart hn]
    exact splitPuts_isSome hslash _ _
  obtain ⟨t, ht⟩ := Option.isSome_iff_exists.mp hsome
  have hwrite := splitRow_nftWrite ht
  refine ⟨t, ht, ?_⟩
  rw [splitRow_eq (by omega) hstart hn] at ht
  obtain ⟨hnft, hfound⟩ := splitPuts_inv ht
  refine ⟨fun b hb => ?_, fun b hb => hwrite.exist hb, fun b hb => ?_⟩
  · rw [hnft b, if_pos hb]
    exact ⟨rfl, (hfound b hb).2⟩
  · rw [hnft b, if_neg (user_notMem_children (by omega) hoff hb)]

/-- With a path the rows of a split are written down to the last one. -/
theorem splitRows {n : ℕ} (hm : store.mergeLevel ≤ 6)
    (hS : S = blockAddr store.mergeLevel A) (hslash : '/' ∈ store.metaURL)
    (hn : n < store.mergeLevel) :
    ∃ t, (List.range (n + 1)).foldlM (splitRow H S A store) s = some t ∧
      Rows s t A (store.mergeLevel - (n + 1)) := by
  induction n with
  | zero =>
    obtain ⟨t, ht, hrows⟩ := splitRow_rows hoff hm hS hslash hn
    exact ⟨t, by simpa using ht, hrows⟩
  | succ n ih =>
    obtain ⟨u, hu, hupper⟩ := ih (by omega)
    obtain ⟨t, ht, hrows⟩ := splitRow_rows (H := H) hoff hm hS hslash hn
    refine ⟨t, ?_, hrows.row, fun b hb => hrows.grows b (hupper.grows b hb),
      fun b hb => (hrows.user b hb).trans (hupper.user b hb)⟩
    rw [List.range_succ, List.foldlM_append, hu]
    simp [ht]

/-- With a path a split returns, and the NFT split off has a path. -/
theorem splitNFT16_rows (h : splitStore H s A level = some store)
    (hslash : '/' ∈ store.metaURL) :
    ∃ t, splitNFT16 H s A level = some t ∧ Rows s t A level ∧ A ∈ children A level := by
  obtain ⟨S, o, -, -, hsix, hlt, hS, hdvd, hsplit⟩ := splitStore_inv h
  obtain ⟨n, hn⟩ := Nat.exists_eq_add_of_lt hlt
  obtain ⟨t, ht, hrows⟩ := splitRows (n := n) hoff hsix hS hslash (by omega)
  rw [show store.mergeLevel - (n + 1) = level by omega] at hrows
  refine ⟨t, ?_, hrows, self_mem_children hdvd⟩
  rw [hsplit, show store.mergeLevel - level = n + 1 by omega, ht]

/-- A split panics exactly where the NFT it cuts has no path in its meta URL. -/
theorem splitNFT16_isSome_iff :
    (splitNFT16 H s A level).isSome ↔ SplitSafe H s A level := by
  cases hstore : splitStore H s A level with
  | none =>
    rw [splitNFT16_of_none hstore]
    exact ⟨fun _ store h => (by rw [hstore] at h; cases h), fun _ => rfl⟩
  | some store =>
    by_cases hslash : '/' ∈ store.metaURL
    · obtain ⟨t, ht, -, -⟩ := splitNFT16_rows hoff hstore hslash
      rw [ht]
      refine ⟨fun _ store' h => ?_, fun _ => rfl⟩
      cases hstore.symm.trans h
      exact hslash
    · rw [splitNFT16_eq_none hstore hslash]
      exact ⟨fun h => (by cases h), fun h => absurd (h store hstore) hslash⟩

end

/-! ## Merging -/

theorem mergeOnce_eq_none (hslash : '/' ∉ o.nft.metaURL) : s.mergeOnce H A o = none := by
  unfold mergeOnce
  split
  · rfl
  · split
    · rfl
    · simp only [retarget_eq_none _ hslash]

/-- No family of the highest level merges while address zero has no NFT of it. -/
theorem Merges.level_lt_of_top {w : Address} (h : Merges s t A k w)
    (htop : (nftAt s 0).mergeLevel ≠ 39) (hk : k ≤ 39) : k + 1 ≤ 39 := by
  by_contra hcon
  obtain rfl : k = 39 := by omega
  obtain ⟨-, -, hlevel⟩ := h.sibling 0 (by decide)
  rw [childAddr_top] at hlevel
  exact htop hlevel

/-- With a path the merges return: each one writes a path again. -/
theorem mergeWalk_isSome_of_path {calls : ℕ} (hoff : isOfficialNFT A = true)
    (hsome : (s.accounts A).isSome) (hlevel : (nftAt s A).mergeLevel ≤ 39)
    (htop : (nftAt s 0).mergeLevel ≠ 39) (hslash : '/' ∈ (nftAt s A).metaURL)
    (hcalls : 40 ≤ calls + (nftAt s A).mergeLevel) : (mergeWalk H calls s A).isSome := by
  induction calls generalizing s A with
  | zero => omega
  | succ calls ih =>
    obtain ⟨o, ho⟩ := Option.isSome_iff_exists.mp hsome
    have hnft : nftAt s A = o.nft := view_of_some _ ho
    rw [hnft] at hlevel hslash hcalls
    obtain ⟨can, hcan, -⟩ := isCanMergeNFT16_eq ho (by omega)
    rw [mergeWalk, hcan]
    cases can with
    | false => rfl
    | true =>
      obtain ⟨⟨u, P⟩, hmerge⟩ := Option.isSome_iff_exists.mp
        (mergeOnce_isSome ho (by omega) hcan hslash)
      obtain ⟨rfl, -, hmerges⟩ := merges_of_mergeOnce ho (by omega) hcan hmerge
      have hk := hmerges.level_lt_of_top htop hlevel
      simp only [show s.getStateObject A = some o from ho, hmerge]
      refine ih (isOfficialNFT_blockAddr hk hoff) hmerges.exists_parent ?_ ?_ hmerges.parent.2.2 ?_
      · rwa [hmerges.parent.2.1]
      · rwa [hmerges.kept 0 (user_notMem_children hk hoff (by decide))]
      · rw [hmerges.parent.2.1]
        omega

/-- The merges return unless the NFT completes its family and has no path. -/
theorem mergeNFT16_isSome_iff (hoff : isOfficialNFT A = true) (hsome : (s.accounts A).isSome)
    (hlevel : (nftAt s A).mergeLevel ≤ 39) (htop : (nftAt s 0).mergeLevel ≠ 39) :
    (s.mergeNFT16 H A).isSome ↔
      (FamilyComplete s A (nftAt s A).owner → '/' ∈ (nftAt s A).metaURL) := by
  by_cases hslash : '/' ∈ (nftAt s A).metaURL
  · exact iff_of_true (mergeWalk_isSome_of_path hoff hsome hlevel htop hslash (by omega))
      fun _ => hslash
  obtain ⟨o, ho⟩ := Option.isSome_iff_exists.mp hsome
  have hnft : nftAt s A = o.nft := view_of_some _ ho
  obtain ⟨can, hcan, hiff⟩ := isCanMergeNFT16_eq ho (by rw [hnft] at hlevel; omega)
  rw [← hnft] at hiff
  rw [mergeNFT16, mergeWalk, hcan]
  cases can with
  | false => exact iff_of_true rfl fun hfamily => absurd (hiff.mpr hfamily) Bool.false_ne_true
  | true =>
    rw [hnft] at hslash
    simp only [show s.getStateObject A = some o from ho, mergeOnce_eq_none hslash]
    refine iff_of_false Bool.false_ne_true fun h => hslash ?_
    rw [← hnft]
    exact h (hiff.mp rfl)

/-! ## Change of owner -/

/-- Writing the owner keeps the level and the URL of the NFT, every other NFT and which accounts
there are. -/
structure OwnerWritten (s t : StateDB) (A N : Address) : Prop where
  owner : (nftAt t A).owner = N
  level : (nftAt t A).mergeLevel = (nftAt s A).mergeLevel
  url : (nftAt t A).metaURL = (nftAt s A).metaURL
  kept : ∀ b, b ≠ A → nftAt t b = nftAt s b
  exists_iff : ∀ b, (t.accounts b).isSome ↔ (s.accounts b).isSome

theorem changeObjectOwner_written (ho : s.accounts A = some o) (N : Address) :
    OwnerWritten s (s.changeObjectOwner A o N) A N := by
  have hnft := nftAt_changeObjectOwner (N := N) ho
  have hself : nftAt s A = o.nft := view_of_some _ ho
  have hat := congrFun hnft A
  rw [Function.update_self] at hat
  refine ⟨?_, ?_, ?_, fun b hb => by rw [hnft, Function.update_of_ne hb], fun b => ?_⟩
  · rw [hat]
    split
    next heq => exact heq
    · rfl
  · rw [hat, hself]
    split <;> rfl
  · rw [hat, hself]
    split <;> rfl
  · refine ⟨fun h => ?_, fun h => (changeObjectOwner_nftWrite ho N).exist h⟩
    by_cases hb : b = A
    · subst hb
      rw [ho]
      rfl
    · unfold changeObjectOwner at h
      split at h
      · exact h
      · simpa [change, Accounts.set, hb] using h

theorem OwnerWritten.family_iff (h : OwnerWritten s t A N) :
    FamilyComplete t A (nftAt t A).owner ↔ FamilyComplete s A N := by
  unfold FamilyComplete
  rw [h.owner, h.level]
  refine forall_congr' fun i => imp_congr_right fun _ => ?_
  by_cases hself : childAddr A (nftAt s A).mergeLevel i = A
  · exact iff_of_true (Or.inl hself) (Or.inl hself)
  · rw [h.kept _ hself, h.exists_iff]

/-- Writing the owner of a found NFT and merging returns unless it completes a family without a
path. -/
theorem merged_isSome_iff (ho : s.accounts A = some o) (hoff : isOfficialNFT A = true)
    (hlevel : (nftAt s A).mergeLevel ≤ 39) (htop : (nftAt s 0).mergeLevel ≠ 39) :
    ((s.changeObjectOwner A o N).mergeNFT16 H A).isSome ↔
      (FamilyComplete s A N → '/' ∈ (nftAt s A).metaURL) := by
  have hwritten := changeObjectOwner_written ho N
  have hzero := hwritten.kept 0 (ne_zero_of_official hoff).symm
  have hsome : ((s.changeObjectOwner A o N).accounts A).isSome := by
    rw [hwritten.exists_iff, ho]
    rfl
  rw [mergeNFT16_isSome_iff hoff hsome (by rwa [hwritten.level]) (by rwa [hzero]),
    hwritten.family_iff, hwritten.url]

theorem changeNFTOwner_isSome_iff_of_found (ho : s.accounts A = some o)
    (hlevel : isOfficialNFT A = true → (nftAt s A).mergeLevel ≤ 39)
    (htop : (nftAt s 0).mergeLevel ≠ 39) :
    (s.changeNFTOwner H A N level).isSome ↔ HandoverSafe H s A N level := by
  simp only [changeNFTOwner, getOrNewStateObject_of_some ho]
  by_cases hoff : isOfficialNFT A = true
  · simp only [hoff, if_true]
    cases hstore : splitStore H s A level with
    | none =>
      simp only [splitNFT16_of_none hstore, getOrNewStateObject_of_some ho]
      rw [merged_isSome_iff ho hoff (hlevel hoff) htop]
      refine ⟨fun h _ => ⟨fun store hs => ?_, fun _ => h⟩, fun h => (h hoff).2 hstore⟩
      rw [hstore] at hs
      cases hs
    | some store =>
      by_cases hslash : '/' ∈ store.metaURL
      · -- the part split off has a path, so merging it returns
        obtain ⟨t, ht, hrows, hmem⟩ := splitNFT16_rows hoff hstore hslash
        obtain ⟨o', ho'⟩ := Option.isSome_iff_exists.mp (hrows.grows A (by rw [ho]; rfl))
        obtain ⟨hpart, hpath⟩ := hrows.row A hmem
        have hlow : level ≤ 39 := by
          obtain ⟨-, -, -, -, hsix, hlt, -⟩ := splitStore_inv hstore
          omega
        simp only [ht, getOrNewStateObject_of_some ho']
        refine iff_of_true ?_ fun _ => ⟨?_, fun hnone => ?_⟩
        · rw [merged_isSome_iff ho' hoff (by rwa [hpart]) (by rwa [hrows.user 0 (by decide)])]
          exact fun _ => hpath
        · exact (splitNFT16_isSome_iff hoff).mp (by rw [ht]; rfl)
        · rw [hstore] at hnone
          cases hnone
      · simp only [splitNFT16_eq_none hstore hslash]
        exact iff_of_false Bool.false_ne_true fun h => hslash ((h hoff).1 store hstore)
  · simp only [hoff]
    exact iff_of_true rfl fun h => absurd h hoff

/-- A change of owner returns exactly if it meets no meta URL without a path. -/
theorem changeNFTOwner_isSome_iff
    (hlevel : isOfficialNFT A = true → (nftAt s A).mergeLevel ≤ 39)
    (htop : (nftAt s 0).mergeLevel ≠ 39) :
    (s.changeNFTOwner H A N level).isSome ↔ HandoverSafe H (s.getOrNewStateObject A).1 A N level := by
  have hfound := getOrNewStateObject_found s A
  have hnft := nftAt_getOrNewStateObject (s := s) A
  have hopened : s.changeNFTOwner H A N level =
      (s.getOrNewStateObject A).1.changeNFTOwner H A N level := by
    simp only [changeNFTOwner, getOrNewStateObject_of_some hfound]
  rw [hopened]
  exact changeNFTOwner_isSome_iff_of_found hfound (by rwa [hnft]) (by rwa [hnft])

/-- Trading an official NFT for currency returns exactly if a split it needs does. -/
theorem exchangeNFTToCurrency_isSome_iff {caller : Address} {blocknumber : ℕ}
    (hoff : isOfficialNFT A = true) :
    (s.exchangeNFTToCurrency H caller A blocknumber level).isSome ↔ SplitSafe H s A level := by
  rw [← splitNFT16_isSome_iff hoff]
  unfold exchangeNFTToCurrency
  cases splitNFT16 H s A level with
  | none => exact Iff.rfl
  | some u => exact iff_of_true rfl rfl

/-! ## What the condition depends on -/

/-- The same NFTs at the same existing accounts. -/
structure SameParts (s t : StateDB) : Prop where
  parts : nftAt t = nftAt s
  exists_iff : ∀ b, (t.accounts b).isSome ↔ (s.accounts b).isSome

theorem SameParts.lookup_eq (h : SameParts s t) (calls : ℕ) (a : Address) (depth : ℕ) :
    storeWalk H t calls a depth = storeWalk H s calls a depth := by
  induction calls generalizing a depth with
  | zero => rfl
  | succ calls ih =>
    rw [storeWalk, storeWalk]
    split
    · rfl
    cases hs : s.getStateObject a with
    | none =>
      have ht : t.getStateObject a = none := by
        have hnone : ¬ (s.accounts a).isSome := by simp [show s.accounts a = none from hs]
        exact Option.not_isSome_iff_eq_none.mp ((h.exists_iff a).not.mpr hnone)
      rw [ht]
    | some o =>
      obtain ⟨o', ho'⟩ := Option.isSome_iff_exists.mp
        ((h.exists_iff a).mpr (Option.isSome_iff_exists.mpr ⟨o, hs⟩))
      have hnft : o'.nft = o.nft := by
        have hparts := congrFun h.parts a
        rwa [nftAt, nftAt, view_of_some _ ho', view_of_some _ hs] at hparts
      simp only [show t.getStateObject a = some o' from ho', hnft, ih]

theorem SameParts.splitStore_eq (h : SameParts s t) (A : Address) (level : ℕ) :
    splitStore H t A level = splitStore H s A level := by
  unfold splitStore getNFTStoreAddress16
  rw [h.lookup_eq, h.parts]

theorem SameParts.handoverSafe_iff (h : SameParts s t) :
    HandoverSafe H t A N level ↔ HandoverSafe H s A N level := by
  have hfamily : FamilyComplete t A N ↔ FamilyComplete s A N := by
    unfold FamilyComplete
    simp only [h.parts, h.exists_iff]
  unfold HandoverSafe SplitSafe MergeSafe
  rw [h.splitStore_eq, hfamily, h.parts]

/-! ## Opening accounts -/

/-- The state with an account at every listed address. -/
def opened (s : StateDB) (l : List Address) : StateDB :=
  l.foldl (fun s a => (s.getOrNewStateObject a).1) s

theorem nftAt_opened (s : StateDB) (l : List Address) : nftAt (s.opened l) = nftAt s := by
  induction l generalizing s with
  | nil => rfl
  | cons a l ih => exact (ih _).trans (nftAt_getOrNewStateObject a)

theorem SameParts.trans (h : SameParts s t) (h' : SameParts t u) : SameParts s u :=
  ⟨h'.parts.trans h.parts, fun b => (h'.exists_iff b).trans (h.exists_iff b)⟩

theorem SameParts.getOrNew (h : SameParts s t) (a : Address) :
    SameParts (s.getOrNewStateObject a).1 (t.getOrNewStateObject a).1 := by
  refine ⟨?_, fun b => ?_⟩
  · rw [nftAt_getOrNewStateObject, nftAt_getOrNewStateObject, h.parts]
  · rw [exists_getOrNewStateObject_iff, exists_getOrNewStateObject_iff, h.exists_iff]

theorem SameParts.opened (h : SameParts s t) (l : List Address) :
    SameParts (s.opened l) (t.opened l) := by
  induction l generalizing s t with
  | nil => exact h
  | cons a l ih => exact ih (h.getOrNew a)

theorem sameParts_addBalance (s : StateDB) (a : Address) (x : ℤ) :
    SameParts (s.getOrNewStateObject a).1 (s.addBalance a x) := by
  refine ⟨?_, fun b => ?_⟩
  · rw [nftAt_getOrNewStateObject]
    funext b
    exact (addBalance_steps s a x).view_eq (by rintro _ _ _ ⟨_, rfl⟩; rfl) b
  · have hfound := getOrNewStateObject_found s a
    unfold addBalance
    simp only
    split
    · split <;> rfl
    · exact exists_change_iff (by rw [hfound]; rfl)

theorem sameParts_subBalance (s : StateDB) (a : Address) (x : ℤ) :
    SameParts (s.getOrNewStateObject a).1 (s.subBalance a x) := by
  refine ⟨?_, fun b => ?_⟩
  · rw [nftAt_getOrNewStateObject]
    funext b
    exact (subBalance_steps s a x).view_eq (by rintro _ _ _ ⟨_, rfl⟩; rfl) b
  · have hfound := getOrNewStateObject_found s a
    unfold subBalance
    simp only
    split
    · rfl
    · exact exists_change_iff (by rw [hfound]; rfl)

theorem sameParts_addVoteWeight {x : ℤ} (h : s.addVoteWeight a x = some t) :
    SameParts (s.getOrNewStateObject a).1 t := by
  refine ⟨?_, fun b => ?_⟩
  · rw [nftAt_getOrNewStateObject]
    funext b
    exact (addVoteWeight_steps _ _ h).view_eq (by rintro _ _ _ ⟨_, rfl⟩; rfl) b
  · have hfound := getOrNewStateObject_found s a
    unfold addVoteWeight at h
    simp only at h
    split at h
    · cases h
      rfl
    · split at h
      · cases h
      · cases h
        exact exists_change_iff (by rw [hfound]; rfl)

/-- Adding to a vote weight returns exactly if there is nothing to add or a weight to add to. -/
theorem addVoteWeight_isSome_iff {x : ℤ} :
    (s.addVoteWeight a x).isSome ↔ x = 0 ∨ view (·.voteWeight) s a ≠ none := by
  have hview : view (·.voteWeight) s a = (s.getOrNewStateObject a).2.voteWeight := by
    rw [← view_getOrNewStateObject s a]
    exact view_of_some _ (getOrNewStateObject_found s a)
  rw [hview]
  unfold addVoteWeight
  by_cases hx : x = 0
  · simp [hx]
  · cases hw : (s.getOrNewStateObject a).2.voteWeight with
    | none => simp [hx, hw]
    | some v => simp [hx, hw]

end StateDB

end Wormholes
