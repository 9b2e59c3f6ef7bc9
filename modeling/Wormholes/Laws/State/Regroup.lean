import Wormholes.Laws.State.Storage

/-!
# Laws.State.Regroup — splitting where only storage disjointness is known

A split follows the address' text down from the stored block. It does what was asked if and only
if the accounts it writes exist already, the two addresses' texts agree where the code compares
them, and the stored NFT's meta URL has a path (`splitNFT16_as_asked_iff`). The first condition is
about lookups: an account that the split creates makes a leaf findable that was not.
-/

namespace Wormholes

open Lib Lib.Forest Common

namespace StateDB

variable {H : Hasher} {s t u : StateDB} {a : Address}
variable {S b w : Address} {n m : ℕ}
variable {i k x : ℕ} {p : Address}
variable {store : AccountNFT} {l : ℕ}

/-! ## Rows of a split -/

/-- A row that was written has the stored part at its level. -/
theorem splitRow_part (hm : store.mergeLevel ≤ 40)
    (hS : S.toNat = blockStart 16 store.mergeLevel a.toNat) (hi : i < store.mergeLevel)
    (h : splitRow H S a store s i = some t) (hb : b ∈ children a (store.mergeLevel - (i + 1))) :
    nftAt t b = splitInfo H store (store.mergeLevel - (i + 1)) b := by
  rw [splitRow_eq hm hS hi] at h
  rw [(splitPuts_inv h).1 b, if_pos hb]

/-- Cutting a block of an official address is a cut of the official forest. -/
theorem Cuts.official (h : Cuts s t a k w p) (ha : isOfficialNFT a = true) (hk : k + 1 ≤ 39) :
    officialForest t =
      Forest.cut 16 (blockStart 16 (k + 1) a.toNat) k w (officialForest s) := by
  funext n
  unfold officialForest
  rw [h.forestOf_eq_cut (by omega), Forest.cut, Forest.cut]
  split
  · rfl
  next hn =>
    have hnot : ¬ ∃ i < 16, n = blockStart 16 (k + 1) a.toNat + i * 16 ^ k := by
      rintro ⟨i, hi, rfl⟩
      apply hn
      rw [← toNat_childAddr a (by omega) hi, ← isOfficialNFT_iff]
      exact MergesTo.mem_children_official hk ha (mem_children.mpr ⟨i, hi, rfl⟩)
    rw [if_neg hnot]

/-- `t` is `s` with the block of `store` around `a` cut on the way down to level `l`. -/
structure Carved (store : AccountNFT) (s t : StateDB) (a : Address) (l : ℕ) : Prop where
  disjoint : StorageDisjoint t
  block : Covers 16 (officialForest t) a.toNat l store.owner
  siblings : Completes 16 (officialForest t) a.toNat l store.owner store.mergeLevel
  outside : ∀ {x k o},
    blockStart 16 store.mergeLevel x ≠ blockStart 16 store.mergeLevel a.toNat →
      (Covers 16 (officialForest t) x k o ↔ Covers 16 (officialForest s) x k o)
  user : ∀ b, isOfficialNFT b = false → nftAt t b = nftAt s b
  exists_iff : ∀ b, (t.accounts b).isSome ↔
    (s.accounts b).isSome ∨ ∃ j, l ≤ j ∧ j < store.mergeLevel ∧ b ∈ children a j

theorem carved_self (hs : StorageDisjoint s)
    (hblock : Covers 16 (officialForest s) a.toNat store.mergeLevel store.owner) :
    Carved store s s a store.mergeLevel where
  disjoint := hs
  block := hblock
  siblings := completes_self _ _ _
  outside _ := Iff.rfl
  user _ _ := rfl
  exists_iff b := by
    refine ⟨Or.inl, fun h => h.elim id ?_⟩
    rintro ⟨j, hj, hlt, -⟩
    omega

theorem Carved.cut (h : Carved store s t a (k + 1)) (hcut : Cuts t u a k store.owner p)
    (ha : isOfficialNFT a = true) (hk : k + 1 ≤ 39) (hm : k + 1 ≤ store.mergeLevel)
    (hexists : ∀ b, (u.accounts b).isSome ↔ (t.accounts b).isSome ∨ b ∈ children a k) :
    Carved store s u a k := by
  have hforest := hcut.official ha hk
  have hrepl := h.disjoint.wellFormed.cut (by decide) h.block
  rw [← hforest] at hrepl
  refine ⟨storageDisjoint_of_wellFormed (hrepl.wellFormed h.disjoint.wellFormed),
    (hrepl.inside rfl).mpr rfl, ?_, fun {x j o} hx => ?_, fun b hb => ?_, fun b => ?_⟩
  · rw [hforest]
    exact completes_cut (by decide) (dvd_blockStart 16 (k + 1) _) rfl h.siblings
  · refine (hrepl.outside fun hin => hx ?_).trans (h.outside hx)
    rw [← blockStart_blockStart (by decide) hm x, hin, blockStart_blockStart (by decide) hm]
  · rw [hcut.kept b fun hmem => ?_, h.user b hb]
    rw [MergesTo.mem_children_official hk ha hmem] at hb
    cases hb
  · rw [hexists, h.exists_iff]
    constructor
    · rintro ((hold | ⟨j, hj, hlt, hmem⟩) | hmem)
      · exact Or.inl hold
      · exact Or.inr ⟨j, by omega, hlt, hmem⟩
      · exact Or.inr ⟨k, Nat.le_refl k, hm, hmem⟩
    · rintro (hold | ⟨j, hj, hlt, hmem⟩)
      · exact Or.inl (Or.inl hold)
      · rcases Nat.eq_or_lt_of_le hj with rfl | hj
        · exact Or.inr hmem
        · exact Or.inl (Or.inr ⟨j, hj, hlt, hmem⟩)

/-- The rows of a split, as many as asked for. -/
theorem splitRows_carved (hs : StorageDisjoint s) (ha : isOfficialNFT a = true)
    (hm : store.mergeLevel ≤ 39) (hS : S.toNat = blockStart 16 store.mergeLevel a.toNat)
    (hblock : Covers 16 (officialForest s) a.toNat store.mergeLevel store.owner)
    (hslash : '/' ∈ store.metaURL) (hn : n ≤ store.mergeLevel) :
    ∃ t, (List.range n).foldlM (splitRow H S a store) s = some t ∧
      Carved store s t a (store.mergeLevel - n) := by
  induction n with
  | zero => exact ⟨s, rfl, carved_self hs hblock⟩
  | succ n ih =>
    obtain ⟨u, hu, hcarved⟩ := ih (by omega)
    have hrow := splitRow_eq (H := H) (s := u) (by omega : store.mergeLevel ≤ 40) hS
      (by omega : n < store.mergeLevel)
    have hsome : ((children a (store.mergeLevel - (n + 1))).foldlM
        (splitPut H store (store.mergeLevel - (n + 1))) u).isSome := splitPuts_isSome hslash _ u
    obtain ⟨t, ht⟩ := Option.isSome_iff_exists.mp hsome
    have hexists := exists_splitPuts ht
    rw [← hrow] at ht
    refine ⟨t, ?_, ?_⟩
    · rw [List.range_succ, List.foldlM_append, hu]
      simp [ht]
    · have hcov := (covers_official_iff ha (by omega)).mp hcarved.block
      have hcuts := splitRow_cuts (by omega) hS (by omega) hcov ht
      rw [show store.mergeLevel - n = store.mergeLevel - (n + 1) + 1 by omega] at hcarved
      exact hcarved.cut hcuts ha (by omega) (by omega) hexists

/-- Writing a row needs a path in the meta URL. -/
theorem slash_of_splitRow (hm : store.mergeLevel ≤ 40)
    (hS : S.toNat = blockStart 16 store.mergeLevel a.toNat) (hi : i < store.mergeLevel)
    (h : splitRow H S a store s i = some t) : '/' ∈ store.metaURL := by
  rw [splitRow_eq hm hS hi] at h
  have hmem : childAddr a (store.mergeLevel - (i + 1)) 0 ∈ children a (store.mergeLevel - (i + 1)) :=
    mem_children.mpr ⟨0, by decide, rfl⟩
  have hslash := ((splitPuts_inv h).2 _ hmem).2
  unfold splitInfo at hslash
  cases hurl : retarget H store.metaURL (childAddr a (store.mergeLevel - (i + 1)) 0) with
  | none =>
    rw [hurl] at hslash
    cases hslash
  | some url => exact retarget_isSome_iff.mp (Option.isSome_iff_exists.mpr ⟨url, hurl⟩)

theorem splitRows_last (hn : 0 < n) (h : (List.range n).foldlM (splitRow H S a store) s = some t) :
    ∃ u, (List.range (n - 1)).foldlM (splitRow H S a store) s = some u ∧
      splitRow H S a store u (n - 1) = some t := by
  obtain ⟨n, rfl⟩ := Nat.exists_eq_succ_of_ne_zero hn.ne'
  exact splitRows_inv h

theorem slash_of_splitRows (hm : store.mergeLevel ≤ 40)
    (hS : S.toNat = blockStart 16 store.mergeLevel a.toNat) (hn : 0 < n)
    (hle : n ≤ store.mergeLevel) (h : (List.range n).foldlM (splitRow H S a store) s = some t) :
    '/' ∈ store.metaURL := by
  obtain ⟨u, -, hrow⟩ := splitRows_last hn h
  exact slash_of_splitRow hm hS (by omega) hrow

/-! ## A split and what was asked -/

/-- A stored NFT holds the leaf. -/
def Held (s : StateDB) (x : ℕ) : Prop :=
  ∃ b, Stored s b ∧ b.toNat ≤ x ∧ x < b.toNat + 16 ^ (nftAt s b).mergeLevel

theorem StorageDisjoint.held_iff (hs : StorageDisjoint s) :
    Held s x ↔ ∃ l o, Covers 16 (officialForest s) x l o := by
  constructor
  · rintro ⟨b, hb, hle, hlt⟩
    refine ⟨(nftAt s b).mergeLevel, (nftAt s b).owner, ?_⟩
    rw [Covers, blockStart_eq_of_mem (hs.aligned hb) hle hlt]
    exact officialForest_eq_some_iff.mpr ⟨b, rfl, hb, rfl, rfl⟩
  · rintro ⟨l, o, hcov⟩
    obtain ⟨b, hb, hstored, rfl, -⟩ := officialForest_eq_some_iff.mp hcov
    refine ⟨b, hstored, ?_, ?_⟩
    · rw [hb]
      exact blockStart_le 16 _ x
    · rw [hb]
      exact lt_blockStart_add (by decide) _ x

/-- Every account that a split from level `m` down to level `l` writes exists. -/
def RowsExist (s : StateDB) (a : Address) (l m : ℕ) : Prop :=
  ∀ j, l ≤ j → j < m → ∀ b ∈ children a j, (s.accounts b).isSome

theorem RowsExist.around (h : RowsExist s a l m) {e : ℕ} (hl : l ≤ e) (hm : e < m) :
    (s.accounts (blockAddr e a)).isSome := by
  obtain ⟨i, hi, heq⟩ := exists_childAddr rfl
  exact h e hl hm _ (mem_children.mpr ⟨i, hi, heq.symm⟩)

theorem RowsExist.onTheWay (h : RowsExist s a l m) (hl : 16 ^ l ∣ a.toNat) (hlm : l < m)
    (hstore : (s.accounts (blockAddr m a)).isSome) : OnTheWay s a m := by
  intro e he
  rcases Nat.lt_or_ge e l with hel | hel
  · have ha := h.around (Nat.le_refl l) hlm
    rw [blockAddr_of_dvd hl] at ha
    rwa [blockAddr_of_dvd ((Nat.pow_dvd_pow 16 (Nat.le_of_lt hel)).trans hl)]
  · rcases Nat.eq_or_lt_of_le he with rfl | hem
    · exact hstore
    · exact h.around hel hem

namespace Carved

variable {store : AccountNFT} {l : ℕ}

theorem held_iff (h : Carved store s t a l) (hs : StorageDisjoint s) (hl : l ≤ store.mergeLevel)
    (hblock : Covers 16 (officialForest s) a.toNat store.mergeLevel store.owner) :
    Held t x ↔ Held s x := by
  rw [h.disjoint.held_iff, hs.held_iff]
  by_cases hx : blockStart 16 store.mergeLevel x = blockStart 16 store.mergeLevel a.toNat
  · obtain ⟨d, -, -, hcov, -⟩ := h.siblings.covers (by decide) hl h.block hx
    exact iff_of_true ⟨d, _, hcov⟩ ⟨_, _, by rw [Covers, hx]; exact hblock⟩
  · exact exists_congr fun k => exists_congr fun o => h.outside hx

/-- Where the accounts existed, no lookup changes. -/
theorem found_iff (h : Carved store s t a l) (hs : StorageDisjoint s) (hl : l ≤ store.mergeLevel)
    (hm : store.mergeLevel ≤ 6)
    (hblock : Covers 16 (officialForest s) a.toNat store.mergeLevel store.owner)
    (hrows : RowsExist s a l store.mergeLevel)
    (hstore : (s.accounts (blockAddr store.mergeLevel a)).isSome) {x o : Address} :
    Found t x o ↔ Found s x o := by
  have hexists : ∀ b, (t.accounts b).isSome ↔ (s.accounts b).isSome := by
    intro b
    rw [h.exists_iff]
    refine ⟨fun hor => hor.elim id ?_, Or.inl⟩
    rintro ⟨j, hj, hlt, hmem⟩
    exact hrows j hj hlt b hmem
  have hway : ∀ {k}, OnTheWay t x k ↔ OnTheWay s x k := forall₂_congr fun _ _ => hexists _
  by_cases hx : isOfficialNFT x = true
  swap
  · exact found_congr_of_user (by simpa using hx) h.user hexists
  rw [h.disjoint.found_iff hx, hs.found_iff hx]
  by_cases hin : blockStart 16 store.mergeLevel x.toNat = blockStart 16 store.mergeLevel a.toNat
  · have hold : Covers 16 (officialForest s) x.toNat store.mergeLevel store.owner := by
      rw [Covers, hin]
      exact hblock
    obtain ⟨d, hd, hdm, hnew, hpath⟩ := h.siblings.covers (by decide) hl h.block hin
    constructor
    · rintro ⟨k, -, hk, hcov⟩
      obtain rfl := h.disjoint.wellFormed.once hcov hnew
      obtain rfl := h.disjoint.wellFormed.owner_unique ⟨_, hcov⟩ ⟨_, hnew⟩
      refine ⟨_, hm, fun e he => ?_, hold⟩
      rcases Nat.lt_or_ge k e with hlt | hge
      · -- above its own block the leaf shares the accounts around `a`
        have hsame : blockAddr e x = blockAddr e a := by
          unfold blockAddr
          rw [hpath e hlt he]
        rw [hsame]
        rcases Nat.eq_or_lt_of_le he with rfl | hem
        · exact hstore
        · exact hrows.around (by omega) hem
      · exact hway.mp hk e hge
    · rintro ⟨k, -, hk, hcov⟩
      obtain rfl := hs.wellFormed.once hcov hold
      obtain rfl := hs.wellFormed.owner_unique ⟨_, hcov⟩ ⟨_, hold⟩
      exact ⟨d, by omega, fun e he => hway.mpr hk e (by omega), hnew⟩
  · exact exists_congr fun k => and_congr_right fun _ => and_congr hway (h.outside hin)

/-- An account that a split creates beside the way down makes its leaf findable. -/
theorem found_created (h : Carved store s t a l) (hm : store.mergeLevel ≤ 6) {j : ℕ} (hj : l ≤ j)
    (hlt : j < store.mergeLevel) (hb : b ∈ children a j) (hne : b ≠ blockAddr j a)
    (ha : isOfficialNFT a = true) : Found t b store.owner := by
  obtain ⟨i, hi, rfl⟩ := mem_children.mp hb
  have hoff := MergesTo.mem_children_official (by omega) ha hb
  have hdvd : 16 ^ j ∣ (childAddr a j i).toNat := by
    rw [toNat_childAddr a (by omega) hi]
    exact dvd_child (dvd_blockStart 16 (j + 1) _) i
  refine (h.disjoint.found_iff hoff).mpr ⟨j, by omega, fun e he => ?_, ?_⟩
  · rw [blockAddr_of_dvd ((Nat.pow_dvd_pow 16 he).trans hdvd), h.exists_iff]
    exact Or.inr ⟨j, hj, hlt, hb⟩
  · rw [Covers, blockStart_self (by decide) hdvd, toNat_childAddr a (by omega) hi]
    refine h.siblings j hj hlt i hi fun heq => hne (BitVec.eq_of_toNat_eq ?_)
    rw [toNat_childAddr a (by omega) hi, heq, toNat_blockAddr]

end Carved

/-- The lookup finds the block around an address if and only if the accounts on the way exist. -/
theorem StorageDisjoint.store_iff (hs : StorageDisjoint s) (ha : isOfficialNFT a = true)
    (hm : m ≤ 6) (hblock : Covers 16 (officialForest s) a.toNat m w) {O : Address} :
    getNFTStoreAddress16 H s a 0 = some (S, O) ↔
      OnTheWay s a m ∧ S = blockAddr m a ∧ O = w := by
  have hcov := (covers_official_iff ha (by omega)).mp hblock
  rw [getNFTStoreAddress16_eq_some_iff]
  constructor
  · rintro ⟨l, hl, hway, -, hfound, hS⟩
    rw [← covers_official_iff ha (by omega)] at hfound
    obtain rfl := hs.wellFormed.once hfound hblock
    exact ⟨hway, hS, hs.wellFormed.owner_unique ⟨_, hfound⟩ ⟨_, hblock⟩⟩
  · rintro ⟨hway, rfl, rfl⟩
    refine ⟨m, hm, hway, fun e he o hlower => ?_, hcov, rfl⟩
    rw [← covers_official_iff ha (by omega)] at hlower
    exact absurd (hs.wellFormed.once hlower hblock) (Nat.ne_of_lt he)

/-- A split either runs its rows on the block around the address or does nothing. -/
theorem splitNFT16_cases (hs : StorageDisjoint s) (ha : isOfficialNFT a = true) (hm : m ≤ 6)
    (hlm : l < m) (hblock : Covers 16 (officialForest s) a.toNat m w) :
    (OnTheWay s a m ∧ shouldNFTAddr H (blockAddr m a) a m l = a.string H ∧
      splitNFT16 H s a l = (List.range (m - l)).foldlM
        (splitRow H (blockAddr m a) a (nftAt s (blockAddr m a))) s) ∨
    (¬ (OnTheWay s a m ∧ shouldNFTAddr H (blockAddr m a) a m l = a.string H) ∧
      splitNFT16 H s a l = some s) := by
  have hlevel := (covers_iff.mp ((covers_official_iff ha (by omega)).mp hblock)).1
  by_cases hway : OnTheWay s a m
  · have hstore := (hs.store_iff (H := H) ha hm hblock).mpr ⟨hway, rfl, rfl⟩
    obtain ⟨o, ho⟩ := Option.isSome_iff_exists.mp (hway m (Nat.le_refl m))
    have hnft : nftAt s (blockAddr m a) = o.nft := view_of_some _ ho
    rw [hnft] at hlevel
    have hunfold : splitNFT16 H s a l =
        if shouldNFTAddr H (blockAddr m a) a m l ≠ a.string H then some s
        else (List.range (m - l)).foldlM (splitRow H (blockAddr m a) a o.nft) s := by
      unfold splitNFT16
      simp only [hstore, show s.getStateObject (blockAddr m a) = some o from ho, hlevel,
        if_neg (Nat.not_le.mpr hlm)]
    by_cases htext : shouldNFTAddr H (blockAddr m a) a m l = a.string H
    · refine Or.inl ⟨hway, htext, ?_⟩
      rw [hunfold, if_neg (not_not_intro htext), hnft]
    · refine Or.inr ⟨fun h => htext h.2, ?_⟩
      rw [hunfold, if_pos htext]
  · refine Or.inr ⟨fun h => hway h.1, ?_⟩
    cases hstore : getNFTStoreAddress16 H s a 0 with
    | none =>
      unfold splitNFT16
      rw [hstore]
    | some r =>
      obtain ⟨S, O⟩ := r
      exact absurd ((hs.store_iff ha hm hblock).mp hstore).1 hway

/-- After a split the address has an NFT of the wanted level, the stored NFTs partition the same
leaves as before, and every leaf has the owner it had. -/
def SplitAsAsked (H : Hasher) (s : StateDB) (a : Address) (l : ℕ) : Prop :=
  ∃ t, splitNFT16 H s a l = some t ∧ (Stored t a ∧ (nftAt t a).mergeLevel = l) ∧
    (StorageDisjoint t ∧ ∀ x, Held t x ↔ Held s x) ∧
      ∀ x, getNFTOwner16 H t x = getNFTOwner16 H s x

/-- A split of the NFT stored at `S`, down to the NFT of level `l` at `a` inside it, does what is asked
exactly if the accounts of the rows on the way exist, the text computed for `a` is the address' own text
and the stored meta URL has a directory. -/
theorem splitNFT16_as_asked_iff {S : Address} {l : ℕ} (hs : StorageDisjoint s)
    (ha : isOfficialNFT a = true) (hl : 16 ^ l ∣ a.toNat) (hS : Stored s S)
    (hlo : S.toNat ≤ a.toNat) (hhi : a.toNat < S.toNat + 16 ^ (nftAt s S).mergeLevel)
    (hlm : l < (nftAt s S).mergeLevel) (hm : (nftAt s S).mergeLevel ≤ 6) :
    SplitAsAsked H s a l ↔
      RowsExist s a l (nftAt s S).mergeLevel ∧
        shouldNFTAddr H S a (nftAt s S).mergeLevel l = a.string H ∧
          '/' ∈ (nftAt s S).metaURL := by
  have hstart := blockStart_eq_of_mem (hs.aligned hS) hlo hhi
  have hSeq : blockAddr (nftAt s S).mergeLevel a = S := by
    apply BitVec.eq_of_toNat_eq
    rw [toNat_blockAddr, hstart]
  have hblock : Covers 16 (officialForest s) a.toNat (nftAt s S).mergeLevel (nftAt s S).owner := by
    rw [Covers, hstart]
    exact officialForest_eq_some_iff.mpr ⟨S, rfl, hS, rfl, rfl⟩
  have hsome : (s.accounts (blockAddr (nftAt s S).mergeLevel a)).isSome := by
    rw [hSeq]
    exact isSome_of_owner hS.2
  have hcases := splitNFT16_cases (H := H) hs ha hm hlm hblock
  rw [hSeq] at hcases
  constructor
  · rintro ⟨t, ht, ⟨hstored, hlevel⟩, -, howners⟩
    rcases hcases with ⟨hway, htext, hrun⟩ | ⟨-, hsame⟩
    · rw [hrun] at ht
      have hslash := slash_of_splitRows (by omega) hstart.symm (by omega) (by omega) ht
      refine ⟨?_, htext, hslash⟩
      obtain ⟨t', ht', hcarved⟩ := splitRows_carved (H := H) (n := (nftAt s S).mergeLevel - l) hs ha
        (by omega) hstart.symm hblock hslash (by omega)
      obtain rfl : t = t' := Option.some.inj (ht.symm.trans ht')
      rw [show (nftAt s S).mergeLevel - ((nftAt s S).mergeLevel - l) = l by omega] at hcarved
      intro j hj hlt b hb
      by_contra hnone
      by_cases hpath : b = blockAddr j a
      · exact hnone (hpath ▸ hway j (by omega))
      · have hnew := (getNFTOwner16_eq_iff_found (H := H) hS.2).mpr
          (hcarved.found_created hm hj hlt hb hpath ha)
        have hold : getNFTOwner16 H s b = 0 := by
          refine getNFTOwner16_eq_zero_of_not_found ?_
          rintro o ⟨k, -, hk, -⟩
          exact hnone (by simpa using hk 0 (Nat.zero_le k))
        exact hS.2 (hnew.symm.trans ((howners b).trans hold))
    · -- nothing happened, so the address has no NFT of its own
      obtain rfl : t = s := Option.some.inj (ht.symm.trans hsame)
      have hself := hs.wellFormed.covers_start (by decide)
        (officialForest_eq_some_iff.mpr ⟨a, rfl, hstored, rfl, rfl⟩)
      have := hs.wellFormed.once hself hblock
      omega
  · rintro ⟨hrows, htext, hslash⟩
    have hway := hrows.onTheWay hl hlm hsome
    rcases hcases with ⟨-, -, hrun⟩ | ⟨hnot, -⟩
    · obtain ⟨t, ht, hcarved⟩ := splitRows_carved (H := H) (n := (nftAt s S).mergeLevel - l) hs ha
        (by omega) hstart.symm hblock hslash (by omega)
      rw [show (nftAt s S).mergeLevel - ((nftAt s S).mergeLevel - l) = l by omega] at hcarved
      refine ⟨t, hrun.trans ht, ?_, ⟨hcarved.disjoint, fun x => ?_⟩, fun x => ?_⟩
      · have hentry := hcarved.block
        rw [Covers, blockStart_self (by decide) hl] at hentry
        obtain ⟨b, hb, hstored, hlevel, -⟩ := officialForest_eq_some_iff.mp hentry
        obtain rfl := BitVec.eq_of_toNat_eq hb
        exact ⟨hstored, hlevel⟩
      · exact hcarved.held_iff hs (by omega) hblock
      · exact getNFTOwner16_congr fun o => hcarved.found_iff hs (by omega) hm hblock hrows hsome
    · exact absurd ⟨hway, htext⟩ hnot

/-- The address `0xa00…0`. -/
def lettered : Address := bigToAddress (10 * 16 ^ 39)

/-- One NFT of level one at `0xa00…0`, and the accounts of its leaves. -/
def bundle : StateDB where
  accounts b :=
    if b = lettered then
      some { StateObject.fresh with
        nft := { AccountNFT.blank with owner := 5, mergeLevel := 1, metaURL := ['/'] } }
    else if blockAddr 1 b = lettered then some StateObject.fresh
    else none
  journal := []
  validRevisions := []
  nextRevisionId := 0
  pools :=
    { mintDeep := ⟨1, officialMask⟩, snftExchangePool := [], pledgedTokenPool := [],
      exchangerTokenPool := [], activeMinersPool := [], officialNFTPool := [],
      nominatedOfficialNFT := none }

theorem eq_lettered_of_stored (h : Stored bundle b) : b = lettered := by
  by_contra hne
  refine h.2 ?_
  unfold nftAt view
  simp only [bundle, if_neg hne]
  split
  next o ho =>
    split at ho
    · cases ho
      rfl
    · cases ho
  next => rfl

theorem bundle_storageDisjoint : StorageDisjoint bundle where
  aligned h := by
    rw [eq_lettered_of_stored h]
    decide +kernel
  disjoint ha hb hab := by
    exact absurd ((eq_lettered_of_stored ha).trans (eq_lettered_of_stored hb).symm) hab

theorem bundle_rowsExist (h : blockAddr 1 b = lettered) : RowsExist bundle b 0 1 := by
  intro j _ hj c hc
  obtain rfl : j = 0 := by omega
  obtain ⟨i, hi, rfl⟩ := mem_children.mp hc
  have hstart : blockAddr 1 (childAddr b 0 i) = lettered := by
    rw [← h]
    unfold blockAddr
    rw [blockStart_childAddr b (by decide) hi]
  by_cases hself : childAddr b 0 i = lettered
  · simp [bundle, hself]
  · simp [bundle, hself, hstart]

/-- A merged NFT whose address has letters, to be split down to its second leaf. -/
theorem splitNFT16_as_asked_bundle :
    Stored bundle lettered ∧
      (SplitAsAsked ⟨fun _ => []⟩ bundle (lettered + 1) 0 ↔
        RowsExist bundle (lettered + 1) 0 (nftAt bundle lettered).mergeLevel ∧
          shouldNFTAddr ⟨fun _ => []⟩ lettered (lettered + 1) (nftAt bundle lettered).mergeLevel 0 =
            (lettered + 1).string ⟨fun _ => []⟩ ∧
          '/' ∈ (nftAt bundle lettered).metaURL) := by
  have hS : Stored bundle lettered := ⟨by decide +kernel, by decide +kernel⟩
  exact ⟨hS, splitNFT16_as_asked_iff bundle_storageDisjoint (by decide +kernel) (one_dvd _) hS
    (by decide +kernel) (by decide +kernel) (by decide +kernel) (by decide +kernel)⟩

/-- A digest under which the text of an address that ends in `0` starts with an upper-case letter,
and no other. -/
def mixedCase : Hasher := ⟨fun text => if text.getLast? = some '0' then [255] else []⟩

/-- The block's text has an upper-case letter where the leaf's has a lower-case one, and the split
silently does nothing. -/
theorem splitNFT16_ignored :
    StorageDisjoint bundle ∧ Stored bundle lettered ∧ (nftAt bundle lettered).mergeLevel = 1 ∧
      RowsExist bundle (lettered + 1) 0 1 ∧ '/' ∈ (nftAt bundle lettered).metaURL ∧
        (splitNFT16 mixedCase bundle (lettered + 1) 0).map
          (fun t => (nftAt t (lettered + 1)).owner) = some 0 ∧
            ¬ SplitAsAsked mixedCase bundle (lettered + 1) 0 := by
  have hrun : (splitNFT16 mixedCase bundle (lettered + 1) 0).map
      (fun t => (nftAt t (lettered + 1)).owner) = some 0 := by decide +kernel
  refine ⟨bundle_storageDisjoint, ⟨by decide +kernel, by decide +kernel⟩, by decide +kernel,
    bundle_rowsExist (by decide +kernel), by decide +kernel, hrun, ?_⟩
  rintro ⟨t, ht, ⟨hstored, -⟩, -⟩
  rw [ht, Option.map_some, Option.some.injEq] at hrun
  exact hstored.2 hrun

end StateDB

end Wormholes
