import Wormholes.Laws.State.Split

/-!
# Laws.State.Storage — merging where only storage disjointness is known

`StorageDisjoint` says of a state no more than that the official NFTs it stores cover aligned
intervals that do not meet. It does not say that the accounts on the way from a leaf to its block
exist or that meta URLs have a path. The owner lookup is read off the blocks
around a leaf (`Found`), and a merge step's effect on it follows from the blocks alone: as long as
no block of level seven arises, every lookup finds the owner it found before
(`mergeNFT16_keeps_owners_iff`).
-/

namespace Wormholes

open Lib Lib.Forest Common

namespace StateDB

variable {H : Hasher} {s t u : StateDB} {a : Address}
variable {l calls : ℕ} {o x : Address}

/-! ## Storage disjointness -/

/-- The NFT at an official address has an owner. -/
def Stored (s : StateDB) (a : Address) : Prop := isOfficialNFT a = true ∧ (nftAt s a).owner ≠ 0

/-- The stored official NFTs cover aligned intervals that are pairwise disjoint. -/
structure StorageDisjoint (s : StateDB) : Prop where
  aligned : ∀ {a}, Stored s a → 16 ^ (nftAt s a).mergeLevel ∣ a.toNat
  disjoint : ∀ {a b}, Stored s a → Stored s b → a ≠ b →
    a.toNat + 16 ^ (nftAt s a).mergeLevel ≤ b.toNat ∨
      b.toNat + 16 ^ (nftAt s b).mergeLevel ≤ a.toNat

/-- The blocks recorded at official addresses. -/
def officialForest (s : StateDB) : Forest Address := fun n =>
  if 2 ^ 159 ≤ n then forestOf s n else none

/-- The forest of the official NFTs has the stored ones at their addresses. -/
theorem officialForest_eq_some_iff {n : ℕ} :
    officialForest s n = some (l, o) ↔
      ∃ a, a.toNat = n ∧ Stored s a ∧ (nftAt s a).mergeLevel = l ∧ (nftAt s a).owner = o := by
  unfold officialForest forestOf
  constructor
  · intro h
    split at h
    next hoff =>
      split at h
      next hlt =>
        obtain ⟨hlevel, howner, hne⟩ := AccountNFT.entry_eq_some_iff.mp h
        refine ⟨bigToAddress n, toNat_bigToAddress hlt, ⟨?_, howner ▸ hne⟩, hlevel, howner⟩
        rw [isOfficialNFT_iff, toNat_bigToAddress hlt]
        exact hoff
      next => cases h
    next => cases h
  · rintro ⟨a, rfl, ⟨hoff, hne⟩, rfl, rfl⟩
    rw [if_pos (isOfficialNFT_iff.mp hoff), if_pos a.isLt, bigToAddress_toNat]
    exact AccountNFT.entry_eq_some_iff.mpr ⟨rfl, rfl, hne⟩

/-- Stored NFTs that do not overlap are a well-formed forest of blocks, and the other way round. -/
theorem StorageDisjoint.wellFormed (h : StorageDisjoint s) : WellFormed 16 (officialForest s) where
  aligned := by
    intro A l o hA
    obtain ⟨a, rfl, hstored, rfl, -⟩ := officialForest_eq_some_iff.mp hA
    exact h.aligned hstored
  once := by
    intro x l k o o' hl hk
    obtain ⟨a, ha, hastored, rfl, -⟩ := officialForest_eq_some_iff.mp hl
    obtain ⟨b, hb, hbstored, rfl, -⟩ := officialForest_eq_some_iff.mp hk
    by_cases hab : a = b
    · rw [hab]
    · -- both intervals hold `x`
      exfalso
      have ha1 := blockStart_le 16 (nftAt s a).mergeLevel x
      have ha2 := lt_blockStart_add (b := 16) (by decide) (nftAt s a).mergeLevel x
      have hb1 := blockStart_le 16 (nftAt s b).mergeLevel x
      have hb2 := lt_blockStart_add (b := 16) (by decide) (nftAt s b).mergeLevel x
      rw [← ha] at ha1 ha2
      rw [← hb] at hb1 hb2
      rcases h.disjoint hastored hbstored hab with hlt | hlt
      · omega
      · omega

theorem storageDisjoint_of_wellFormed (h : WellFormed 16 (officialForest s)) : StorageDisjoint s := by
  have hentry : ∀ {a}, Stored s a →
      officialForest s a.toNat = some ((nftAt s a).mergeLevel, (nftAt s a).owner) := by
    intro a ha
    exact officialForest_eq_some_iff.mpr ⟨a, rfl, ha, rfl, rfl⟩
  constructor
  · intro a ha
    exact h.aligned (hentry ha)
  · intro a b ha hb hab
    refine h.disjoint (by decide) (hentry ha) (hentry hb) fun heq => hab ?_
    exact BitVec.eq_of_toNat_eq heq

theorem Stored.level_le (ha : Stored s a) (haligned : 16 ^ (nftAt s a).mergeLevel ∣ a.toNat) :
    (nftAt s a).mergeLevel ≤ 39 := by
  by_contra hcon
  have hoff := isOfficialNFT_iff.mp ha.1
  have hdvd : 16 ^ 40 ∣ a.toNat := (Nat.pow_dvd_pow 16 (by omega)).trans haligned
  have hle := Nat.le_of_dvd (by omega) hdvd
  exact absurd (toNat_lt_pow a) (Nat.not_lt.mpr hle)

theorem isOfficialNFT_blockAddr_iff (hl : l ≤ 39) :
    isOfficialNFT (blockAddr l a) = isOfficialNFT a := by
  have hstart : blockStart 16 l (blockAddr l a).toNat = blockStart 16 l a.toNat := by
    rw [toNat_blockAddr, blockStart_blockStart (by decide) (Nat.le_refl _)]
  rw [Bool.eq_iff_iff]
  constructor
  · intro h
    exact isOfficialNFT_of_blockStart hl h hstart.symm
  · intro h
    exact isOfficialNFT_of_blockStart hl h hstart

/-- Around an official address the two forests record the same. -/
theorem covers_official_iff (ha : isOfficialNFT a = true) (hl : l ≤ 39) :
    Covers 16 (officialForest s) a.toNat l o ↔ Covers 16 (forestOf s) a.toNat l o := by
  have hoff : 2 ^ 159 ≤ blockStart 16 l a.toNat := by
    rw [← toNat_blockAddr, ← isOfficialNFT_iff, isOfficialNFT_blockAddr_iff hl, ha]
  unfold Covers officialForest
  rw [if_pos hoff]

/-! ## The owner lookup -/

/-- The accounts around an address exist up to level `l`. -/
def OnTheWay (s : StateDB) (x : Address) (l : ℕ) : Prop :=
  ∀ e ≤ l, (s.accounts (blockAddr e x)).isSome

/-- The lookup finds a block of `o` around `x`. -/
def Found (s : StateDB) (x o : Address) : Prop :=
  ∃ l ≤ 6, OnTheWay s x l ∧ (∀ e < l, ∀ p, ¬ Covers 16 (forestOf s) x.toNat e p) ∧
    Covers 16 (forestOf s) x.toNat l o

theorem getNFTOwner16_eq_iff_found (ho : o ≠ 0) : getNFTOwner16 H s x = o ↔ Found s x o := by
  rw [getNFTOwner16_eq]
  constructor
  · intro h
    cases hstore : getNFTStoreAddress16 H s x 0 with
    | none =>
      rw [hstore] at h
      exact absurd h.symm ho
    | some r =>
      obtain ⟨S, O⟩ := r
      obtain rfl : O = o := by simpa [hstore] using h
      obtain ⟨l, hl, hway, hfirst, hcov, -⟩ := getNFTStoreAddress16_eq_some_iff.mp hstore
      exact ⟨l, hl, hway, hfirst, hcov⟩
  · rintro ⟨l, hl, hway, hfirst, hcov⟩
    have hstore : getNFTStoreAddress16 H s x 0 = some (blockAddr l x, o) :=
      getNFTStoreAddress16_eq_some_iff.mpr ⟨l, hl, hway, hfirst, hcov, rfl⟩
    simp [hstore]

/-- Two lookups agree if they find the same blocks. -/
theorem getNFTOwner16_congr (h : ∀ o, Found t x o ↔ Found s x o) :
    getNFTOwner16 H t x = getNFTOwner16 H s x := by
  by_cases ht : getNFTOwner16 H t x = 0
  · by_cases hs : getNFTOwner16 H s x = 0
    · rw [ht, hs]
    · exact (getNFTOwner16_eq_iff_found hs).mpr
        ((h _).mpr ((getNFTOwner16_eq_iff_found hs).mp rfl))
  · exact ((getNFTOwner16_eq_iff_found ht).mpr
      ((h _).mp ((getNFTOwner16_eq_iff_found ht).mp rfl))).symm

theorem getNFTOwner16_eq_zero_of_not_found (h : ∀ o, ¬ Found s x o) : getNFTOwner16 H s x = 0 := by
  by_contra hne
  exact h _ ((getNFTOwner16_eq_iff_found hne).mp rfl)

/-- With disjoint storage the lookup finds the one block there is. -/
theorem StorageDisjoint.found_iff (hs : StorageDisjoint s) (hx : isOfficialNFT x = true) :
    Found s x o ↔ ∃ l ≤ 6, OnTheWay s x l ∧ Covers 16 (officialForest s) x.toNat l o := by
  unfold Found
  refine exists_congr fun l => and_congr_right fun hl => and_congr_right fun _ => ?_
  rw [covers_official_iff hx (by omega)]
  refine ⟨fun h => h.2, fun h => ⟨fun e he p hcov => ?_, h⟩⟩
  rw [← covers_official_iff hx (by omega)] at h hcov
  exact absurd (hs.wellFormed.once hcov h) (Nat.ne_of_lt he)

/-- The lookup of an address that is not official does not depend on official accounts. -/
theorem found_congr_of_user (hx : isOfficialNFT x = false)
    (hnft : ∀ b, isOfficialNFT b = false → nftAt t b = nftAt s b)
    (hexist : ∀ b, (t.accounts b).isSome ↔ (s.accounts b).isSome) : Found t x o ↔ Found s x o := by
  have hcov : ∀ {e p}, e ≤ 6 →
      (Covers 16 (forestOf t) x.toNat e p ↔ Covers 16 (forestOf s) x.toNat e p) := by
    intro e p he
    rw [covers_iff, covers_iff, hnft _ ((isOfficialNFT_blockAddr_iff (by omega)).trans hx)]
  unfold Found OnTheWay
  refine exists_congr fun l => and_congr_right fun hl => ?_
  rw [hcov hl]
  refine and_congr (forall₂_congr fun e _ => hexist _) (and_congr_left fun _ => ?_)
  exact forall₂_congr fun e he => forall_congr' fun p => not_congr (hcov (by omega))

/-! ## One merge -/

/-- `u` is `s` after the NFT at `a` was merged with its siblings: no account is new, and the parent
has the NFT's part one level up with the URL's last component replaced. -/
structure MergesTo (H : Hasher) (s u : StateDB) (a : Address) : Prop where
  merges : Merges s u a (nftAt s a).mergeLevel (nftAt s a).owner
  exists_iff : ∀ b, (u.accounts b).isSome ↔ (s.accounts b).isSome
  part : ∃ url, retarget H (nftAt s a).metaURL (blockAddr ((nftAt s a).mergeLevel + 1) a) = some url ∧
    nftAt u (blockAddr ((nftAt s a).mergeLevel + 1) a) =
      { nftAt s a with mergeLevel := (nftAt s a).mergeLevel + 1, metaURL := url }

theorem mergesTo_of_mergeOnce {o : StateObject} {P : Address} (ho : s.accounts a = some o)
    (hk : o.nft.mergeLevel + 1 ≤ 40) (hcan : s.isCanMergeNFT16 H a = some true)
    (h : s.mergeOnce H a o = some (u, P)) :
    P = blockAddr ((nftAt s a).mergeLevel + 1) a ∧ MergesTo H s u a := by
  have hnft : nftAt s a = o.nft := view_of_some _ ho
  obtain ⟨-, hexists, hmerges⟩ := merges_of_mergeOnce ho hk hcan h
  obtain ⟨hP, -, url, hurl, hall⟩ := mergeOnce_inv hk h
  rw [hnft]
  refine ⟨hP, hnft ▸ hmerges, hexists, url, ?_, ?_⟩
  · rw [hnft, ← hP]
    exact hurl
  · rw [hnft, hall, if_pos hP.symm]

namespace MergesTo

theorem mem_children_official {b : Address} {k : ℕ} (hk : k + 1 ≤ 39)
    (ha : isOfficialNFT a = true) (hb : b ∈ children a k) : isOfficialNFT b = true := by
  obtain ⟨i, hi, rfl⟩ := mem_children.mp hb
  exact isOfficialNFT_of_blockStart hk ha (blockStart_childAddr a (by omega) hi)

section

variable (h : MergesTo H s u a)
include h

theorem stored_parent (ha : Stored s a)
    (hk : (nftAt s a).mergeLevel + 1 ≤ 39) :
    Stored u (blockAddr ((nftAt s a).mergeLevel + 1) a) := by
  refine ⟨(isOfficialNFT_blockAddr_iff hk).trans ha.1, ?_⟩
  rw [h.merges.parent.1]
  exact ha.2

theorem aligned_parent :
    16 ^ (nftAt u (blockAddr ((nftAt s a).mergeLevel + 1) a)).mergeLevel ∣
      (blockAddr ((nftAt s a).mergeLevel + 1) a).toNat := by
  rw [h.merges.parent.2.1, toNat_blockAddr]
  exact dvd_blockStart 16 _ _

theorem user (ha : Stored s a) (hk : (nftAt s a).mergeLevel + 1 ≤ 39)
    {b : Address} (hb : isOfficialNFT b = false) : nftAt u b = nftAt s b := by
  apply h.merges.kept
  intro hmem
  rw [mem_children_official hk ha.1 hmem] at hb
  cases hb

/-- The merge is the join of sixteen blocks of the official forest. -/
theorem replaces (hs : StorageDisjoint s) (ha : Stored s a)
    (hk : (nftAt s a).mergeLevel + 1 ≤ 39) :
    Replaces 16 (officialForest s) (officialForest u)
      (fun x => blockStart 16 ((nftAt s a).mergeLevel + 1) x =
        blockStart 16 ((nftAt s a).mergeLevel + 1) a.toNat)
      (some ((nftAt s a).mergeLevel + 1, (nftAt s a).owner)) := by
  set k := (nftAt s a).mergeLevel with hkdef
  have hchild : ∀ i < 16, 2 ^ 159 ≤ blockStart 16 (k + 1) a.toNat + i * 16 ^ k := by
    intro i hi
    rw [← toNat_childAddr a (by omega) hi, ← isOfficialNFT_iff]
    exact mem_children_official hk ha.1 (mem_children.mpr ⟨i, hi, rfl⟩)
  have hjoin : officialForest u =
      Forest.join 16 (blockStart 16 (k + 1) a.toNat) k (nftAt s a).owner (officialForest s) := by
    funext n
    unfold officialForest
    rw [h.merges.forestOf_eq_join (by omega) ha.2, Forest.join, Forest.join]
    split
    · rfl
    next hn =>
      have hP : n ≠ blockStart 16 (k + 1) a.toNat := fun heq => hn (by simpa [heq] using hchild 0)
      have hnot : ¬ ∃ i < 16, n = blockStart 16 (k + 1) a.toNat + i * 16 ^ k := by
        rintro ⟨i, hi, rfl⟩
        exact hn (hchild i hi)
      rw [if_neg hP, if_neg hnot]
  rw [hjoin]
  refine hs.wellFormed.join (by decide) (dvd_blockStart 16 (k + 1) _) fun i hi => ?_
  obtain ⟨-, howner, hlevel⟩ := h.merges.sibling i hi
  refine officialForest_eq_some_iff.mpr ⟨childAddr a k i, toNat_childAddr a (by omega) hi, ?_,
    hlevel, howner⟩
  exact ⟨mem_children_official hk ha.1 (mem_children.mpr ⟨i, hi, rfl⟩), howner ▸ ha.2⟩

theorem storageDisjoint (hs : StorageDisjoint s) (ha : Stored s a)
    (hk : (nftAt s a).mergeLevel + 1 ≤ 39) : StorageDisjoint u :=
  storageDisjoint_of_wellFormed ((h.replaces hs ha hk).wellFormed hs.wellFormed)

theorem onTheWay_iff : OnTheWay u x l ↔ OnTheWay s x l :=
  forall₂_congr fun _ _ => h.exists_iff _

/-- A merge to any level but seven leaves every lookup as it was: to a level up to six because the
parent's account exists, to one above because the lookup reached none of the siblings either. -/
theorem found_iff (hs : StorageDisjoint s) (ha : Stored s a)
    (hk : (nftAt s a).mergeLevel + 1 ≤ 39) (hseven : (nftAt s a).mergeLevel ≠ 6) :
    Found u x o ↔ Found s x o := by
  by_cases hx : isOfficialNFT x = true
  swap
  · exact found_congr_of_user (by simpa using hx) (fun b hb => h.user ha hk hb) h.exists_iff
  have hrepl := h.replaces hs ha hk
  rw [(h.storageDisjoint hs ha hk).found_iff hx, hs.found_iff hx]
  by_cases hin : blockStart 16 ((nftAt s a).mergeLevel + 1) x.toNat =
      blockStart 16 ((nftAt s a).mergeLevel + 1) a.toNat
  · have hold : Covers 16 (officialForest s) x.toNat (nftAt s a).mergeLevel (nftAt s a).owner :=
      (covers_official_iff hx (by omega)).mpr (h.merges.covers_sibling ha.2 hin)
    have hparent : (u.accounts (blockAddr ((nftAt s a).mergeLevel + 1) x)).isSome := by
      rw [blockAddr, hin, ← blockAddr]
      exact isSome_of_owner (h.stored_parent ha hk).2
    constructor
    · rintro ⟨l, hl, hway, hcov⟩
      cases (hrepl.inside hin).mp hcov
      refine ⟨_, by omega, h.onTheWay_iff.mp fun e he => hway e (by omega), hold⟩
    · rintro ⟨l, hl, hway, hcov⟩
      obtain rfl := hs.wellFormed.once hcov hold
      obtain rfl := hs.wellFormed.owner_unique ⟨_, hcov⟩ ⟨_, hold⟩
      refine ⟨_, by omega, fun e he => ?_, (hrepl.inside hin).mpr rfl⟩
      rcases Nat.eq_or_lt_of_le he with rfl | hlt
      · exact hparent
      · exact h.onTheWay_iff.mpr hway e (by omega)
  · refine exists_congr fun l => and_congr_right fun _ => ?_
    rw [h.onTheWay_iff, hrepl.outside hin]

end

end MergesTo

/-! ## The merge walk -/

/-- Siblings that allow a merge complete the parent block. -/
theorem completes_of_can {o : StateObject} (ho : s.accounts a = some o)
    (hk : o.nft.mergeLevel + 1 ≤ 40) (haligned : 16 ^ o.nft.mergeLevel ∣ a.toNat)
    (hw : o.nft.owner ≠ 0) (hcan : s.isCanMergeNFT16 H a = some true) :
    Completes 16 (forestOf s) a.toNat o.nft.mergeLevel o.nft.owner (o.nft.mergeLevel + 1) := by
  obtain ⟨can, hcan', hiff⟩ := isCanMergeNFT16_eq ho hk
  obtain rfl : can = true := Option.some.inj (hcan'.symm.trans hcan)
  intro d hd hlt i hi hne
  obtain rfl : d = o.nft.mergeLevel := by omega
  rw [blockStart_self (by decide) haligned, ← toNat_childAddr a hk hi] at hne
  rw [← toNat_childAddr a hk hi, forestOf_toNat]
  rcases hiff.mp rfl i hi with hself | ⟨-, howner, hlevel⟩
  · exact absurd (congrArg BitVec.toNat hself) hne
  · exact AccountNFT.entry_eq_some_iff.mpr ⟨hlevel, howner, hw⟩

/-- A block of level forty has no parent text. -/
theorem isCanMergeNFT16_of_level_forty (h : (nftAt s a).mergeLevel = 40) :
    s.isCanMergeNFT16 H a = none := by
  unfold isCanMergeNFT16
  cases hacc : s.getStateObject a with
  | none => rfl
  | some o =>
    have hlevel : o.nft.mergeLevel = 40 := by
      rw [← h, show nftAt s a = o.nft from view_of_some _ hacc]
    simp [parentDigits, hlevel]

/-- Induction along the merge walk from a stored, aligned NFT: what holds where the siblings do not
complete the parent, and is carried back over a merge. -/
theorem mergeWalk_rec {motive : StateDB → Address → StateDB → Prop}
    (hstop : ∀ {s : StateDB} {a : Address}, Stored s a → 16 ^ (nftAt s a).mergeLevel ∣ a.toNat →
      ¬ Completes 16 (forestOf s) a.toNat (nftAt s a).mergeLevel (nftAt s a).owner
        ((nftAt s a).mergeLevel + 1) → motive s a s)
    (hstep : ∀ {s u t : StateDB} {a : Address}, Stored s a →
      16 ^ (nftAt s a).mergeLevel ∣ a.toNat → (nftAt s a).mergeLevel + 1 ≤ 39 → MergesTo H s u a →
      motive u (blockAddr ((nftAt s a).mergeLevel + 1) a) t → motive s a t) (ha : Stored s a)
    (haligned : 16 ^ (nftAt s a).mergeLevel ∣ a.toNat) (h : mergeWalk H calls s a = some t) :
    motive s a t := by
  induction calls generalizing s a with
  | zero => cases h
  | succ calls ih =>
    obtain ⟨o, ho⟩ := Option.isSome_iff_exists.mp (isSome_of_owner ha.2)
    have hnft : nftAt s a = o.nft := view_of_some _ ho
    have hlevel := hnft ▸ ha.level_le haligned
    rcases mergeWalk_inv h with ⟨hcan, rfl⟩ | ⟨o', u, P, ho', hcan, hmerge, hrest⟩
    · have hnot := not_completes_of_cannot ho (by omega) (hnft ▸ haligned) hcan
      rw [← hnft] at hnot
      exact hstop ha haligned hnot
    · obtain rfl : o = o' := Option.some.inj (ho.symm.trans ho')
      obtain ⟨rfl, hmerges⟩ := mergesTo_of_mergeOnce ho (by omega) hcan hmerge
      have hk : (nftAt s a).mergeLevel + 1 ≤ 39 := by
        by_contra hcon
        have hforty : (nftAt s a).mergeLevel + 1 = 40 := by
          rw [← hnft] at hlevel
          omega
        have hnone := isCanMergeNFT16_of_level_forty (H := H)
          (hmerges.merges.parent.2.1.trans hforty)
        cases calls with
        | zero => cases hrest
        | succ calls =>
          rw [mergeWalk, hnone] at hrest
          cases hrest
      exact hstep ha haligned hk hmerges
        (ih (hmerges.stored_parent ha hk) hmerges.aligned_parent hrest)

/-- Where merging ends without a panic, if there are enough calls. -/
theorem mergeWalk_isSome_iff (ha : Stored s a) (haligned : 16 ^ (nftAt s a).mergeLevel ∣ a.toNat)
    (hcalls : 40 ≤ calls + (nftAt s a).mergeLevel) :
    (mergeWalk H calls s a).isSome ↔
      (Completes 16 (forestOf s) a.toNat (nftAt s a).mergeLevel (nftAt s a).owner
        ((nftAt s a).mergeLevel + 1) → '/' ∈ (nftAt s a).metaURL) ∧
      ¬ Completes 16 (forestOf s) a.toNat (nftAt s a).mergeLevel (nftAt s a).owner 40 := by
  induction calls generalizing s a with
  | zero => exact absurd hcalls (by have := ha.level_le haligned; omega)
  | succ calls ih =>
    obtain ⟨o, ho⟩ := Option.isSome_iff_exists.mp (isSome_of_owner ha.2)
    have hnft : nftAt s a = o.nft := view_of_some _ ho
    have hlevel := hnft ▸ ha.level_le haligned
    rw [hnft] at haligned
    have hk : o.nft.mergeLevel + 1 ≤ 40 := by omega
    obtain ⟨can, hcan, -⟩ := isCanMergeNFT16_eq ho hk
    rw [mergeWalk, hcan]
    cases can with
    | false =>
      have hnot := not_completes_of_cannot ho hk haligned hcan
      rw [hnft]
      exact iff_of_true rfl ⟨fun h => absurd h hnot, fun h => hnot (h.mono hk)⟩
    | true =>
      have hcompl := completes_of_can ho hk haligned (hnft ▸ ha.2) hcan
      simp only [show s.getStateObject a = some o from ho]
      cases hmerge : s.mergeOnce H a o with
      | none =>
        have hslash : '/' ∉ o.nft.metaURL := by
          intro hmem
          have hsome := mergeOnce_isSome ho hk hcan hmem
          rw [hmerge] at hsome
          cases hsome
        rw [hnft]
        exact iff_of_false Bool.false_ne_true fun h => hslash (h.1 hcompl)
      | some r =>
        obtain ⟨u, P⟩ := r
        obtain ⟨rfl, hmerges⟩ := mergesTo_of_mergeOnce ho hk hcan hmerge
        have hslash : '/' ∈ (nftAt s a).metaURL := by
          obtain ⟨url, hurl, -⟩ := hmerges.part
          exact retarget_isSome_iff.mp (Option.isSome_iff_exists.mpr ⟨url, hurl⟩)
        rw [← hnft] at hk hcompl
        simp only [hslash, implies_true, true_and]
        by_cases hk39 : (nftAt s a).mergeLevel + 1 ≤ 39
        · have hcarry := ih (hmerges.stored_parent ha hk39) hmerges.aligned_parent
            (by rw [hmerges.merges.parent.2.1]; omega)
          rw [hcarry, hmerges.merges.parent.1, hmerges.merges.parent.2.1, toNat_blockAddr,
            hmerges.merges.completes_iff hk ha.2 hk]
          exact and_iff_right fun _ => hmerges.merges.parent.2.2
        · have hforty : (nftAt s a).mergeLevel + 1 = 40 := by omega
          have hnone := isCanMergeNFT16_of_level_forty (H := H)
            (hmerges.merges.parent.2.1.trans hforty)
          rw [hforty] at hcompl
          refine iff_of_false ?_ fun h => h hcompl
          cases calls with
          | zero => exact Bool.false_ne_true
          | succ calls =>
            rw [mergeWalk, hnone]
            exact Bool.false_ne_true

/-- Below level seven no lookup changes. -/
theorem mergeWalk_found_iff (hs : StorageDisjoint s) (ha : Stored s a)
    (h : mergeWalk H calls s a = some t) (hlow : (nftAt s a).mergeLevel ≤ 6 →
      ¬ Completes 16 (forestOf s) a.toNat (nftAt s a).mergeLevel (nftAt s a).owner 7)
    (x o : Address) : Found t x o ↔ Found s x o := by
  refine mergeWalk_rec (motive := fun s a t => StorageDisjoint s → ((nftAt s a).mergeLevel ≤ 6 →
    ¬ Completes 16 (forestOf s) a.toNat (nftAt s a).mergeLevel (nftAt s a).owner 7) →
      (Found t x o ↔ Found s x o)) (fun _ _ _ _ _ => Iff.rfl) ?_ ha (hs.aligned ha) h hs hlow
  intro s u t a ha _ hk hmerges ih hs hlow
  have hcompl := hmerges.merges.completes (by omega) ha.2
  have hsix : (nftAt s a).mergeLevel ≠ 6 := by
    intro heq
    rw [heq] at hcompl hlow
    exact hlow (Nat.le_refl 6) hcompl
  refine (ih (hmerges.storageDisjoint hs ha hk) fun hle => ?_).trans
    (hmerges.found_iff hs ha hk hsix)
  rw [hmerges.merges.parent.2.1] at hle ⊢
  rw [hmerges.merges.parent.1, toNat_blockAddr,
    hmerges.merges.completes_iff (by omega) ha.2 (by omega)]
  exact hlow (by omega)

/-- A leaf in a block that the walk brings to level seven or above is not found afterwards. -/
theorem mergeWalk_not_found (hs : StorageDisjoint s) (ha : Stored s a)
    (h : mergeWalk H calls s a = some t) (hx : isOfficialNFT x = true)
    (hin : blockAddr (nftAt s a).mergeLevel x = a) (hhigh : 7 ≤ (nftAt s a).mergeLevel ∨
      Completes 16 (forestOf s) a.toNat (nftAt s a).mergeLevel (nftAt s a).owner 7) (o : Address) :
    ¬ Found t x o := by
  refine mergeWalk_rec (motive := fun s a t => StorageDisjoint s →
    blockAddr (nftAt s a).mergeLevel x = a → (7 ≤ (nftAt s a).mergeLevel ∨
      Completes 16 (forestOf s) a.toNat (nftAt s a).mergeLevel (nftAt s a).owner 7) →
      ¬ Found t x o) ?_ ?_ ha (hs.aligned ha) h hs hin hhigh
  · intro s a ha _ hnot hs hin hhigh hfound
    have hlevel : 7 ≤ (nftAt s a).mergeLevel := by
      by_contra hcon
      exact hnot ((hhigh.resolve_left hcon).mono (by omega))
    have hcov : Covers 16 (officialForest s) x.toNat (nftAt s a).mergeLevel (nftAt s a).owner :=
      officialForest_eq_some_iff.mpr ⟨a, by rw [← toNat_blockAddr, hin], ha, rfl, rfl⟩
    obtain ⟨l, hl, -, hcov'⟩ := (hs.found_iff hx).mp hfound
    have := hs.wellFormed.once hcov' hcov
    omega
  · intro s u t a ha _ hk hmerges ih hs hin hhigh
    refine ih (hmerges.storageDisjoint hs ha hk) ?_ ?_
    · rw [hmerges.merges.parent.2.1, ← blockAddr_blockAddr (Nat.le_succ _) x, hin]
    · rw [hmerges.merges.parent.1, hmerges.merges.parent.2.1, toNat_blockAddr]
      by_cases hle : 7 ≤ (nftAt s a).mergeLevel + 1
      · exact Or.inl hle
      · refine Or.inr ((hmerges.merges.completes_iff (by omega) ha.2 (by omega)).mpr ?_)
        exact hhigh.resolve_left (by omega)

/-- The lookup finds a stored NFT of level six or less at its own address. -/
theorem StorageDisjoint.found_self (hs : StorageDisjoint s) (ha : Stored s a)
    (hlevel : (nftAt s a).mergeLevel ≤ 6) : Found s a (nftAt s a).owner := by
  refine (hs.found_iff ha.1).mpr ⟨_, hlevel, fun e he => ?_, ?_⟩
  · rw [blockAddr_of_dvd ((Nat.pow_dvd_pow 16 he).trans (hs.aligned ha))]
    exact isSome_of_owner ha.2
  · refine hs.wellFormed.covers_start (by decide) ?_
    exact officialForest_eq_some_iff.mpr ⟨a, rfl, ha, rfl, rfl⟩

/-- Merging from a stored NFT ends, and leaves the owner of every leaf as it was, if and only if its
meta URL has a path when it merges, and no block of level seven arises from one the lookup reaches
(nor, from one it does not reach, the block of all addresses). -/
theorem mergeNFT16_keeps_owners_iff (hs : StorageDisjoint s) (ha : Stored s a) :
    (∃ t, s.mergeNFT16 H a = some t ∧ ∀ x, getNFTOwner16 H t x = getNFTOwner16 H s x) ↔
      (Completes 16 (forestOf s) a.toNat (nftAt s a).mergeLevel (nftAt s a).owner
        ((nftAt s a).mergeLevel + 1) → '/' ∈ (nftAt s a).metaURL) ∧
      ¬ Completes 16 (forestOf s) a.toNat (nftAt s a).mergeLevel (nftAt s a).owner
        (if (nftAt s a).mergeLevel ≤ 6 then 7 else 40) := by
  have hends : (mergeWalk H 64 s a).isSome ↔ _ := mergeWalk_isSome_iff ha (hs.aligned ha) (by omega)
  constructor
  · rintro ⟨t, ht, howners⟩
    obtain ⟨hslash, hforty⟩ := hends.mp (Option.isSome_iff_exists.mpr ⟨t, ht⟩)
    refine ⟨hslash, ?_⟩
    split
    next hsix =>
      intro hseven
      have hbefore : getNFTOwner16 H s a = (nftAt s a).owner :=
        (getNFTOwner16_eq_iff_found ha.2).mpr (hs.found_self ha hsix)
      have hafter : getNFTOwner16 H t a = 0 :=
        getNFTOwner16_eq_zero_of_not_found (mergeWalk_not_found hs ha ht ha.1
          (blockAddr_of_dvd (hs.aligned ha)) (Or.inr hseven))
      exact ha.2 (hbefore.symm.trans ((howners a).symm.trans hafter))
    next => exact hforty
  · rintro ⟨hslash, hlow⟩
    have hforty : ¬ Completes 16 (forestOf s) a.toNat (nftAt s a).mergeLevel (nftAt s a).owner 40 := by
      intro h
      apply hlow
      split
      · exact h.mono (by decide)
      · exact h
    obtain ⟨t, ht⟩ := Option.isSome_iff_exists.mp (hends.mpr ⟨hslash, hforty⟩)
    refine ⟨t, ht, fun x => getNFTOwner16_congr (mergeWalk_found_iff hs ha ht (fun hsix => ?_) x)⟩
    rwa [if_pos hsix] at hlow

/-- The first sixteen official NFTs of level `l`, with one owner and a path in the meta URL. -/
def family (l : ℕ) : StateDB where
  accounts a :=
    if 16 ^ l ∣ a.toNat ∧ officialMask ≤ a.toNat ∧ a.toNat < officialMask + 16 ^ (l + 1) then
      some { StateObject.fresh with
        nft := { AccountNFT.blank with owner := 5, mergeLevel := l, metaURL := ['/'] } }
    else none
  journal := []
  validRevisions := []
  nextRevisionId := 0
  pools :=
    { mintDeep := ⟨1, officialMask⟩, snftExchangePool := [], pledgedTokenPool := [],
      exchangerTokenPool := [], activeMinersPool := [], officialNFTPool := [],
      nominatedOfficialNFT := none }

theorem dvd_of_stored_family (h : Stored (family l) a) :
    16 ^ l ∣ a.toNat ∧ (nftAt (family l) a).mergeLevel = l := by
  have hacc := isSome_of_owner h.2
  simp only [family] at hacc
  split at hacc
  next hin =>
    refine ⟨hin.1, ?_⟩
    rw [nftAt, view_of_some _ (show (family l).accounts a = some _ from if_pos hin)]
  next => cases hacc

theorem family_storageDisjoint (l : ℕ) : StorageDisjoint (family l) where
  aligned h := by
    obtain ⟨hdvd, hlevel⟩ := dvd_of_stored_family h
    rwa [hlevel]
  disjoint := by
    intro a b ha hb hab
    obtain ⟨⟨i, hi⟩, hla⟩ := dvd_of_stored_family ha
    obtain ⟨⟨j, hj⟩, hlb⟩ := dvd_of_stored_family hb
    rw [hla, hlb, hi, hj]
    rcases Nat.lt_trichotomy i j with hlt | heq | hlt
    · left
      calc 16 ^ l * i + 16 ^ l = 16 ^ l * (i + 1) := by rw [Nat.mul_succ]
        _ ≤ 16 ^ l * j := Nat.mul_le_mul_left _ hlt
    · exact absurd (BitVec.eq_of_toNat_eq (by rw [hi, hj, heq])) hab
    · right
      calc 16 ^ l * j + 16 ^ l = 16 ^ l * (j + 1) := by rw [Nat.mul_succ]
        _ ≤ 16 ^ l * i := Nat.mul_le_mul_left _ hlt

/-- Sixteen leaves of one owner, each with a path in its meta URL, merged at the first of them. -/
theorem mergeNFT16_keeps_owners_family :
    Stored (family 0) (bigToAddress officialMask) ∧
      ((∃ t, (family 0).mergeNFT16 ⟨fun _ => []⟩ (bigToAddress officialMask) = some t ∧
          ∀ x, getNFTOwner16 ⟨fun _ => []⟩ t x = getNFTOwner16 ⟨fun _ => []⟩ (family 0) x) ↔
        (Completes 16 (forestOf (family 0)) (bigToAddress officialMask).toNat
          (nftAt (family 0) (bigToAddress officialMask)).mergeLevel
          (nftAt (family 0) (bigToAddress officialMask)).owner
          ((nftAt (family 0) (bigToAddress officialMask)).mergeLevel + 1) →
            '/' ∈ (nftAt (family 0) (bigToAddress officialMask)).metaURL) ∧
        ¬ Completes 16 (forestOf (family 0)) (bigToAddress officialMask).toNat
          (nftAt (family 0) (bigToAddress officialMask)).mergeLevel
          (nftAt (family 0) (bigToAddress officialMask)).owner
          (if (nftAt (family 0) (bigToAddress officialMask)).mergeLevel ≤ 6 then 7 else 40)) := by
  have ha : Stored (family 0) (bigToAddress officialMask) := ⟨by decide +kernel, by decide +kernel⟩
  exact ⟨ha, mergeNFT16_keeps_owners_iff (family_storageDisjoint 0) ha⟩

/-- Sixteen NFTs of level six merge into one of level seven, whose leaves have no owner that the
lookup finds. -/
theorem mergeNFT16_to_level_seven :
    StorageDisjoint (family 6) ∧ Stored (family 6) (bigToAddress officialMask) ∧
      getNFTOwner16 ⟨fun _ => []⟩ (family 6) (bigToAddress officialMask) = 5 ∧
        ((family 6).mergeNFT16 ⟨fun _ => []⟩ (bigToAddress officialMask)).map
          (fun t => getNFTOwner16 ⟨fun _ => []⟩ t (bigToAddress officialMask)) = some 0 := by
  refine ⟨family_storageDisjoint 6, ⟨by decide +kernel, by decide +kernel⟩, by decide +kernel, ?_⟩
  decide +kernel

end StateDB

end Wormholes
