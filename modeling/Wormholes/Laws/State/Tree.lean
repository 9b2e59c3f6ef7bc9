import Wormholes.Laws.Common.Address
import Wormholes.Laws.State.Account

/-!
# Laws.State.Tree — the accounts as a forest of owned blocks

`forestOf s` reads the NFT parts of a state's accounts as a forest: an account whose NFT part has an
owner records a block of its merge level there. The walk of the owner lookup finds the lowest
recorded block around a leaf.
-/

namespace Wormholes

open Lib Lib.Forest Common

variable {l : ℕ} {a : Address} {i : AccountNFT}
variable {k calls d : ℕ} {o S O x : Address} {t : StateDB}

/-! ## Addresses as numbers -/

theorem toNat_bigToAddress {n : ℕ} (h : n < 2 ^ 160) : (bigToAddress n).toNat = n :=
  Nat.mod_eq_of_lt h

@[simp] theorem bigToAddress_toNat (a : Address) : bigToAddress a.toNat = a := by
  simp [bigToAddress]

/-- The start of the level-`l` block around an address. -/
def blockAddr (l : ℕ) (a : Address) : Address := bigToAddress (blockStart 16 l a.toNat)

@[simp] theorem toNat_blockAddr (l : ℕ) (a : Address) :
    (blockAddr l a).toNat = blockStart 16 l a.toNat :=
  toNat_bigToAddress (Nat.lt_of_le_of_lt (blockStart_le 16 l _) a.isLt)

@[simp] theorem blockAddr_zero (a : Address) : blockAddr 0 a = a := by
  simp [blockAddr]

theorem blockAddr_blockAddr (hkl : k ≤ l) (a : Address) :
    blockAddr l (blockAddr k a) = blockAddr l a := by
  rw [blockAddr, toNat_blockAddr, blockStart_blockStart (by decide) hkl, ← blockAddr]

theorem blockAddr_of_dvd (h : 16 ^ l ∣ a.toNat) : blockAddr l a = a := by
  rw [blockAddr, blockStart_self (by decide) h, bigToAddress_toNat]

theorem toNat_lt_pow (a : Address) : a.toNat < 16 ^ 40 := by
  have := a.isLt
  norm_num at this ⊢
  exact this

/-- The `i`-th child of the block one level up is an address. -/
theorem child_lt (a : Address) {i : ℕ} (hk : k + 1 ≤ 40) (hi : i < 16) :
    blockStart 16 (k + 1) a.toNat + i * 16 ^ k < 2 ^ 160 := by
  have hblock := blockStart_add_le hk (toNat_lt_pow a)
  have hi' : i * 16 ^ k < 16 ^ (k + 1) := by
    rw [Nat.pow_succ, Nat.mul_comm (16 ^ k)]
    exact Nat.mul_lt_mul_of_pos_right hi (by positivity)
  have hpow : (16 : ℕ) ^ 40 = 2 ^ 160 := by norm_num
  omega

namespace StateDB

theorem isOfficialNFT_iff : isOfficialNFT a = true ↔ 2 ^ 159 ≤ a.toNat := by
  simp [isOfficialNFT, BitVec.msb_eq_decide]

/-- Blocks of official addresses consist of official addresses. -/
theorem isOfficialNFT_of_blockStart {b : Address} (hl : l ≤ 39) (ha : isOfficialNFT a = true)
    (h : blockStart 16 l b.toNat = blockStart 16 l a.toNat) : isOfficialNFT b = true := by
  rw [isOfficialNFT_iff] at ha ⊢
  have hmid : blockStart 16 l a.toNat ≥ 2 ^ 159 := by
    have hpow : (2 : ℕ) ^ 159 = 2 ^ 159 / 16 ^ l * 16 ^ l := by
      refine (Nat.div_mul_cancel ?_).symm
      rw [show (16 : ℕ) = 2 ^ 4 by norm_num, ← Nat.pow_mul]
      exact Nat.pow_dvd_pow 2 (by omega)
    rw [hpow]
    exact Nat.mul_le_mul_right _ (Nat.div_le_div_right ha)
  have hle := blockStart_le 16 l b.toNat
  omega

/-! ## The forest -/

/-- The NFT part of the account at an address; blank where there is none. -/
def nftAt (s : StateDB) (a : Address) : AccountNFT := view (·.nft) s a

end StateDB

/-- The block an NFT part records, if it has an owner. -/
def AccountNFT.entry (i : AccountNFT) : Option (ℕ × Address) :=
  if i.owner = 0 then none else some (i.mergeLevel, i.owner)

theorem AccountNFT.entry_eq_some_iff :
    i.entry = some (l, o) ↔ i.mergeLevel = l ∧ i.owner = o ∧ o ≠ 0 := by
  unfold AccountNFT.entry
  split
  next h =>
    refine ⟨fun h' => (by cases h'), ?_⟩
    rintro ⟨-, rfl, hne⟩
    exact absurd h hne
  next h =>
    simp only [Option.some.injEq, Prod.mk.injEq]
    refine ⟨?_, fun h' => ⟨h'.1, h'.2.1⟩⟩
    rintro ⟨rfl, rfl⟩
    exact ⟨rfl, rfl, h⟩

theorem AccountNFT.entry_eq_none_iff : i.entry = none ↔ i.owner = 0 := by
  unfold AccountNFT.entry
  split <;> simp_all

namespace StateDB

/-- The owned blocks the accounts record. -/
def forestOf (s : StateDB) : Forest Address := fun n =>
  if n < 2 ^ 160 then (nftAt s (bigToAddress n)).entry else none

@[simp] theorem forestOf_toNat (s : StateDB) (a : Address) :
    forestOf s a.toNat = (nftAt s a).entry := by
  rw [forestOf, if_pos a.isLt, bigToAddress_toNat]

theorem covers_iff {s : StateDB} :
    Covers 16 (forestOf s) a.toNat l o ↔
      (nftAt s (blockAddr l a)).mergeLevel = l ∧ (nftAt s (blockAddr l a)).owner = o ∧ o ≠ 0 := by
  rw [Covers, ← toNat_blockAddr, forestOf_toNat, AccountNFT.entry_eq_some_iff]

/-- The forest depends on owners and levels only. -/
theorem forestOf_congr {s : StateDB} (howner : ∀ a, (nftAt t a).owner = (nftAt s a).owner)
    (hlevel : ∀ a, (nftAt t a).mergeLevel = (nftAt s a).mergeLevel) : forestOf t = forestOf s := by
  funext n
  simp only [forestOf, AccountNFT.entry, howner, hlevel]

/-- One NFT part written is one entry of the forest written. -/
theorem forestOf_update {s : StateDB} (h : nftAt t = Function.update (nftAt s) a i) :
    forestOf t = Function.update (forestOf s) a.toNat i.entry := by
  funext n
  by_cases hn : n < 2 ^ 160
  · by_cases hna : n = a.toNat
    · subst hna
      rw [forestOf_toNat, h, Function.update_self, Function.update_self]
    · have hne : bigToAddress n ≠ a := fun heq => hna (by rw [← heq, toNat_bigToAddress hn])
      rw [Function.update_of_ne hna, forestOf, forestOf, if_pos hn, if_pos hn, h,
        Function.update_of_ne hne]
  · have hna : n ≠ a.toNat := fun heq => hn (heq ▸ a.isLt)
    rw [Function.update_of_ne hna, forestOf, forestOf, if_neg hn, if_neg hn]

/-! ## Owner lookup -/

section Lookup

variable {H : Hasher} {s : StateDB}

/-- The walk finds the first block around an address whose account records it, up to level six and
as long as the accounts on the way exist. -/
theorem storeWalk_eq_some_iff (hd : d + calls ≤ 40) :
    storeWalk H s calls (blockAddr d a) d = some (S, O) ↔
      ∃ l, d ≤ l ∧ l < d + calls ∧ l ≤ 6 ∧
        (∀ e, d ≤ e → e ≤ l → (s.accounts (blockAddr e a)).isSome) ∧
        (∀ e o, d ≤ e → e < l → ¬ Covers 16 (forestOf s) a.toNat e o) ∧
        Covers 16 (forestOf s) a.toNat l O ∧ S = blockAddr l a := by
  induction calls generalizing d with
  | zero =>
    refine ⟨fun h => (by cases h), ?_⟩
    rintro ⟨l, hdl, hlt, -⟩
    omega
  | succ calls ih =>
    rw [storeWalk]
    by_cases hlimit : d > queryDepthLimit16
    · rw [if_pos hlimit]
      refine ⟨fun h => (by cases h), ?_⟩
      rintro ⟨l, hdl, -, hl6, -⟩
      exact absurd (Nat.lt_of_lt_of_le hlimit hdl) (Nat.not_lt.mpr hl6)
    rw [if_neg hlimit]
    have hd6 : d ≤ 6 := Nat.not_lt.mp hlimit
    cases hacc : s.getStateObject (blockAddr d a) with
    | none =>
      refine ⟨fun h => (by cases h), ?_⟩
      rintro ⟨l, hdl, -, -, hpresent, -⟩
      have := hpresent d (Nat.le_refl d) hdl
      rw [show s.accounts (blockAddr d a) = none from hacc] at this
      cases this
    | some o =>
      have hnft : nftAt s (blockAddr d a) = o.nft := view_of_some _ hacc
      have hcov : ∀ w, Covers 16 (forestOf s) a.toNat d w ↔
          o.nft.mergeLevel = d ∧ o.nft.owner = w ∧ w ≠ 0 := by
        intro w
        rw [covers_iff, hnft]
      simp only
      by_cases hstop : o.nft.owner ≠ 0 ∧ o.nft.mergeLevel = d
      · rw [if_pos hstop]
        simp only [Option.some.injEq, Prod.mk.injEq]
        constructor
        · rintro ⟨rfl, rfl⟩
          refine ⟨d, Nat.le_refl d, by omega, hd6, ?_, fun e _ h1 h2 => by omega,
            (hcov _).mpr ⟨hstop.2, rfl, hstop.1⟩, rfl⟩
          intro e h1 h2
          obtain rfl : e = d := by omega
          exact Option.isSome_iff_exists.mpr ⟨o, hacc⟩
        · rintro ⟨l, hdl, -, -, -, hfirst, hfound, rfl⟩
          have hld : l = d := by
            by_contra hne
            exact hfirst d _ (Nat.le_refl d) (by omega) ((hcov _).mpr ⟨hstop.2, rfl, hstop.1⟩)
          subst hld
          exact ⟨rfl, ((hcov _).mp hfound).2.1⟩
      · rw [if_neg hstop, parentOf_eq H _ (by omega), toNat_blockAddr,
          blockStart_blockStart (by decide) (Nat.le_succ d)]
        have hnot : ∀ w, ¬ Covers 16 (forestOf s) a.toNat d w := by
          intro w hw
          obtain ⟨h1, h2, h3⟩ := (hcov w).mp hw
          exact hstop ⟨h2 ▸ h3, h1⟩
        refine (ih (by omega)).trans ?_
        constructor
        · rintro ⟨l, hdl, hlt, hl6, hpresent, hfirst, hfound⟩
          refine ⟨l, by omega, by omega, hl6, fun e h1 h2 => ?_, fun e w h1 h2 => ?_, hfound⟩
          · rcases Nat.eq_or_lt_of_le h1 with rfl | h1
            · exact Option.isSome_iff_exists.mpr ⟨o, hacc⟩
            · exact hpresent e h1 h2
          · rcases Nat.eq_or_lt_of_le h1 with rfl | h1
            · exact hnot w
            · exact hfirst e w h1 h2
        · rintro ⟨l, hdl, hlt, hl6, hpresent, hfirst, hfound, hS⟩
          have hne : l ≠ d := by rintro rfl; exact hnot O hfound
          exact ⟨l, by omega, by omega, hl6, fun e h1 => hpresent e (by omega),
            fun e w h1 => hfirst e w (by omega), hfound, hS⟩

/-- The lookup finds the lowest recorded block that holds an address, up to level six. -/
theorem getNFTStoreAddress16_eq_some_iff :
    getNFTStoreAddress16 H s a 0 = some (S, O) ↔
      ∃ l ≤ 6, (∀ e ≤ l, (s.accounts (blockAddr e a)).isSome) ∧
        (∀ e < l, ∀ o, ¬ Covers 16 (forestOf s) a.toNat e o) ∧
        Covers 16 (forestOf s) a.toNat l O ∧ S = blockAddr l a := by
  have hwalk : storeWalk H s 8 (blockAddr 0 a) 0 = some (S, O) ↔ _ :=
    storeWalk_eq_some_iff (by decide)
  rw [blockAddr_zero] at hwalk
  refine hwalk.trans ⟨?_, ?_⟩
  · rintro ⟨l, -, -, hl, hpresent, hfirst, hfound⟩
    exact ⟨l, hl, fun e => hpresent e (Nat.zero_le e), fun e he o => hfirst e o (Nat.zero_le e) he,
      hfound⟩
  · rintro ⟨l, hl, hpresent, hfirst, hfound⟩
    exact ⟨l, Nat.zero_le l, by omega, hl, fun e _ => hpresent e, fun e o _ he => hfirst e he o,
      hfound⟩

/-- The owner a lookup reports is the one recorded at the block it finds. -/
theorem getNFTOwner16_eq (a : Address) :
    getNFTOwner16 H s a = ((getNFTStoreAddress16 H s a 0).map Prod.snd).getD 0 := by
  unfold getNFTOwner16
  cases hstore : getNFTStoreAddress16 H s a 0 with
  | none => rfl
  | some r =>
    obtain ⟨S, O⟩ := r
    obtain ⟨l, -, hpresent, -, hfound, rfl⟩ := getNFTStoreAddress16_eq_some_iff.mp hstore
    obtain ⟨o, ho⟩ := Option.isSome_iff_exists.mp (hpresent l (Nat.le_refl l))
    have hnft : nftAt s (blockAddr l a) = o.nft := view_of_some _ ho
    rw [covers_iff, hnft] at hfound
    simp only [getStateObject, ho, Option.map_some, Option.getD_some]
    exact hfound.2.1

/-! ## Where no two NFTs overlap -/

/-- The NFT stored at `S` has `x` in its interval. -/
def Holds (s : StateDB) (S x : Address) : Prop :=
  (nftAt s S).owner ≠ 0 ∧ S.toNat ≤ x.toNat ∧ x.toNat < S.toNat + 16 ^ (nftAt s S).mergeLevel

/-- The stored NFTs have aligned intervals of which no two meet, of level six at most, and there are
accounts at all addresses of these intervals. -/
structure StoredApart (s : StateDB) : Prop where
  aligned : ∀ S, (nftAt s S).owner ≠ 0 → 16 ^ (nftAt s S).mergeLevel ∣ S.toNat
  apart : ∀ {S T x}, Holds s S x → Holds s T x → S = T
  level : ∀ S, (nftAt s S).owner ≠ 0 → (nftAt s S).mergeLevel ≤ 6
  present : ∀ {S x}, Holds s S x → (s.accounts x).isSome

theorem holds_blockAddr (h : Covers 16 (forestOf s) x.toNat l o) : Holds s (blockAddr l x) x := by
  obtain ⟨hlevel, howner, hne⟩ := covers_iff.mp h
  refine ⟨howner ▸ hne, ?_, ?_⟩
  · rw [toNat_blockAddr]
    exact blockStart_le 16 l _
  · rw [toNat_blockAddr, hlevel]
    exact lt_blockStart_add (by decide) l _

theorem StoredApart.blockAddr_eq (h : StoredApart s) (hS : Holds s S x) :
    blockAddr (nftAt s S).mergeLevel x = S := by
  rw [blockAddr, blockStart_eq_of_mem (h.aligned S hS.1) hS.2.1 hS.2.2, bigToAddress_toNat]

/-- What is found is the NFT whose interval holds the leaf. -/
theorem StoredApart.found_iff (h : StoredApart s) (x : Address) :
    getNFTStoreAddress16 H s x 0 = some (S, O) ↔ Holds s S x ∧ (nftAt s S).owner = O := by
  rw [getNFTStoreAddress16_eq_some_iff]
  constructor
  · rintro ⟨l, -, -, -, hcovers, rfl⟩
    exact ⟨holds_blockAddr hcovers, (covers_iff.mp hcovers).2.1⟩
  · rintro ⟨hS, rfl⟩
    have hstart := h.blockAddr_eq hS
    refine ⟨_, h.level S hS.1, fun e he => ?_, fun e he o hcovers => ?_, ?_, hstart.symm⟩
    -- The addresses on the way up lie between `S` and the leaf.
    · refine h.present ⟨hS.1, ?_, ?_⟩
      · rw [← hstart, ← blockAddr_blockAddr he, toNat_blockAddr _ (blockAddr e x)]
        exact blockStart_le 16 _ _
      · rw [toNat_blockAddr]
        exact Nat.lt_of_le_of_lt (blockStart_le 16 e _) hS.2.2
    -- A block below would be a second NFT around the leaf.
    · have hsame := h.apart (holds_blockAddr hcovers) hS
      have hlevel := (covers_iff.mp hcovers).1
      rw [hsame] at hlevel
      omega
    · rw [covers_iff, hstart]
      exact ⟨rfl, rfl, hS.1⟩

/-- With eight calls the walk has as many as it can use. -/
theorem storeWalk_add (hd : 8 ≤ calls + d) (n : ℕ) (x : Address) :
    storeWalk H s (calls + n) x d = storeWalk H s calls x d := by
  induction calls generalizing d x with
  | zero =>
    cases n with
    | zero => rfl
    | succ n =>
      rw [Nat.zero_add]
      exact if_pos (show d > 6 by omega)
  | succ calls ih =>
    rw [Nat.add_right_comm, storeWalk, storeWalk]
    simp only [ih (show 8 ≤ calls + (d + 1) by omega)]

/-- The lookup of a leaf finds the stored NFT around it, if there is one, in eight calls at most. -/
theorem lookup_exact (h : StoredApart s) (x : Address) :
    (∀ S O, getNFTStoreAddress16 H s x 0 = some (S, O) ↔ Holds s S x ∧ (nftAt s S).owner = O) ∧
      (getNFTStoreAddress16 H s x 0 = none ↔ ∀ S, ¬ Holds s S x) ∧
      ∀ n, storeWalk H s (8 + n) x 0 = getNFTStoreAddress16 H s x 0 := by
  refine ⟨fun S O => h.found_iff x, ?_, fun n => storeWalk_add (by decide) n x⟩
  constructor
  · intro hnone S hS
    have hfound := (h.found_iff (H := H) x).mpr ⟨hS, rfl⟩
    rw [hnone] at hfound
    cases hfound
  · intro hnot
    refine Option.eq_none_iff_forall_ne_some.mpr fun r hr => ?_
    exact hnot r.1 ((h.found_iff x).mp hr).1

/-- An NFT of level two at `0x100` and one of level one at `0x210`, with the accounts of their leaves and
some between and behind them. -/
def bundles : StateDB where
  accounts a := if 0x100 ≤ a.toNat ∧ a.toNat < 0x300 then
    some { StateObject.fresh with nft :=
      if a = 0x100 then { AccountNFT.blank with owner := 0x5e, mergeLevel := 2 }
      else if a = 0x210 then { AccountNFT.blank with owner := 0x5f, mergeLevel := 1 }
      else .blank } else none
  journal := []
  validRevisions := []
  nextRevisionId := 0
  pools := ⟨⟨1, 0⟩, [], [], [], [], [], none⟩

theorem holds_bundles {S x : Address} (h : Holds bundles S x) :
    (S = 0x100 ∧ 0x100 ≤ x.toNat ∧ x.toNat < 0x200) ∨ (S = 0x210 ∧ 0x210 ≤ x.toNat ∧ x.toNat < 0x220) := by
  obtain ⟨howner, hle, hlt⟩ := h
  by_cases hS : S = 0x100
  · subst hS
    exact Or.inl ⟨rfl, hle, hlt⟩
  · by_cases hS' : S = 0x210
    · subst hS'
      exact Or.inr ⟨rfl, hle, hlt⟩
    · have hblank : (nftAt bundles S).owner = 0 := by
        simp only [nftAt, view, bundles, if_neg hS, if_neg hS']
        split_ifs <;> rfl
      exact absurd hblank howner

theorem storedApart_bundles : StoredApart bundles := by
  have hself : ∀ S, (nftAt bundles S).owner ≠ 0 → Holds bundles S S := fun S howner =>
    ⟨howner, le_rfl, Nat.lt_add_of_pos_right (by positivity)⟩
  refine ⟨fun S howner => ?_, fun hS hT => ?_, fun S howner => ?_, fun hS => ?_⟩
  · rcases holds_bundles (hself S howner) with ⟨rfl, -⟩ | ⟨rfl, -⟩
    all_goals decide
  · rcases holds_bundles hS with ⟨rfl, hS⟩ | ⟨rfl, hS⟩ <;>
      rcases holds_bundles hT with ⟨rfl, hT⟩ | ⟨rfl, hT⟩
    all_goals first | rfl | omega
  · rcases holds_bundles (hself S howner) with ⟨rfl, -⟩ | ⟨rfl, -⟩
    all_goals decide
  · have hrange := holds_bundles hS
    simp only [bundles]
    rw [if_pos (by omega)]
    rfl

/-- The walk from an inner leaf climbs two levels, and one that no NFT holds finds none. -/
theorem lookup_exact_bundles :
    getNFTStoreAddress16 ⟨fun _ => []⟩ bundles 0x1a7 0 = some (0x100, 0x5e) ∧
      getNFTStoreAddress16 ⟨fun _ => []⟩ bundles 0x21f 0 = some (0x210, 0x5f) ∧
      getNFTStoreAddress16 ⟨fun _ => []⟩ bundles 0x207 0 = none := by
  refine ⟨((lookup_exact storedApart_bundles 0x1a7).1 _ _).mpr ⟨⟨by decide, by decide, by decide⟩, rfl⟩,
    ((lookup_exact storedApart_bundles 0x21f).1 _ _).mpr ⟨⟨by decide, by decide, by decide⟩, rfl⟩,
    (lookup_exact storedApart_bundles 0x207).2.1.mpr fun S hS => ?_⟩
  have hrange := holds_bundles hS
  have hx : (0x207 : Address).toNat = 0x207 := rfl
  omega

end Lookup

/-- Each address the merge tree computes on text is a number: siblings are multiples of the level's
width from their parent on, and parents are rounded down. -/
theorem tree_arithmetic (H : Hasher) (A : Address) :
    (∀ l ≤ 38, ∃ parent, parentDigits H A l = some parent ∧
      (∀ i < 16, (siblingAddr parent l i).toNat =
        A.toNat / 16 ^ (l + 1) * 16 ^ (l + 1) + i * 16 ^ l) ∧
      (mergedAddr parent).toNat = A.toNat / 16 ^ (l + 1) * 16 ^ (l + 1)) ∧
    ∀ d ≤ 38, (parentOf H A d).toNat = A.toNat / 16 ^ (d + 1) * 16 ^ (d + 1) := by
  refine ⟨fun l hl => ⟨_, parentDigits_eq H A (by omega), fun i hi => ?_, ?_⟩, fun d hd => ?_⟩
  · rw [siblingAddr_eq H A (by omega)]
    exact toNat_bigToAddress (child_lt A (by omega) hi)
  · rw [mergedAddr_eq H A (by omega)]
    exact toNat_blockAddr (l + 1) A
  · rw [parentOf_eq H A (by omega)]
    exact toNat_blockAddr (d + 1) A

/-- At depth one the parent has the last two digits cleared. -/
theorem tree_arithmetic_parent : (parentOf ⟨fun _ => []⟩ 0x8123 1).toNat = 0x8100 :=
  (tree_arithmetic ⟨fun _ => []⟩ 0x8123).2 1 (by decide)

end StateDB

end Wormholes
