import Wormholes.Laws.State.Approvals
import Wormholes.Lib.Lookup

/-!
# Laws.State.Lookup — what writes do to the owner of a leaf, in any state

`GetNFTOwner16` walks up from a leaf to the first account that records it. The laws of the merge tree say
what splits, merges and changes of owner do where records do not overlap; the laws here hold in every
state, records that overlap and accounts that are missing included. `HeldBy` is the walk's result, and
each write is an operation of `Lib.Lookup` on the recorded blocks and the existing accounts.
-/

namespace Wormholes

open Lib Lib.Forest Common

namespace StateDB

variable {H : Hasher} {s t u : StateDB} {x A : Address}
variable {a : Address} {k j : ℕ} {store : AccountNFT}
variable {o N : Address} {level : ℕ} {obj : StateObject}

/-! ## Lookups -/

/-- There is an account at the position. -/
def Live (s : StateDB) (n : ℕ) : Prop := n < 2 ^ 160 ∧ (s.accounts (bigToAddress n)).isSome

theorem live_toNat (a : Address) : Live s a.toNat ↔ (s.accounts a).isSome := by
  rw [Live, bigToAddress_toNat, and_iff_right a.isLt]

theorem live_blockStart (l : ℕ) (a : Address) :
    Live s (blockStart 16 l a.toNat) ↔ (s.accounts (blockAddr l a)).isSome := by
  rw [← toNat_blockAddr, live_toNat]

theorem live_of_recorded (n : ℕ) (v : ℕ × Address) (h : forestOf s n = some v) : Live s n := by
  unfold forestOf at h
  split at h
  next hn =>
    refine ⟨hn, isSome_of_owner fun hzero => ?_⟩
    rw [AccountNFT.entry_eq_none_iff.mpr hzero] at h
    cases h
  next => cases h

/-- The lookup of a leaf ends at an NFT of `o`. -/
def HeldBy (s : StateDB) (x o : Address) : Prop := Yields 16 6 (Live s) (forestOf s) x.toNat o

/-- The lookup of a leaf comes to the address `A` at depth `j`. -/
def ComesTo (s : StateDB) (A : Address) (j : ℕ) (x : Address) : Prop :=
  Reaches 16 6 (Live s) (forestOf s) A.toNat j x.toNat

theorem getNFTStoreAddress16_iff_finds {S O : Address} :
    getNFTStoreAddress16 H s x 0 = some (S, O) ↔
      ∃ l, Finds 16 6 (Live s) (forestOf s) x.toNat l O ∧ S = blockAddr l x := by
  rw [getNFTStoreAddress16_eq_some_iff]
  constructor
  · rintro ⟨l, hl, hpresent, hfirst, hcovers, hS⟩
    exact ⟨l, ⟨hl, ⟨fun e he => (live_blockStart e x).mpr (hpresent e he), hfirst⟩, hcovers⟩, hS⟩
  · rintro ⟨l, ⟨hl, ⟨hlive, hfree⟩, hcovers⟩, hS⟩
    exact ⟨l, hl, fun e he => (live_blockStart e x).mp (hlive e he), hfree, hcovers, hS⟩

theorem HeldBy.ne_zero (h : HeldBy s x o) : o ≠ 0 := by
  obtain ⟨k, hk⟩ := h
  exact (covers_iff.mp hk.covers).2.2

theorem HeldBy.owner (h : HeldBy s x o) : getNFTOwner16 H s x = o := by
  obtain ⟨k, hk⟩ := h
  rw [getNFTOwner16_eq, getNFTStoreAddress16_iff_finds.mpr ⟨k, hk, rfl⟩]
  rfl

theorem getNFTOwner16_iff_held (ho : o ≠ 0) : getNFTOwner16 H s x = o ↔ HeldBy s x o := by
  refine ⟨fun howner => ?_, HeldBy.owner⟩
  rw [getNFTOwner16_eq] at howner
  cases hstore : getNFTStoreAddress16 H s x 0 with
  | none =>
    rw [hstore] at howner
    exact absurd howner.symm ho
  | some found =>
    obtain ⟨S, O⟩ := found
    rw [hstore] at howner
    obtain rfl : O = o := howner
    obtain ⟨l, hl, -⟩ := getNFTStoreAddress16_iff_finds.mp hstore
    exact ⟨l, hl⟩

/-! ## Changes of owner -/

/-- States with the same accounts are alive at the same positions. -/
theorem live_congr (h : ∀ b, (t.accounts b).isSome ↔ (s.accounts b).isSome) (n : ℕ) :
    Live t n ↔ Live s n :=
  and_congr_right fun _ => h _

section Reown

variable {N : Address} {obj : StateObject} (hobj : s.accounts A = some obj) (hN : N ≠ 0)
include hobj hN

theorem forestOf_changeObjectOwner : forestOf (s.changeObjectOwner A obj N) =
    Function.update (forestOf s) A.toNat (some ((nftAt s A).mergeLevel, N)) := by
  have hnft : nftAt s A = obj.nft := view_of_some _ hobj
  rw [forestOf_update (nftAt_changeObjectOwner hobj), hnft]
  congr 1
  refine AccountNFT.entry_eq_some_iff.mpr ?_
  split
  next hsame => exact ⟨rfl, hsame, hN⟩
  next => exact ⟨rfl, rfl, hN⟩

omit hN in
theorem live_changeObjectOwner : Live (s.changeObjectOwner A obj N) = Live s := by
  refine funext fun n => propext (live_congr (fun b => ?_) n)
  unfold changeObjectOwner
  split
  · exact Iff.rfl
  · have hfound : (s.accounts A).isSome := by
      rw [hobj]
      rfl
    exact (exists_change_iff ((exists_change_iff hfound).mpr hfound)).trans (exists_change_iff hfound)

omit hobj hN in
theorem recorded_level (l : ℕ) (p : Address) (h : forestOf s A.toNat = some (l, p)) :
    l = (nftAt s A).mergeLevel := by
  rw [forestOf_toNat, AccountNFT.entry_eq_some_iff] at h
  exact h.1.symm

/-- Giving the NFT at an address to `N`: the leaves whose lookup comes to it are `N`'s, and for the
others nothing changes. -/
theorem changeObjectOwner_held :
    HeldBy (s.changeObjectOwner A obj N) x o ↔
      (ComesTo s A (nftAt s A).mergeLevel x ∧ o = N) ∨
        (¬ ComesTo s A (nftAt s A).mergeLevel x ∧ HeldBy s x o) := by
  unfold HeldBy ComesTo
  rw [forestOf_changeObjectOwner hobj hN, live_changeObjectOwner hobj]
  exact yields_update_iff recorded_level

theorem changeObjectOwner_comesTo :
    ComesTo (s.changeObjectOwner A obj N) A (nftAt s A).mergeLevel x ↔
      ComesTo s A (nftAt s A).mergeLevel x := by
  unfold ComesTo
  rw [forestOf_changeObjectOwner hobj hN, live_changeObjectOwner hobj]
  exact reaches_update_iff recorded_level

end Reown

/-! ## Merges -/

/-- The NFT at an address is the last piece of an NFT beyond the depth of lookups. -/
def Overflowing (s : StateDB) (A N : Address) (j : ℕ) : Prop :=
  j ≤ 6 ∧ Completes 16 (forestOf s) A.toNat j N 7

/-- What merging upwards from an NFT does to the lookups. -/
structure Lifts (s t : StateDB) (a w : Address) (k : ℕ) : Prop where
  shrinks : ∀ {x o : Address}, HeldBy t x o → HeldBy s x o
  keeps : 16 ^ k ∣ a.toNat → ¬ Overflowing s a w k → ∀ {x o : Address}, HeldBy s x o → HeldBy t x o
  loses : 16 ^ k ∣ a.toNat → Overflowing s a w k → ∀ {x : Address}, ComesTo s a k x →
    ∀ o, ¬ HeldBy t x o

theorem Merges.lifts {w : Address} (h : Merges s u a k w) (hk : k + 1 ≤ 40) (hw : w ≠ 0)
    (hexists : ∀ b, (u.accounts b).isSome ↔ (s.accounts b).isSome)
    (hrest : Lifts u t (blockAddr (k + 1) a) w (k + 1)) : Lifts s t a w k := by
  have hb : 0 < 16 := by decide
  have hP := dvd_blockStart 16 (k + 1) a.toNat
  have hall : ∀ i < 16, forestOf s (blockStart 16 (k + 1) a.toNat + i * 16 ^ k) = some (k, w) := by
    intro i hi
    obtain ⟨-, howner, hlevel⟩ := h.sibling i hi
    rw [← toNat_childAddr a hk hi, forestOf_toNat]
    exact AccountNFT.entry_eq_some_iff.mpr ⟨hlevel, howner, hw⟩
  have hjoin := h.forestOf_eq_join hk hw
  have hlive : Live u = Live s := funext fun n => propext (live_congr hexists n)
  have hPlive : Live s (blockStart 16 (k + 1) a.toNat) :=
    live_of_recorded _ (k, w) (by simpa using hall 0 hb)
  have hdvd : 16 ^ (k + 1) ∣ (blockAddr (k + 1) a).toNat := by
    rw [toNat_blockAddr]
    exact hP
  -- the parent is overflowing exactly if its part was
  have hoverflows : k + 1 ≤ 6 → (Overflowing u (blockAddr (k + 1) a) w (k + 1) ↔
      Overflowing s a w k) := by
    intro hk6
    unfold Overflowing
    rw [toNat_blockAddr, h.completes_iff hk hw (by omega), and_iff_right hk6, and_iff_right (by omega)]
  refine ⟨fun {x o} hx => ?_, fun _ hnot {x o} hx => ?_, fun _ hover {x} hcomes o hx => ?_⟩
  · have hheld := hrest.shrinks hx
    unfold HeldBy at hheld ⊢
    rw [hjoin, hlive] at hheld
    exact hheld.of_join hb hP hall hPlive
  · have hlift : HeldBy u x o := by
      unfold HeldBy at hx ⊢
      rw [hjoin, hlive]
      by_cases hk6 : k + 1 ≤ 6
      · exact (yields_join_iff hb hP hall hk6 hPlive).mpr hx
      · refine (yields_join_above hb hall ?_).mpr hx
        by_contra hlt
        obtain rfl : k = 6 := by omega
        exact hnot ⟨le_rfl, h.completes hk hw⟩
    refine hrest.keeps hdvd ?_ hlift
    intro hover
    exact hnot ((hoverflows hover.1).mp hover)
  · by_cases hk6 : k + 1 ≤ 6
    · refine hrest.loses hdvd ((hoverflows hk6).mpr hover) ?_ o hx
      unfold ComesTo at hcomes ⊢
      rw [hjoin, hlive, toNat_blockAddr]
      exact hcomes.join hb hall hk6 rfl hPlive
    · obtain rfl : k = 6 := by
        have := hover.1
        omega
      have hheld := hrest.shrinks hx
      unfold HeldBy at hheld
      rw [hjoin, hlive] at hheld
      obtain ⟨-, hpasses, hstart⟩ := hcomes
      have hin : blockStart 16 (6 + 1) x.toNat = blockStart 16 (6 + 1) a.toNat := by
        rw [← blockStart_blockStart hb (Nat.le_succ 6), hstart]
      exact not_yields_join hb hall rfl hin ⟨le_rfl, hpasses, covers_part hb hall hin⟩ hheld

theorem mergeWalk_lifts {calls : ℕ} (h : mergeWalk H calls s a = some t)
    (hobj : s.accounts a = some obj) (hlevel : obj.nft.mergeLevel ≤ 40) (hw : obj.nft.owner ≠ 0) :
    Lifts s t a obj.nft.owner obj.nft.mergeLevel := by
  induction calls generalizing s a obj with
  | zero => cases h
  | succ calls ih =>
    rcases mergeWalk_inv h with ⟨hcan, rfl⟩ | ⟨o, v, P, ho, hcan, hmerge, hrest⟩
    · refine ⟨fun hx => hx, fun _ _ _ _ hx => hx, fun hdvd hover x _ o _ => ?_⟩
      refine not_completes_of_cannot hobj (by have := hover.1; omega) hdvd hcan ?_
      exact hover.2.mono (by have := hover.1; omega)
    · obtain rfl : obj = o := Option.some.inj (hobj.symm.trans ho)
      have hk := mergeOnce_level hlevel hmerge
      obtain ⟨rfl, hexists, hmerges⟩ := merges_of_mergeOnce hobj hk hcan hmerge
      obtain ⟨obj', hobj'⟩ := Option.isSome_iff_exists.mp hmerges.exists_parent
      have hnft : nftAt v (blockAddr (obj.nft.mergeLevel + 1) a) = obj'.nft := view_of_some _ hobj'
      obtain ⟨howner, hlevel', -⟩ := hmerges.parent
      rw [hnft] at howner hlevel'
      refine hmerges.lifts hk hw hexists ?_
      have hlifts := ih hrest hobj' (by omega) (by rwa [howner])
      rwa [howner, hlevel'] at hlifts

/-! ## Splits -/

/-- The parts of a block are the children of the block one level up. -/
theorem partOf_iff_children {n : ℕ} (hk : k + 1 ≤ 40) :
    PartOf 16 A.toNat k n ↔ n < 2 ^ 160 ∧ bigToAddress n ∈ children A k := by
  rw [partOf_iff (by decide)]
  constructor
  · intro h
    have hn : n < 2 ^ 160 := by
      obtain ⟨i, hi, rfl⟩ := h
      exact child_lt A hk hi
    exact ⟨hn, (Merges.mem_children_iff hk hn).mpr h⟩
  · intro h
    exact (Merges.mem_children_iff hk h.1).mp h.2

/-- What the first rows of a split do: the block is carved, and the parts have accounts. -/
structure Splits (s t : StateDB) (A w : Address) (d m : ℕ) : Prop where
  carved : CutDown 16 (forestOf s) (forestOf t) A.toNat d m w
  live : ∀ n, Live t n ↔ Live s n ∨ ∃ k, d ≤ k ∧ k < m ∧ PartOf 16 A.toNat k n
  block : Covers 16 (forestOf t) A.toNat d w

theorem splitRows_splits {n : ℕ} (hsix : store.mergeLevel ≤ 6)
    (hblock : Covers 16 (forestOf s) A.toNat store.mergeLevel store.owner)
    (hn : n ≤ store.mergeLevel)
    (h : (List.range n).foldlM (splitRow H (blockAddr store.mergeLevel A) A store) s = some t) :
    Splits s t A store.owner (store.mergeLevel - n) store.mergeLevel := by
  induction n generalizing t with
  | zero =>
    cases h
    refine ⟨.refl _ _ _ _, fun n => (or_iff_left ?_).symm, hblock⟩
    rintro ⟨k, hk, hlt, -⟩
    omega
  | succ n ih =>
    obtain ⟨v, hrows, hrow⟩ := splitRows_inv h
    have hsplits := ih (by omega) hrows
    have hcut := splitRow_cuts (by omega) (toNat_blockAddr _ _) (by omega) hsplits.block hrow
    rw [splitRow_eq (by omega) (toNat_blockAddr _ _) (by omega)] at hrow
    rw [show store.mergeLevel - n = store.mergeLevel - (n + 1) + 1 by omega] at hsplits
    have hlevel : store.mergeLevel - (n + 1) + 1 ≤ 40 := by omega
    refine ⟨?_, fun p => ?_, ?_⟩
    · rw [hcut.forestOf_eq_cut hlevel]
      exact hsplits.carved.cut (by decide) (by omega)
    · have hexists : Live t p ↔ Live v p ∨ PartOf 16 A.toNat (store.mergeLevel - (n + 1)) p := by
        rw [partOf_iff_children hlevel, Live, Live, exists_splitPuts hrow]
        exact and_or_left
      rw [hexists, hsplits.live, or_assoc]
      refine or_congr_right ⟨?_, ?_⟩
      · rintro (⟨k, hk, hkm, hpart⟩ | hpart)
        · exact ⟨k, by omega, hkm, hpart⟩
        · exact ⟨_, le_rfl, by omega, hpart⟩
      · rintro ⟨k, hk, hkm, hpart⟩
        rcases Nat.lt_or_eq_of_le hk with hlt | rfl
        · exact Or.inl ⟨k, by omega, hkm, hpart⟩
        · exact Or.inr hpart
    · obtain ⟨i, hi, hchild⟩ :=
        exists_childAddr rfl
      obtain ⟨-, howner, hlevel', -⟩ := hcut.child _ (mem_children.mpr ⟨i, hi, hchild.symm⟩)
      rw [covers_iff]
      exact ⟨hlevel', howner, hcut.block.2.2⟩

theorem splitStore_finds (hstore : splitStore H s A level = some store) :
    Finds 16 6 (Live s) (forestOf s) A.toNat store.mergeLevel store.owner ∧
      level < store.mergeLevel ∧ 16 ^ level ∣ A.toNat := by
  obtain ⟨S, o, ho, hstored, hsix, hlt, hS, hdvd, -⟩ := splitStore_inv hstore
  refine ⟨?_, hlt, hdvd⟩
  unfold splitStore at hstore
  split at hstore
  · cases hstore
  next S' O hwalk =>
    split at hstore
    next hcond =>
      obtain ⟨l, hl, rfl⟩ := getNFTStoreAddress16_iff_finds.mp hwalk
      obtain ⟨hlevel, howner, -⟩ := covers_iff.mp hl.covers
      cases hstore
      rwa [hlevel, howner]
    next => cases hstore

theorem splitNFT16_splits (hstore : splitStore H s A level = some store)
    (h : splitNFT16 H s A level = some t) : Splits s t A store.owner level store.mergeLevel := by
  obtain ⟨S, o, ho, rfl, hsix, hlt, hS, hdvd, hsplit⟩ := splitStore_inv hstore
  subst hS
  rw [hsplit] at h
  have hsplits := splitRows_splits hsix (splitStore_finds hstore).1.covers (by omega) h
  rwa [show o.nft.mergeLevel - (o.nft.mergeLevel - level) = level by omega] at hsplits

/-! ## Handing an NFT over -/

/-- The NFT at an address is given away as it is, by a write and then by merges. -/
theorem reown_merge (hobj : s.accounts A = some obj) (hN : N ≠ 0)
    (hlevel : (nftAt s A).mergeLevel ≤ 40)
    (h : if isOfficialNFT A then (s.changeObjectOwner A obj N).mergeNFT16 H A = some t
      else s.changeObjectOwner A obj N = t) :
    (∀ {x o : Address}, HeldBy t x o → HeldBy (s.changeObjectOwner A obj N) x o) ∧
      (16 ^ (nftAt s A).mergeLevel ∣ A.toNat →
        (¬ (isOfficialNFT A = true ∧ Overflowing s A N (nftAt s A).mergeLevel) →
          ∀ {x o : Address}, HeldBy (s.changeObjectOwner A obj N) x o → HeldBy t x o) ∧
        (isOfficialNFT A = true → Overflowing s A N (nftAt s A).mergeLevel →
          ∀ {x : Address}, ComesTo s A (nftAt s A).mergeLevel x → ∀ o, ¬ HeldBy t x o)) := by
  by_cases hoff : isOfficialNFT A = true
  · rw [if_pos hoff] at h
    have hparts := nftAt_changeObjectOwner (N := N) hobj
    have hnft : nftAt s A = obj.nft := view_of_some _ hobj
    have hsome : ((s.changeObjectOwner A obj N).accounts A).isSome := by
      rw [← live_toNat, live_changeObjectOwner hobj, live_toNat, hobj]
      rfl
    obtain ⟨obj', hobj'⟩ := Option.isSome_iff_exists.mp hsome
    have hnft' : nftAt (s.changeObjectOwner A obj N) A = obj'.nft := view_of_some _ hobj'
    have howner : obj'.nft.owner = N ∧ obj'.nft.mergeLevel = (nftAt s A).mergeLevel := by
      rw [← hnft', hparts, Function.update_self, hnft]
      split
      next hsame => exact ⟨hsame, rfl⟩
      next => exact ⟨rfl, rfl⟩
    have hlifts := mergeWalk_lifts h hobj' (by rwa [howner.2]) (by rwa [howner.1])
    rw [howner.1, howner.2] at hlifts
    have hover : Overflowing (s.changeObjectOwner A obj N) A N (nftAt s A).mergeLevel ↔
        Overflowing s A N (nftAt s A).mergeLevel := by
      unfold Overflowing
      rw [forestOf_changeObjectOwner hobj hN, completes_update_iff (by decide)]
    refine ⟨hlifts.shrinks, fun hdvd => ⟨fun hnot => ?_, fun _ hyes => ?_⟩⟩
    · exact hlifts.keeps hdvd fun hyes => hnot ⟨hoff, hover.mp hyes⟩
    · intro x hcomes
      exact hlifts.loses hdvd (hover.mpr hyes) ((changeObjectOwner_comesTo hobj hN).mpr hcomes)
  · rw [if_neg hoff] at h
    subst h
    exact ⟨fun hx => hx, fun _ => ⟨fun _ _ _ hx => hx, fun hyes => absurd hyes hoff⟩⟩

/-- The level of the NFT that a change of owner hands over. -/
def handedLevel (H : Hasher) (s : StateDB) (A : Address) (level : ℕ) : ℕ :=
  if isOfficialNFT A then (handed H s A level).1 else (nftAt s A).mergeLevel

/-- A split on the way to an address cuts no part at an account that holds a smaller NFT of `N`. -/
def KeepsParts (H : Hasher) (s : StateDB) (A N : Address) (level : ℕ) : Prop :=
  isOfficialNFT A = true → ∀ store, splitStore H s A level = some store →
    ∀ k, level ≤ k → k < store.mergeLevel → ∀ c ∈ children A k, c ≠ blockAddr k A →
      (nftAt s c).owner = N → k < (nftAt s c).mergeLevel

section

variable (h : SameParts s t)
include h

theorem SameParts.forestOf_eq : forestOf t = forestOf s :=
  forestOf_congr (fun a => by rw [h.parts]) fun a => by rw [h.parts]

theorem SameParts.live_eq : Live t = Live s :=
  funext fun n => propext (live_congr h.exists_iff n)

theorem SameParts.heldBy_iff : HeldBy t x o ↔ HeldBy s x o := by
  rw [HeldBy, HeldBy, h.forestOf_eq, h.live_eq]

theorem SameParts.comesTo_iff : ComesTo t A j x ↔ ComesTo s A j x := by
  rw [ComesTo, ComesTo, h.forestOf_eq, h.live_eq]

theorem SameParts.overflowing_iff : Overflowing t A N j ↔ Overflowing s A N j := by
  rw [Overflowing, Overflowing, h.forestOf_eq]

theorem SameParts.keepsParts_iff : KeepsParts H t A N level ↔ KeepsParts H s A N level := by
  unfold KeepsParts
  rw [h.splitStore_eq, h.parts]

end

/-- The state between the split and the change of owner, for an NFT that does not belong to `N`. -/
structure Stage (H : Hasher) (s u : StateDB) (A N : Address) (level j : ℕ) : Prop where
  level_eq : (nftAt u A).mergeLevel = j
  comesTo_iff : ∀ x, ComesTo u A j x ↔ ComesTo s A j x
  shrinks : ∀ x, HeldBy u x N → HeldBy s x N
  keeps : KeepsParts H s A N level → ∀ x, HeldBy s x N → HeldBy u x N
  breaks : ¬ KeepsParts H s A N level →
    ∃ c, (∀ v, nftAt v = nftAt s → HeldBy v c N) ∧ ¬ HeldBy u c N ∧ ¬ ComesTo s A j c
  overflowing_iff : KeepsParts H s A N level → (Overflowing u A N j ↔ Overflowing s A N j)

theorem SameParts.stage (h : SameParts s u)
    (hnone : isOfficialNFT A = true → splitStore H s A level = none) :
    Stage H s u A N level (nftAt s A).mergeLevel where
  level_eq := by rw [h.parts]
  comesTo_iff _ := h.comesTo_iff
  shrinks _ hx := h.heldBy_iff.mp hx
  keeps _ _ hx := h.heldBy_iff.mpr hx
  breaks hnot := by
    refine absurd (fun hoff store hstore => ?_) hnot
    rw [hnone hoff] at hstore
    cases hstore
  overflowing_iff _ := h.overflowing_iff

/-- Every other child of a block lies apart from the child around the address. -/
theorem blockAddr_ne_of_child {c : Address} (hk : k + 1 ≤ 40) (hlevel : level ≤ k)
    (hc : c ∈ children A k) (hne : c ≠ blockAddr k A) : blockAddr level c ≠ blockAddr level A := by
  intro heq
  obtain ⟨-, hdvd⟩ := blockAddr_child hk hc
  refine hne ?_
  rw [← blockAddr_of_dvd hdvd, ← blockAddr_blockAddr hlevel, heq, blockAddr_blockAddr hlevel]

/-- A block has more than one child. -/
theorem exists_other_child (A : Address) (k : ℕ) :
    ∃ i < 16, blockStart 16 (k + 1) A.toNat + i * 16 ^ k ≠ blockStart 16 k A.toNat := by
  by_contra hall
  push Not at hall
  have hzero := hall 0 (by decide)
  have hone := hall 1 (by decide)
  have hpos : 0 < 16 ^ k := by positivity
  omega

/-- The record at an address is that of its NFT if the address begins a block of the record's level. -/
theorem heldBy_of_record {c : Address} (hdvd : 16 ^ k ∣ c.toNat) (hk : k ≤ 6)
    (hlevel : (nftAt s c).mergeLevel ≤ k) (howner : (nftAt s c).owner = N) (hzero : N ≠ 0) :
    HeldBy s c N := by
  have haligned : ∀ e ≤ (nftAt s c).mergeLevel, blockStart 16 e c.toNat = c.toNat := by
    intro e he
    exact blockStart_self (by decide) (Nat.dvd_trans (Nat.pow_dvd_pow 16 (by omega)) hdvd)
  have hrecord : forestOf s c.toNat = some ((nftAt s c).mergeLevel, N) := by
    rw [forestOf_toNat, AccountNFT.entry_eq_some_iff]
    exact ⟨rfl, howner, hzero⟩
  refine ⟨(nftAt s c).mergeLevel, by omega, ⟨fun e he => ?_, fun e he p hp => ?_⟩, ?_⟩
  · rw [haligned e he]
    exact live_of_recorded _ _ hrecord
  · unfold Covers at hp
    rw [haligned e (by omega), hrecord] at hp
    cases hp
    omega
  · unfold Covers
    rw [haligned _ le_rfl]
    exact hrecord

section Split

variable (hstore : splitStore H s A level = some store) (hN : N ≠ store.owner)
  (h : splitNFT16 H s A level = some u)
include hstore hN h

/-- A part that the split cuts is its owner's. -/
theorem not_heldBy_cut {c : Address} (hk : level ≤ k) (hkm : k < store.mergeLevel)
    (hc : c ∈ children A k) (hne : c ≠ blockAddr k A) : ¬ HeldBy u c N := by
  obtain ⟨hfinds, -, -⟩ := splitStore_finds hstore
  have hsplits := splitNFT16_splits hstore h
  have hsix := hfinds.depth
  have hpart : PartOf 16 A.toNat k c.toNat := by
    rw [partOf_iff_children (by omega), bigToAddress_toNat]
    exact ⟨c.isLt, hc⟩
  have hother : c.toNat ≠ blockStart 16 k A.toNat := by
    rw [← toNat_blockAddr]
    exact fun heq => hne (BitVec.eq_of_toNat_eq heq)
  have hwhole := hsplits.carved.yields_part (by decide) hsplits.live hfinds hk hkm hpart hother
  exact fun hheld => hN (hheld.unique hwhole)

/-- A smaller NFT of `N` at a cut part is lost. -/
theorem splitNFT16_breaks (hzero : N ≠ 0) (hnot : ¬ KeepsParts H s A N level) :
    ∃ c, (∀ v, nftAt v = nftAt s → HeldBy v c N) ∧ ¬ HeldBy u c N ∧ ¬ ComesTo s A level c := by
  obtain ⟨hfinds, -, hdvd⟩ := splitStore_finds hstore
  have hsix := hfinds.depth
  unfold KeepsParts at hnot
  push Not at hnot
  obtain ⟨-, store', hstore', k, hk, hkm, c, hc, hne, howner, hlevel⟩ := hnot
  obtain rfl : store = store' := Option.some.inj (hstore.symm.trans hstore')
  have hapart := blockAddr_ne_of_child (by omega) hk hc hne
  rw [blockAddr_of_dvd hdvd] at hapart
  refine ⟨c, fun v hv => ?_, not_heldBy_cut hstore hN h hk hkm hc hne, fun hcomes => hapart ?_⟩
  · rw [← hv] at howner hlevel
    exact heldBy_of_record (blockAddr_child (by omega) hc).2 (by omega) hlevel howner hzero
  · have hstart := hcomes.2.2
    rw [← toNat_blockAddr] at hstart
    exact BitVec.eq_of_toNat_eq hstart

/-- A sibling of the part is the owner's after the split, and not `N`'s before, so neither state has the
part complete its family for `N`. -/
theorem splitNFT16_overflowing_iff (hoff : isOfficialNFT A = true) (hkeeps : KeepsParts H s A N level) :
    Overflowing u A N level ↔ Overflowing s A N level := by
  obtain ⟨hfinds, hlt, -⟩ := splitStore_finds hstore
  have hsplits := splitNFT16_splits hstore h
  have hsix := hfinds.depth
  obtain ⟨i, hi, hother⟩ := exists_other_child A level
  refine iff_of_false (fun hover => ?_) fun hover => ?_
  · have hentry := hover.2 level le_rfl (by omega) i hi hother
    have hpart : PartOf 16 A.toNat level (blockStart 16 (level + 1) A.toNat + i * 16 ^ level) :=
      (partOf_iff (by decide)).mpr ⟨i, hi, rfl⟩
    rw [hsplits.carved.written le_rfl hlt hpart fun j hj hjk => by omega] at hentry
    cases hentry
    exact hN rfl
  · have hentry := hover.2 level le_rfl (by omega) i hi hother
    rw [← toNat_childAddr A (by omega) hi, forestOf_toNat, AccountNFT.entry_eq_some_iff] at hentry
    have hmem : childAddr A level i ∈ children A level := mem_children.mpr ⟨i, hi, rfl⟩
    have hne : childAddr A level i ≠ blockAddr level A := by
      intro heq
      rw [← toNat_childAddr A (by omega) hi, heq, toNat_blockAddr] at hother
      exact hother rfl
    have hlevel := hkeeps hoff store hstore level le_rfl hlt _ hmem hne hentry.2.1
    omega

theorem splitNFT16_stage (hoff : isOfficialNFT A = true) (hzero : N ≠ 0) :
    Stage H s u A N level level := by
  obtain ⟨hfinds, hlt, hdvd⟩ := splitStore_finds hstore
  have hsix := hfinds.depth
  have hsplits := splitNFT16_splits hstore h
  have hcases := fun x : Address =>
    hsplits.carved.yields_cases (by decide) hsplits.live hfinds hlt hdvd live_of_recorded x.toNat
  refine ⟨?_, fun x => hsplits.carved.reaches_iff (by decide) hsplits.live hfinds hlt hdvd,
    fun x hx => ?_, fun hkeeps x hx => ?_, splitNFT16_breaks hstore hN h hzero,
    splitNFT16_overflowing_iff hstore hN h hoff⟩
  · have hlevel := (covers_iff.mp hsplits.block).1
    rwa [blockAddr_of_dvd hdvd] at hlevel
  · rcases hcases x with hsame | ⟨hwhole, -⟩
    · exact (hsame N).mp hx
    · exact absurd (hx.unique hwhole) hN
  · rcases hcases x with hsame | ⟨-, k, hk, hkm, hpart, hne, hbad⟩
    · exact (hsame N).mpr hx
    · rcases hbad with ⟨-, hnone⟩ | ⟨e, p, he, hrecord, hheld⟩
      · exact absurd hx (hnone N)
      · obtain rfl : N = p := hx.unique hheld
        rw [← toNat_blockAddr] at hpart hne hrecord
        rw [forestOf_toNat, AccountNFT.entry_eq_some_iff] at hrecord
        rw [partOf_iff_children (by omega), bigToAddress_toNat] at hpart
        have hlevel := hkeeps hoff store hstore k hk hkm _ hpart.2 (fun heq => hne (by
          rw [heq, toNat_blockAddr])) hrecord.2.1
        omega

end Split

theorem Stage.of_sameParts {v : StateDB} (h : Stage H s u A N level j) (hsame : SameParts v s) :
    Stage H v u A N level j where
  level_eq := h.level_eq
  comesTo_iff x := (h.comesTo_iff x).trans hsame.comesTo_iff
  shrinks x hx := hsame.heldBy_iff.mp (h.shrinks x hx)
  keeps hkeeps x hx := h.keeps (hsame.keepsParts_iff.mpr hkeeps) x (hsame.heldBy_iff.mpr hx)
  breaks hnot := by
    obtain ⟨c, hheld, hlost, hcomes⟩ := h.breaks fun hkeeps => hnot (hsame.keepsParts_iff.mp hkeeps)
    refine ⟨c, fun w hw => hheld w (hw.trans hsame.parts.symm), hlost, fun hc => hcomes ?_⟩
    exact hsame.comesTo_iff.mpr hc
  overflowing_iff hkeeps :=
    (h.overflowing_iff (hsame.keepsParts_iff.mpr hkeeps)).trans hsame.overflowing_iff

/-- A change of owner in the terms of a state with the same NFTs: after a split, or nothing, the NFT at
the address is given away, and merged. -/
theorem changeNFTOwner_stage {v : StateDB} {O : Address}
    (hsame : SameParts v (s.getOrNewStateObject A).1) (hO : HeldBy v A O) (hON : N ≠ O) (hN : N ≠ 0)
    (h : changeNFTOwner H s A N level = some t) :
    ∃ u obj, u.accounts A = some obj ∧ Stage H v u A N level (handedLevel H v A level) ∧
      if isOfficialNFT A then (u.changeObjectOwner A obj N).mergeNFT16 H A = some t
      else u.changeObjectOwner A obj N = t := by
  obtain ⟨u, hsplit, hmerge⟩ := changeNFTOwner_inv h
  have hfound : (u.accounts A).isSome := by
    have hopened : ((s.getOrNewStateObject A).1.accounts A).isSome := by
      rw [getOrNewStateObject_found]
      rfl
    split at hsplit
    · exact (splitNFT16_nftWrite hsplit).exist hopened
    · rwa [← hsplit]
  obtain ⟨obj, hobj⟩ := Option.isSome_iff_exists.mp hfound
  rw [getOrNewStateObject_of_some hobj] at hmerge
  refine ⟨u, obj, hobj, ?_, hmerge⟩
  unfold handedLevel
  by_cases hoff : isOfficialNFT A = true
  · rw [if_pos hoff] at hsplit ⊢
    have hstores : splitStore H (s.getOrNewStateObject A).1 A level = splitStore H v A level :=
      hsame.splitStore_eq A level
    unfold handed
    cases hstore : splitStore H v A level with
    | none =>
      rw [hstore] at hstores
      rw [splitNFT16_of_none hstores] at hsplit
      cases hsplit
      exact hsame.stage fun _ => hstore
    | some store =>
      rw [hstore] at hstores
      have hfinds := (splitStore_finds hstore).1
      have howner : O = store.owner := hO.unique ⟨_, hfinds⟩
      exact (splitNFT16_stage hstores (howner ▸ hON) hsplit hoff hN).of_sameParts hsame
  · rw [if_neg hoff] at hsplit ⊢
    subst hsplit
    exact hsame.stage fun hyes => absurd hyes hoff

/-! ## Exact changes of owner -/

/-- One of the `16 ^ level` leaves from an address on. -/
def Leaf (A : Address) (level : ℕ) (x : Address) : Prop :=
  A.toNat ≤ x.toNat ∧ x.toNat < A.toNat + 16 ^ level

theorem leaf_self (A : Address) (level : ℕ) : Leaf A level A :=
  ⟨le_rfl, Nat.lt_add_of_pos_right (by positivity)⟩

/-- The new owner gets the named leaves, none of which were the new owner's, and loses none. -/
def GetsExactly (s t : StateDB) (A N : Address) (level : ℕ) : Prop :=
  ∀ x, ((HeldBy t x N ∧ ¬ HeldBy s x N) ↔ Leaf A level x) ∧ (HeldBy s x N → HeldBy t x N)

/-- What a change of owner needs for that. The leaves whose lookup comes to the NFT that is handed over,
or to one of the new owner's that the accounts of `v` bring to light, are the named ones; the split
leaves the new owner's parts alone, and the NFT does not complete one that lookups do not see. -/
structure HandsExactly (H : Hasher) (s v : StateDB) (A N : Address) (level : ℕ) : Prop where
  leaves : ∀ x, Leaf A level x ↔
    (ComesTo v A (handedLevel H v A level) x ∨ HeldBy v x N) ∧ ¬ HeldBy s x N
  parts : KeepsParts H v A N level
  room : isOfficialNFT A = true → ¬ Overflowing v A N (handedLevel H v A level)

theorem handedLevel_le (hlevel : (nftAt s A).mergeLevel ≤ 40) : handedLevel H s A level ≤ 40 := by
  unfold handedLevel handed
  split
  · cases hstore : splitStore H s A level with
    | none => exact hlevel
    | some store =>
      obtain ⟨hfinds, hlt, -⟩ := splitStore_finds hstore
      have := hfinds.depth
      dsimp only
      omega
  · exact hlevel

section Exact

variable {v : StateDB} {N O : Address} {level : ℕ} (hparts : nftAt v = nftAt s)
  (hgrow : ∀ {x o : Address}, HeldBy s x o → HeldBy v x o) (hO : HeldBy s A O) (hN : N ≠ 0)
  (hsame : SameParts v (u.getOrNewStateObject A).1) (h : changeNFTOwner H u A N level = some t)
include hgrow hO hN hsame h

theorem HandsExactly.getsExactly (hexact : HandsExactly H s v A N level) :
    GetsExactly s t A N level := by
  obtain ⟨hself, hnew⟩ := (hexact.leaves A).mp (leaf_self A level)
  have hON : N ≠ O := by
    rintro rfl
    exact hnew hO
  obtain ⟨u', obj, hobj, hstage, hmerge⟩ := changeNFTOwner_stage hsame (hgrow hO) hON hN h
  have hcomes : ComesTo v A (handedLevel H v A level) A :=
    hself.resolve_right fun hheld => hON (hheld.unique (hgrow hO))
  have hdvd : 16 ^ handedLevel H v A level ∣ A.toNat := hcomes.2.2 ▸ dvd_blockStart 16 _ _
  have hlevel := hcomes.1
  have hreown := reown_merge hobj hN (by rw [hstage.level_eq]; omega) hmerge
  rw [hstage.level_eq] at hreown
  obtain ⟨hshrinks, hrest⟩ := hreown
  have hroom : ¬ (isOfficialNFT A = true ∧ Overflowing u' A N (handedLevel H v A level)) := by
    intro hover
    exact hexact.room hover.1 ((hstage.overflowing_iff hexact.parts).mp hover.2)
  have hheld : ∀ x, HeldBy t x N ↔ ComesTo v A (handedLevel H v A level) x ∨ HeldBy v x N := by
    intro x
    have hiff := changeObjectOwner_held (x := x) (o := N) hobj hN
    rw [hstage.level_eq, hstage.comesTo_iff] at hiff
    constructor
    · intro hx
      rcases hiff.mp (hshrinks hx) with ⟨hc, -⟩ | ⟨-, hu⟩
      · exact Or.inl hc
      · exact Or.inr (hstage.shrinks x hu)
    · intro hx
      refine (hrest hdvd).1 hroom (hiff.mpr ?_)
      by_cases hc : ComesTo v A (handedLevel H v A level) x
      · exact Or.inl ⟨hc, rfl⟩
      · exact Or.inr ⟨hc, hstage.keeps hexact.parts x (hx.resolve_left hc)⟩
  intro x
  rw [hheld]
  exact ⟨(hexact.leaves x).symm, fun hx => Or.inr (hgrow hx)⟩

include hparts in
theorem GetsExactly.handsExactly (hlevel : (nftAt s A).mergeLevel ≤ 40)
    (hgets : GetsExactly s t A N level) : HandsExactly H s v A N level := by
  obtain ⟨hself, hnew⟩ := (hgets A).1.mpr (leaf_self A level)
  have hON : N ≠ O := by
    rintro rfl
    exact hnew hO
  obtain ⟨u', obj, hobj, hstage, hmerge⟩ := changeNFTOwner_stage hsame (hgrow hO) hON hN h
  have hreown := reown_merge hobj hN (by
    rw [hstage.level_eq]
    exact handedLevel_le (by rwa [hparts])) hmerge
  rw [hstage.level_eq] at hreown
  obtain ⟨hshrinks, hrest⟩ := hreown
  have hiff : ∀ x, HeldBy (u'.changeObjectOwner A obj N) x N ↔
      (ComesTo v A (handedLevel H v A level) x ∧ N = N) ∨
        (¬ ComesTo v A (handedLevel H v A level) x ∧ HeldBy u' x N) := by
    intro x
    rw [changeObjectOwner_held hobj hN, hstage.level_eq, hstage.comesTo_iff]
  have hfrom : ∀ x, HeldBy t x N → ComesTo v A (handedLevel H v A level) x ∨ HeldBy v x N := by
    intro x hx
    rcases (hiff x).mp (hshrinks hx) with ⟨hc, -⟩ | ⟨-, hu⟩
    · exact Or.inl hc
    · exact Or.inr (hstage.shrinks x hu)
  have hkeeps : KeepsParts H v A N level := by
    by_contra hnot
    obtain ⟨c, hheld, hlost, hcomes⟩ := hstage.breaks hnot
    have hc := hshrinks ((hgets c).2 (hheld s hparts.symm))
    rcases (hiff c).mp hc with ⟨hc', -⟩ | ⟨-, hc'⟩
    · exact hcomes hc'
    · exact hlost hc'
  have hcomes : ComesTo v A (handedLevel H v A level) A :=
    (hfrom A hself).resolve_right fun hheld => hON (hheld.unique (hgrow hO))
  have hdvd : 16 ^ handedLevel H v A level ∣ A.toNat := hcomes.2.2 ▸ dvd_blockStart 16 _ _
  have hroom : isOfficialNFT A = true → ¬ Overflowing u' A N (handedLevel H v A level) := by
    intro hoff hover
    exact (hrest hdvd).2 hoff hover ((hstage.comesTo_iff A).mpr hcomes) N hself
  refine ⟨fun x => ⟨fun hx => ?_, fun hx => ?_⟩, hkeeps, fun hoff hover => ?_⟩
  · obtain ⟨hx', hx''⟩ := (hgets x).1.mpr hx
    exact ⟨hfrom x hx', hx''⟩
  · refine (hgets x).1.mp ⟨(hrest hdvd).1 (fun hover => hroom hover.1 hover.2) ((hiff x).mpr ?_), hx.2⟩
    by_cases hc : ComesTo v A (handedLevel H v A level) x
    · exact Or.inl ⟨hc, rfl⟩
    · exact Or.inr ⟨hc, hstage.keeps hkeeps x (hx.1.resolve_left hc)⟩
  · exact hroom hoff ((hstage.overflowing_iff hkeeps).mpr hover)

end Exact

end StateDB

end Wormholes
