import Wormholes.Laws.State.Merge

/-!
# Laws.State.Split — splitting cuts a block on the way to an address

One row of a split replaces a block by its sixteen children, the forest's cut (`Cuts`). No leaf
changes its owner.
-/

namespace Wormholes

open Lib Lib.Forest Common

namespace StateDB

variable {H : Hasher} {s t u : StateDB} {a : Address} {k : ℕ} {w p : Address}
variable {store : AccountNFT} {level : ℕ}
variable {l : List Address} {S : Address} {i : ℕ}

/-! ## One row -/

/-- The NFT part a split writes at a child. -/
def splitInfo (H : Hasher) (store : AccountNFT) (level : ℕ) (child : Address) : AccountNFT :=
  { store with mergeLevel := level, metaURL := (retarget H store.metaURL child).getD [] }

theorem splitPut_eq {child : Address} (h : splitPut H store level s child = some t) :
    t = s.putNFTInfo child (splitInfo H store level child) ∧
      '/' ∈ (splitInfo H store level child).metaURL := by
  unfold splitPut at h
  split at h
  · cases h
  next url hurl =>
    cases h
    refine ⟨by simp only [splitInfo, hurl, Option.getD_some], ?_⟩
    simpa only [splitInfo, hurl, Option.getD_some] using retarget_slash hurl

theorem splitPuts_inv (h : l.foldlM (splitPut H store level) s = some t) :
    (∀ b, nftAt t b = if b ∈ l then splitInfo H store level b else nftAt s b) ∧
      (∀ b ∈ l, (t.accounts b).isSome ∧ '/' ∈ (splitInfo H store level b).metaURL) := by
  induction l generalizing s with
  | nil =>
    cases h
    simp
  | cons c rest ih =>
    rw [List.foldlM_cons] at h
    obtain ⟨u, hput, hrest⟩ := Option.bind_eq_some_iff.mp h
    obtain ⟨rfl, hslash⟩ := splitPut_eq hput
    obtain ⟨hnft, hfound⟩ := ih hrest
    refine ⟨fun b => ?_, fun b hb => ?_⟩
    · rw [hnft, nftAt_putNFTInfo]
      by_cases hmem : b ∈ rest
      · rw [if_pos hmem, if_pos (List.mem_cons_of_mem _ hmem)]
      · rw [if_neg hmem]
        by_cases hbc : b = c
        · subst hbc
          rw [Function.update_self, if_pos List.mem_cons_self]
        · rw [Function.update_of_ne hbc, if_neg (by simp [hbc, hmem])]
    · rcases List.mem_cons.mp hb with rfl | hmem
      · refine ⟨NFTWrite.exist (foldlM_partWrite (fun h => splitPut_nftWrite h) hrest) ?_, hslash⟩
        exact putNFTInfo_found _ _
      · exact hfound b hmem

theorem exists_splitPuts (h : l.foldlM (splitPut H store level) s = some t) (b : Address) :
    (t.accounts b).isSome ↔ (s.accounts b).isSome ∨ b ∈ l := by
  induction l generalizing s with
  | nil =>
    cases h
    simp
  | cons c rest ih =>
    rw [List.foldlM_cons] at h
    obtain ⟨v, hput, hrest⟩ := Option.bind_eq_some_iff.mp h
    obtain ⟨rfl, -⟩ := splitPut_eq hput
    rw [ih hrest, exists_putNFTInfo, List.mem_cons, or_assoc]

theorem splitPuts_isSome (hslash : '/' ∈ store.metaURL) (l : List Address) (s : StateDB) :
    (l.foldlM (splitPut H store level) s).isSome := by
  induction l generalizing s with
  | nil => rfl
  | cons c rest ih =>
    obtain ⟨url, hurl⟩ := Option.isSome_iff_exists.mp
      ((retarget_isSome_iff).mpr hslash)
    rw [List.foldlM_cons, splitPut, hurl]
    exact ih _

/-- The `i`-th row writes the children of the block `i` levels below the stored one. -/
theorem splitRow_eq (hm : store.mergeLevel ≤ 40)
    (hS : S.toNat = blockStart 16 store.mergeLevel a.toNat) (hi : i < store.mergeLevel) :
    splitRow H S a store s i =
      (children a (store.mergeLevel - (i + 1))).foldlM
        (splitPut H store (store.mergeLevel - (i + 1))) s := by
  have hchildren : (List.range 16).map (splitAddr H S a store.mergeLevel i) =
      children a (store.mergeLevel - (i + 1)) := by
    refine List.map_congr_left fun j hj => ?_
    rw [splitAddr_eq H hm hS hi (List.mem_range.mp hj), childAddr, bigToAddress,
      show store.mergeLevel - (i + 1) + 1 = store.mergeLevel - i by omega,
      show store.mergeLevel - i - 1 = store.mergeLevel - (i + 1) by omega]
  rw [← hchildren, List.foldlM_map, splitRow]

theorem splitRows_inv {n : ℕ} (h : (List.range (n + 1)).foldlM (splitRow H S a store) s = some t) :
    ∃ u, (List.range n).foldlM (splitRow H S a store) s = some u ∧
      splitRow H S a store u n = some t := by
  rw [List.range_succ, List.foldlM_append] at h
  obtain ⟨u, hu, hrow⟩ := Option.bind_eq_some_iff.mp h
  exact ⟨u, hu, by simpa using hrow⟩

/-- `t` is `s` with the level-`k + 1` block of `w` around `a` cut into its children, each with the
approved address `p`. -/
structure Cuts (s t : StateDB) (a : Address) (k : ℕ) (w p : Address) : Prop where
  block : (nftAt s (blockAddr (k + 1) a)).mergeLevel = k + 1 ∧
    (nftAt s (blockAddr (k + 1) a)).owner = w ∧ w ≠ 0
  child : ∀ b ∈ children a k, (t.accounts b).isSome ∧ (nftAt t b).owner = w ∧
    (nftAt t b).mergeLevel = k ∧ '/' ∈ (nftAt t b).metaURL
  approved : ∀ b ∈ children a k, (nftAt t b).nftApproveAddressList = p
  kept : ∀ b, b ∉ children a k → nftAt t b = nftAt s b
  grows : ∀ b, (s.accounts b).isSome → (t.accounts b).isSome

namespace Cuts

theorem forestOf_eq_cut (h : Cuts s t a k w p) (hk : k + 1 ≤ 40) :
    forestOf t = Forest.cut 16 (blockStart 16 (k + 1) a.toNat) k w (forestOf s) := by
  funext n
  rw [Forest.cut]
  by_cases hn : n < 2 ^ 160
  · by_cases hchild : ∃ i < 16, n = blockStart 16 (k + 1) a.toNat + i * 16 ^ k
    · obtain ⟨-, howner, hlevel, -⟩ := h.child _ ((Merges.mem_children_iff hk hn).mpr hchild)
      rw [if_pos hchild, forestOf, if_pos hn]
      exact AccountNFT.entry_eq_some_iff.mpr ⟨hlevel, howner, h.block.2.2⟩
    · rw [if_neg hchild, forestOf, forestOf, if_pos hn, if_pos hn,
        h.kept _ fun hmem => hchild ((Merges.mem_children_iff hk hn).mp hmem)]
  · have hchild : ¬ ∃ i < 16, n = blockStart 16 (k + 1) a.toNat + i * 16 ^ k := by
      rintro ⟨i, hi, heq⟩
      exact hn (heq ▸ child_lt a hk hi)
    rw [if_neg hchild, forestOf, forestOf, if_neg hn, if_neg hn]

end Cuts

/-- A row of a split cuts the block it works on. -/
theorem splitRow_cuts (hm : store.mergeLevel ≤ 40)
    (hS : S.toNat = blockStart 16 store.mergeLevel a.toNat) (hi : i < store.mergeLevel)
    (hblock : Covers 16 (forestOf s) a.toNat (store.mergeLevel - i) store.owner)
    (h : splitRow H S a store s i = some t) :
    Cuts s t a (store.mergeLevel - (i + 1)) store.owner store.nftApproveAddressList := by
  have hwrite := splitRow_nftWrite h
  rw [splitRow_eq hm hS hi] at h
  obtain ⟨hnft, hfound⟩ := splitPuts_inv h
  rw [show store.mergeLevel - i = store.mergeLevel - (i + 1) + 1 by omega] at hblock
  refine ⟨covers_iff.mp hblock, fun b hb => ?_, fun b hb => ?_, fun b hb => ?_,
    fun b hb => hwrite.exist hb⟩
  · obtain ⟨hsome, hslash⟩ := hfound b hb
    rw [hnft b, if_pos hb]
    exact ⟨hsome, rfl, rfl, hslash⟩
  · rw [hnft b, if_pos hb]
    rfl
  · rw [hnft b, if_neg hb]

end StateDB

end Wormholes
