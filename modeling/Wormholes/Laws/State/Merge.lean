import Wormholes.Laws.State.Tree

/-!
# Laws.State.Merge — merging joins blocks of one owner

One merge of sixteen siblings is the forest's join (`Merges`). It does not change who owns a leaf.
Siblings without an owner merge too; their accounts then have a merge level but the forest does not
change.
-/

namespace Wormholes

open Lib Lib.Forest Common

namespace StateDB

variable {o : StateObject}
variable {b P : Address} {url : GoString} {i n : ℕ} {l : List Address}
variable {a : Address} {k : ℕ}

/-! ## Writing NFT parts -/

section Writes

variable {H : Hasher} {s t : StateDB}

theorem nftAt_setNFTInfo (i : AccountNFT) :
    nftAt (s.setNFTInfo a o i) = Function.update (nftAt s) a i := by
  funext b
  by_cases hb : b = a
  · subst hb
    rw [Function.update_self, nftAt, setNFTInfo, view_change_self]
  · rw [Function.update_of_ne hb, nftAt, setNFTInfo, view_change_of_ne _ _ _ _ hb, ← nftAt]

theorem nftAt_getOrNewStateObject (a : Address) : nftAt (s.getOrNewStateObject a).1 = nftAt s := by
  funext b
  exact view_getOrNewStateObject s a _ b

theorem nftAt_putNFTInfo (a : Address) (i : AccountNFT) :
    nftAt (s.putNFTInfo a i) = Function.update (nftAt s) a i := by
  have hset : nftAt ((s.getOrNewStateObject a).1.setNFTInfo a (s.getOrNewStateObject a).2 i) = _ :=
    nftAt_setNFTInfo i
  rwa [nftAt_getOrNewStateObject] at hset

theorem putNFTInfo_found (a : Address) (i : AccountNFT) : ((s.putNFTInfo a i).accounts a).isSome := by
  simp [putNFTInfo, setNFTInfo]

theorem exists_getOrNewStateObject_iff (s : StateDB) (a b : Address) :
    ((s.getOrNewStateObject a).1.accounts b).isSome ↔ (s.accounts b).isSome ∨ b = a := by
  unfold getOrNewStateObject
  cases ha : s.getStateObject a with
  | some o =>
    refine ⟨Or.inl, ?_⟩
    rintro (h | rfl)
    · exact h
    · exact Option.isSome_iff_exists.mpr ⟨o, ha⟩
  | none =>
    by_cases hb : b = a
    · subst hb
      simp [createObject, ha, change]
    · simp [createObject, ha, change, Accounts.set, hb]

theorem exists_change_iff {e : JournalEntry} (h : (s.accounts a).isSome) :
    ((s.change e a o).accounts b).isSome ↔ (s.accounts b).isSome := by
  by_cases hb : b = a
  · subst hb
    simp [change, h]
  · simp [change, Accounts.set, hb]

theorem exists_putNFTInfo (a b : Address) (i : AccountNFT) :
    ((s.putNFTInfo a i).accounts b).isSome ↔ (s.accounts b).isSome ∨ b = a := by
  unfold putNFTInfo setNFTInfo
  rw [exists_change_iff (by rw [getOrNewStateObject_found]; rfl), exists_getOrNewStateObject_iff]

theorem NFTWrite.exist (h : NFTWrite s t) (ha : (s.accounts a).isSome) :
    (t.accounts a).isSome :=
  h.steps.exist ha

/-- A path component can be replaced exactly if there is one, and then there still is. -/
theorem retarget_isSome_iff : (retarget H url a).isSome ↔ '/' ∈ url := by
  unfold retarget
  cases hfind : url.reverse.findIdx? (· = '/') with
  | none =>
    refine ⟨fun h => (by cases h), fun hmem => ?_⟩
    have hnot := List.findIdx?_eq_none_iff.mp hfind '/' (List.mem_reverse.mpr hmem)
    simp at hnot
  | some k =>
    obtain ⟨hlt, hk, -⟩ := List.findIdx?_eq_some_iff_getElem.mp hfind
    simp only [Option.isSome_some, true_iff]
    rw [← List.mem_reverse]
    exact (of_decide_eq_true hk : url.reverse[k] = '/') ▸ List.getElem_mem hlt

theorem retarget_slash {url' : GoString} (h : retarget H url a = some url') : '/' ∈ url' := by
  unfold retarget at h
  split at h
  · cases h
  · cases h
    exact List.mem_append_right _ List.mem_cons_self

end Writes

/-! ## Merge -/

section Merge

variable {H : Hasher} {s t : StateDB}

/-- The `i`-th child of the block one level up around an address. -/
def childAddr (a : Address) (k i : ℕ) : Address :=
  bigToAddress (blockStart 16 (k + 1) a.toNat + i * 16 ^ k)

/-- The sixteen children of the block one level up. -/
def children (a : Address) (k : ℕ) : List Address := (List.range 16).map (childAddr a k)

theorem mem_children : b ∈ children a k ↔ ∃ i < 16, childAddr a k i = b := by
  simp [children]

theorem toNat_childAddr (a : Address) (hk : k + 1 ≤ 40) (hi : i < 16) :
    (childAddr a k i).toNat = blockStart 16 (k + 1) a.toNat + i * 16 ^ k :=
  toNat_bigToAddress (child_lt a hk hi)

theorem childAddr_zero (a : Address) (k : ℕ) : childAddr a k 0 = blockAddr (k + 1) a := by
  simp [childAddr, blockAddr]

/-- Every address of a block lies in one of its children. -/
theorem exists_childAddr (h : blockStart 16 (k + 1) b.toNat = blockStart 16 (k + 1) a.toNat) :
    ∃ i < 16, blockAddr k b = childAddr a k i := by
  obtain ⟨i, hi, hb⟩ := blockStart_mem_children (by decide) h
  exact ⟨i, hi, by rw [blockAddr, hb, childAddr]⟩

theorem blockStart_childAddr (a : Address) (hk : k + 1 ≤ 40) (hi : i < 16) :
    blockStart 16 (k + 1) (childAddr a k i).toNat = blockStart 16 (k + 1) a.toNat := by
  rw [toNat_childAddr a hk hi, blockStart_child (by decide) (dvd_blockStart 16 (k + 1) _) hi]

theorem nftAt_cleanAll (h : s.cleanAll l = some t) (b : Address) :
    nftAt t b = if b ∈ l then .blank else nftAt s b := by
  induction l generalizing s with
  | nil =>
    cases h
    simp
  | cons a rest ih =>
    rw [cleanAll] at h
    split at h
    · cases h
    next o ho =>
      rw [ih h, cleanNFT, nftAt_setNFTInfo]
      by_cases hrest : b ∈ rest
      · rw [if_pos hrest, if_pos (List.mem_cons_of_mem _ hrest)]
      · rw [if_neg hrest]
        by_cases hba : b = a
        · subst hba
          rw [Function.update_self, if_pos List.mem_cons_self]
        · rw [Function.update_of_ne hba, if_neg (by simp [hba, hrest])]

theorem exists_cleanAll (h : s.cleanAll l = some t) :
    (∀ b ∈ l, (s.accounts b).isSome) ∧ ∀ b, (t.accounts b).isSome ↔ (s.accounts b).isSome := by
  induction l generalizing s with
  | nil =>
    cases h
    exact ⟨fun b hb => (by cases hb), fun b => Iff.rfl⟩
  | cons c rest ih =>
    rw [cleanAll] at h
    split at h
    · cases h
    next o ho =>
      have hfound : (s.accounts c).isSome := Option.isSome_iff_exists.mpr ⟨o, ho⟩
      obtain ⟨hmem, hiff⟩ := ih h
      refine ⟨fun b hb => ?_, fun b => (hiff b).trans (exists_change_iff hfound)⟩
      rcases List.mem_cons.mp hb with rfl | hrest
      · exact hfound
      · exact (exists_change_iff hfound).mp (hmem b hrest)

theorem cleanAll_isSome (h : ∀ a ∈ l, (s.accounts a).isSome) : (s.cleanAll l).isSome := by
  induction l generalizing s with
  | nil => rfl
  | cons a rest ih =>
    obtain ⟨o, ho⟩ := Option.isSome_iff_exists.mp (h a List.mem_cons_self)
    rw [cleanAll, show s.getStateObject a = some o from ho]
    refine ih fun b hb => ?_
    exact (setNFTInfo_nftWrite ho _).exist (h b (List.mem_cons_of_mem _ hb))

/-- What the siblings must be for a merge. -/
theorem isCanMergeNFT16_eq (ho : s.accounts a = some o) (hk : o.nft.mergeLevel + 1 ≤ 40) :
    ∃ can, s.isCanMergeNFT16 H a = some can ∧
      (can = true ↔ ∀ i < 16, childAddr a o.nft.mergeLevel i = a ∨
        (s.accounts (childAddr a o.nft.mergeLevel i)).isSome ∧
          (nftAt s (childAddr a o.nft.mergeLevel i)).owner = o.nft.owner ∧
            (nftAt s (childAddr a o.nft.mergeLevel i)).mergeLevel = o.nft.mergeLevel) := by
  rw [isCanMergeNFT16, show s.getStateObject a = some o from ho]
  simp only [parentDigits_eq H a hk]
  have hsibling : ∀ i, siblingAddr ((a.checksumDigits H).take (40 - (o.nft.mergeLevel + 1)))
      o.nft.mergeLevel i = childAddr a o.nft.mergeLevel i := siblingAddr_eq H a hk
  refine ⟨_, rfl, ?_⟩
  rw [List.all_eq_true]
  refine ⟨fun h i hi => ?_, fun h i hi => ?_⟩
  · have hi' := h i (List.mem_range.mpr hi)
    rw [hsibling, Bool.or_eq_true, decide_eq_true_eq] at hi'
    refine hi'.imp (fun h => h) fun hso => ?_
    cases hacc : s.getStateObject (childAddr a o.nft.mergeLevel i) with
    | none => simp [hacc] at hso
    | some so =>
      have hacc' : s.accounts (childAddr a o.nft.mergeLevel i) = some so := hacc
      rw [nftAt, view_of_some _ hacc', hacc']
      simpa [hacc] using hso
  · rw [hsibling, Bool.or_eq_true, decide_eq_true_eq]
    refine (h i (List.mem_range.mp hi)).imp (fun h => h) ?_
    rintro ⟨hsome, howner, hlevel⟩
    obtain ⟨so, hacc⟩ := Option.isSome_iff_exists.mp hsome
    rw [nftAt, view_of_some _ hacc] at howner hlevel
    have hacc' : s.getStateObject (childAddr a o.nft.mergeLevel i) = some so := hacc
    simp [hacc', howner, hlevel]

/-- A merge is made below the highest level. -/
theorem mergeOnce_level {r : StateDB × Address} (hle : o.nft.mergeLevel ≤ 40)
    (h : s.mergeOnce H a o = some r) : o.nft.mergeLevel + 1 ≤ 40 := by
  by_contra hcon
  unfold mergeOnce parentDigits at h
  rw [show o.nft.mergeLevel = 40 by omega] at h
  cases h

/-- Merging in terms of the children and of the block one level up. -/
theorem mergeOnce_eq (hk : o.nft.mergeLevel + 1 ≤ 40) :
    s.mergeOnce H a o = (s.cleanAll (children a o.nft.mergeLevel)).bind fun u =>
      (retarget H o.nft.metaURL (blockAddr (o.nft.mergeLevel + 1) a)).map fun url =>
        (u.putNFTInfo (blockAddr (o.nft.mergeLevel + 1) a)
          { o.nft with mergeLevel := o.nft.mergeLevel + 1, metaURL := url },
          blockAddr (o.nft.mergeLevel + 1) a) := by
  have hchildren : (List.range 16).map (siblingAddr ((a.checksumDigits H).take
      (40 - (o.nft.mergeLevel + 1))) o.nft.mergeLevel) = children a o.nft.mergeLevel :=
    List.map_congr_left fun i _ => siblingAddr_eq H a hk i
  have hmerged : mergedAddr ((a.checksumDigits H).take (40 - (o.nft.mergeLevel + 1))) =
      blockAddr (o.nft.mergeLevel + 1) a := mergedAddr_eq H a hk
  rw [mergeOnce, parentDigits_eq H a hk, Nat.mod_eq_of_lt (by omega : o.nft.mergeLevel + 1 < 256)]
  simp only [hmerged, hchildren]
  cases s.cleanAll (children a o.nft.mergeLevel) with
  | none => rfl
  | some u =>
    cases retarget H o.nft.metaURL (blockAddr (o.nft.mergeLevel + 1) a) with
    | none => simp
    | some url => simp

/-- One merge: the parent takes the NFT part one level up, the other children are cleaned, and no
account is new. -/
theorem mergeOnce_inv (hk : o.nft.mergeLevel + 1 ≤ 40) (h : s.mergeOnce H a o = some (t, P)) :
    P = blockAddr (o.nft.mergeLevel + 1) a ∧ (∀ b, (t.accounts b).isSome ↔ (s.accounts b).isSome) ∧
      ∃ url, retarget H o.nft.metaURL P = some url ∧ ∀ b, nftAt t b =
        if b = P then { o.nft with mergeLevel := o.nft.mergeLevel + 1, metaURL := url }
        else if b ∈ children a o.nft.mergeLevel then .blank else nftAt s b := by
  rw [mergeOnce_eq hk] at h
  obtain ⟨u, hclean, hput⟩ := Option.bind_eq_some_iff.mp h
  obtain ⟨url, hurl, heq⟩ := Option.map_eq_some_iff.mp hput
  obtain ⟨rfl, rfl⟩ := Prod.mk.inj heq
  obtain ⟨hmem, hiff⟩ := exists_cleanAll hclean
  refine ⟨rfl, fun b => ?_, url, hurl, fun b => ?_⟩
  · rw [exists_putNFTInfo, hiff]
    refine or_iff_left_of_imp fun hb => hmem b (mem_children.mpr ⟨0, by decide, ?_⟩)
    rw [childAddr_zero, hb]
  · rw [nftAt_putNFTInfo]
    by_cases hb : b = blockAddr (o.nft.mergeLevel + 1) a
    · subst hb
      rw [Function.update_self, if_pos rfl]
    · rw [Function.update_of_ne hb, if_neg hb, nftAt_cleanAll hclean]

/-- A merge can be carried out where the children exist and the meta URL has a path. -/
theorem mergeOnce_isSome (ho : s.accounts a = some o) (hk : o.nft.mergeLevel + 1 ≤ 40)
    (hcan : s.isCanMergeNFT16 H a = some true) (hslash : '/' ∈ o.nft.metaURL) :
    (s.mergeOnce H a o).isSome := by
  obtain ⟨can, hcan', hiff⟩ := isCanMergeNFT16_eq (H := H) ho hk
  cases hcan.symm.trans hcan'
  have hchildren : ∀ c ∈ children a o.nft.mergeLevel, (s.accounts c).isSome := by
    intro c hc
    obtain ⟨i, hi, rfl⟩ := mem_children.mp hc
    rcases hiff.mp rfl i hi with heq | hsib
    · rw [heq, ho]
      rfl
    · exact hsib.1
  obtain ⟨u, hu⟩ := Option.isSome_iff_exists.mp (cleanAll_isSome hchildren)
  obtain ⟨url, hurl⟩ := Option.isSome_iff_exists.mp
    ((retarget_isSome_iff).mpr hslash)
  rw [mergeOnce_eq hk, hu, Option.bind_some, hurl]
  rfl

/-- `t` is `s` with the sixteen level-`k` siblings around `a`, all of owner `w`, merged. -/
structure Merges (s t : StateDB) (a : Address) (k : ℕ) (w : Address) : Prop where
  sibling : ∀ i < 16, (s.accounts (childAddr a k i)).isSome ∧
    (nftAt s (childAddr a k i)).owner = w ∧ (nftAt s (childAddr a k i)).mergeLevel = k
  parent : (nftAt t (blockAddr (k + 1) a)).owner = w ∧
    (nftAt t (blockAddr (k + 1) a)).mergeLevel = k + 1 ∧
      '/' ∈ (nftAt t (blockAddr (k + 1) a)).metaURL
  approved : (nftAt t (blockAddr (k + 1) a)).nftApproveAddressList =
    (nftAt s a).nftApproveAddressList
  cleaned : ∀ b ∈ children a k, b ≠ blockAddr (k + 1) a → nftAt t b = .blank
  kept : ∀ b, b ∉ children a k → nftAt t b = nftAt s b
  grows : ∀ b, (s.accounts b).isSome → (t.accounts b).isSome

/-- A merge that was allowed merges the siblings. -/
theorem merges_of_mergeOnce (ho : s.accounts a = some o) (hk : o.nft.mergeLevel + 1 ≤ 40)
    (hcan : s.isCanMergeNFT16 H a = some true) (h : s.mergeOnce H a o = some (t, P)) :
    P = blockAddr (o.nft.mergeLevel + 1) a ∧ (∀ b, (t.accounts b).isSome ↔ (s.accounts b).isSome) ∧
      Merges s t a o.nft.mergeLevel o.nft.owner := by
  have hnft : nftAt s a = o.nft := view_of_some _ ho
  obtain ⟨can, hcan', hiff⟩ := isCanMergeNFT16_eq ho hk
  obtain rfl : can = true := Option.some.inj (hcan'.symm.trans hcan)
  obtain ⟨rfl, hexists, url, hurl, hall⟩ := mergeOnce_inv hk h
  refine ⟨rfl, hexists, fun i hi => ?_, ?_, ?_, fun b hb hne => ?_, fun b hb => ?_,
    fun b hb => (hexists b).mpr hb⟩
  · rcases hiff.mp rfl i hi with heq | hsib
    · rw [heq, hnft, ho]
      exact ⟨rfl, rfl, rfl⟩
    · exact hsib
  · rw [hall, if_pos rfl]
    exact ⟨rfl, rfl, retarget_slash hurl⟩
  · rw [hall, if_pos rfl, hnft]
  · rw [hall, if_neg hne, if_pos hb]
  · have hne : b ≠ blockAddr (o.nft.mergeLevel + 1) a := by
      rintro rfl
      exact hb (mem_children.mpr ⟨0, by decide, childAddr_zero a _⟩)
    rw [hall, if_neg hne, if_neg hb]

namespace Merges

variable {a w : Address} {k : ℕ}

theorem exists_parent (h : Merges s t a k w) : (t.accounts (blockAddr (k + 1) a)).isSome := by
  rw [← childAddr_zero]
  exact h.grows _ (h.sibling 0 (by decide)).1

theorem mem_children_iff (hk : k + 1 ≤ 40) (hn : n < 2 ^ 160) :
    bigToAddress n ∈ children a k ↔ ∃ i < 16, n = blockStart 16 (k + 1) a.toNat + i * 16 ^ k := by
  rw [mem_children]
  refine exists_congr fun i => and_congr_right fun hi => ?_
  constructor
  · intro heq
    rw [← toNat_childAddr a hk hi, heq, toNat_bigToAddress hn]
  · rintro rfl
    rfl

/-- Merging blocks of an owner is the forest's join. -/
theorem forestOf_eq_join (h : Merges s t a k w) (hk : k + 1 ≤ 40) (hw : w ≠ 0) :
    forestOf t = Forest.join 16 (blockStart 16 (k + 1) a.toNat) k w (forestOf s) := by
  funext n
  rw [Forest.join]
  by_cases hn : n < 2 ^ 160
  · rw [forestOf, if_pos hn]
    by_cases hP : n = blockStart 16 (k + 1) a.toNat
    · subst hP
      rw [if_pos rfl]
      exact AccountNFT.entry_eq_some_iff.mpr ⟨h.parent.2.1, h.parent.1, hw⟩
    · rw [if_neg hP]
      by_cases hchild : ∃ i < 16, n = blockStart 16 (k + 1) a.toNat + i * 16 ^ k
      · have hmem := (mem_children_iff hk hn).mpr hchild
        have hne : bigToAddress n ≠ blockAddr (k + 1) a := fun heq =>
          hP (by rw [← toNat_bigToAddress hn, heq, toNat_blockAddr])
        rw [if_pos hchild, h.cleaned _ hmem hne]
        rfl
      · rw [if_neg hchild, h.kept _ fun hmem => hchild ((mem_children_iff hk hn).mp hmem), forestOf,
          if_pos hn]
  · have hP : n ≠ blockStart 16 (k + 1) a.toNat := fun heq => hn (by
      rw [heq, ← toNat_blockAddr]
      exact BitVec.isLt _)
    have hchild : ¬ ∃ i < 16, n = blockStart 16 (k + 1) a.toNat + i * 16 ^ k := by
      rintro ⟨i, hi, heq⟩
      exact hn (heq ▸ child_lt a hk hi)
    rw [if_neg hP, if_neg hchild, forestOf, forestOf, if_neg hn, if_neg hn]

/-- Before the merge every leaf of the parent block lies in a sibling. -/
theorem covers_sibling (h : Merges s t a k w) (hw : w ≠ 0) {x : Address}
    (hx : blockStart 16 (k + 1) x.toNat = blockStart 16 (k + 1) a.toNat) :
    Covers 16 (forestOf s) x.toNat k w := by
  obtain ⟨i, hi, heq⟩ := exists_childAddr hx
  obtain ⟨-, howner, hlevel⟩ := h.sibling i hi
  rw [covers_iff, heq]
  exact ⟨hlevel, howner, hw⟩

theorem completes (h : Merges s t a k w) (hk : k + 1 ≤ 40) (hw : w ≠ 0) :
    Completes 16 (forestOf s) a.toNat k w (k + 1) := by
  intro d hd hlt i hi _
  obtain rfl : d = k := by omega
  obtain ⟨-, howner, hlevel⟩ := h.sibling i hi
  rw [← toNat_childAddr a hk hi, forestOf_toNat]
  exact AccountNFT.entry_eq_some_iff.mpr ⟨hlevel, howner, hw⟩

/-- From the parent on, the joined forest is completed exactly as far as the old one. -/
theorem completes_iff (h : Merges s t a k w) (hk : k + 1 ≤ 40) (hw : w ≠ 0) (hn : k + 1 ≤ n) :
    Completes 16 (forestOf t) (blockStart 16 (k + 1) a.toNat) (k + 1) w n ↔
      Completes 16 (forestOf s) a.toNat k w n := by
  rw [h.forestOf_eq_join hk hw, completes_join (by decide) (dvd_blockStart 16 (k + 1) _),
    completes_blockStart (by decide) (Nat.le_refl _), completes_split (Nat.le_succ k) hn]
  exact (and_iff_right (h.completes hk hw)).symm

end Merges

theorem isSome_of_owner (h : (nftAt s a).owner ≠ 0) : (s.accounts a).isSome := by
  cases hacc : s.accounts a with
  | none =>
    rw [nftAt, view_of_none _ hacc] at h
    exact absurd rfl h
  | some o => rfl

/-- The siblings allow a merge exactly if they complete the parent block. -/
theorem not_completes_of_cannot (ho : s.accounts a = some o) (hk : o.nft.mergeLevel + 1 ≤ 40)
    (haligned : 16 ^ o.nft.mergeLevel ∣ a.toNat) (hcan : s.isCanMergeNFT16 H a = some false) :
    ¬ Completes 16 (forestOf s) a.toNat o.nft.mergeLevel o.nft.owner (o.nft.mergeLevel + 1) := by
  obtain ⟨can, hcan', hiff⟩ := isCanMergeNFT16_eq ho hk
  obtain rfl : can = false := Option.some.inj (hcan'.symm.trans hcan)
  intro hall
  refine absurd (hiff.mpr fun i hi => ?_) Bool.false_ne_true
  by_cases hself : childAddr a o.nft.mergeLevel i = a
  · exact Or.inl hself
  · have hstart : blockStart 16 o.nft.mergeLevel a.toNat = a.toNat :=
      blockStart_self (by decide) haligned
    have hentry := hall _ (Nat.le_refl _) (Nat.lt_succ_self _) i hi (by
      rw [hstart, ← toNat_childAddr a hk hi]
      exact fun heq => hself (BitVec.eq_of_toNat_eq heq))
    rw [← toNat_childAddr a hk hi, forestOf_toNat, AccountNFT.entry_eq_some_iff] at hentry
    obtain ⟨h1, h2, h3⟩ := hentry
    exact Or.inr ⟨isSome_of_owner (h2 ▸ h3), h2, h1⟩

end Merge

end StateDB

end Wormholes
