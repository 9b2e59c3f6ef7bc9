import Wormholes.Laws.State.Handover
import Wormholes.Laws.State.Writes

/-!
# Laws.State.Approvals — where an approved address comes from

`IsApprovedOne` reads the approved address in the account at a leaf's own address, whatever NFT the
leaf belongs to. The NFT functions move an approved address only together with an owner: a split
copies both to the parts, a merge takes both to the parent, a mint and an exchange leave none.
`Origin s t` says it of two states: whoever is approved at an address in `t`, and whoever owns an NFT
around it, had that approval and an NFT around it in `s`, at an address of the same block. A change of
owner is the exception. It clears the approved address of the NFT's own account and no other, so it
has this origin if no other address of the block carries an approval (`ClearInside`).

`Vouched G` is what follows along a run: the owner of every NFT around an approved address approved it.
-/

namespace Wormholes.StateDB

open Common Lib Lib.Forest

variable {H : Hasher} {s t u : StateDB}
variable {a b w p A N : Address} {k level blocknumber : ℕ} {o : StateObject}

/-- The approved address recorded at an address. -/
def approvedAt (s : StateDB) (a : Address) : Address := (nftAt s a).nftApproveAddressList

/-- Every approval of `t` at an address inside an NFT of an owner was one of `s` at an address inside
an NFT of that owner, in the same block of seven digits. Owners are read up to level six only. -/
def Origin (s t : StateDB) : Prop :=
  ∀ a l owner, approvedAt t a ≠ 0 → l ≤ 6 → Covers 16 (forestOf t) a.toNat l owner →
    ∃ b k, k ≤ 6 ∧ approvedAt s b = approvedAt t a ∧ Covers 16 (forestOf s) b.toNat k owner ∧
      blockAddr 7 b = blockAddr 7 a

theorem Origin.refl (s : StateDB) : Origin s s := fun a l _ _ hl hcovers =>
  ⟨a, l, hl, rfl, hcovers, rfl⟩

theorem Origin.trans (h : Origin s t) (h' : Origin t u) : Origin s u := by
  intro a l owner happroved hl hcovers
  obtain ⟨b, k, hk, hb, hcovers', hblock⟩ := h' a l owner happroved hl hcovers
  obtain ⟨c, j, hj, hc, hcovers'', hblock'⟩ := h b k owner (hb ▸ happroved) hk hcovers'
  exact ⟨c, j, hj, hc.trans hb, hcovers'', hblock'.trans hblock⟩

/-- Where `t` has a part of `s` or none, it has no approval and no NFT of its own. -/
theorem origin_of_erased (h : ∀ a, nftAt t a = nftAt s a ∨ nftAt t a = .blank) : Origin s t := by
  intro a l owner happroved hl hcovers
  refine ⟨a, l, hl, ?_, ?_, rfl⟩
  · rcases h a with hsame | hblank
    · rw [approvedAt, approvedAt, hsame]
    · rw [approvedAt, hblank] at happroved
      exact absurd rfl happroved
  · rw [covers_iff] at hcovers ⊢
    rcases h (blockAddr l a) with hsame | hblank
    · rwa [← hsame]
    · rw [hblank] at hcovers
      exact absurd hcovers.2.1.symm hcovers.2.2

/-! ## Merge -/

theorem blockAddr_seven (hk : k ≤ 7) (h : blockAddr k a = blockAddr k b) :
    blockAddr 7 a = blockAddr 7 b := by
  rw [← blockAddr_blockAddr hk, h, blockAddr_blockAddr hk]

/-- An address of a family lies in one of its sixteen NFTs. -/
theorem Merges.covers_child (h : Merges s t a k w) (hw : w ≠ 0)
    (hb : blockAddr (k + 1) b = blockAddr (k + 1) a) : Covers 16 (forestOf s) b.toNat k w := by
  have hstart := congrArg BitVec.toNat hb
  rw [toNat_blockAddr, toNat_blockAddr] at hstart
  obtain ⟨i, hi, hchild⟩ := exists_childAddr hstart
  obtain ⟨-, howner, hlevel⟩ := h.sibling i hi
  rw [covers_iff, hchild]
  exact ⟨hlevel, howner, hw⟩

/-- The merged NFT has owner and approved address of the part that completed the family. -/
theorem Merges.origin (h : Merges s t a k w) : Origin s t := by
  intro b l owner happroved hl hcovers
  obtain ⟨hlevel, howner, hne⟩ := covers_iff.mp hcovers
  -- An NFT around `b` is the merged one or was there before.
  have haround : ∀ {c : Address}, blockAddr l c = blockAddr l b →
      (blockAddr l b = blockAddr (k + 1) a → blockAddr (k + 1) c = blockAddr (k + 1) a) →
      ∃ j, j ≤ 6 ∧ Covers 16 (forestOf s) c.toNat j owner := by
    intro c hc hparent
    by_cases hmerged : blockAddr l b = blockAddr (k + 1) a
    · rw [hmerged] at hlevel howner
      have hkl : k + 1 = l := h.parent.2.1.symm.trans hlevel
      obtain rfl : w = owner := h.parent.1.symm.trans howner
      exact ⟨k, by omega, h.covers_child hne (hparent hmerged)⟩
    · by_cases hchild : blockAddr l b ∈ children a k
      · rw [h.cleaned _ hchild hmerged] at howner
        exact absurd howner.symm hne
      · rw [h.kept _ hchild] at hlevel howner
        refine ⟨l, hl, ?_⟩
        rw [covers_iff, hc]
        exact ⟨hlevel, howner, hne⟩
  by_cases hb : b = blockAddr (k + 1) a
  · -- The approval at the parent is the one of `a`.
    subst hb
    have hkl : k + 1 ≤ l := by
      by_contra hlt
      have hself : blockAddr l (blockAddr (k + 1) a) = blockAddr (k + 1) a := by
        refine blockAddr_of_dvd (Nat.dvd_trans (pow_dvd_pow 16 (by omega : l ≤ k + 1)) ?_)
        rw [toNat_blockAddr]
        exact dvd_blockStart 16 (k + 1) _
      rw [hself, h.parent.2.1] at hlevel
      omega
    have hsame : blockAddr l a = blockAddr l (blockAddr (k + 1) a) :=
      (blockAddr_blockAddr hkl a).symm
    obtain ⟨j, hj, hcovers'⟩ := haround hsame fun _ => rfl
    exact ⟨a, j, hj, h.approved.symm, hcovers', blockAddr_seven (by omega) hsame⟩
  · have hkept : approvedAt t b = approvedAt s b := by
      by_cases hchild : b ∈ children a k
      · rw [approvedAt, h.cleaned b hchild hb] at happroved
        exact absurd rfl happroved
      · rw [approvedAt, h.kept b hchild, approvedAt]
    obtain ⟨j, hj, hcovers'⟩ := haround rfl fun hmerged => by
      have hkl : k + 1 = l := by
        rw [hmerged] at hlevel
        exact h.parent.2.1.symm.trans hlevel
      rw [hkl, hmerged, hkl]
    exact ⟨b, j, hj, hkept.symm, hcovers', rfl⟩

/-- No merge level is above forty, the number of digits. -/
def Leveled (s : StateDB) : Prop := ∀ a, (nftAt s a).mergeLevel ≤ 40

/-- `t` comes from `s`, which keeps its levels low, with approvals that come from `s`. -/
structure Follows (s t : StateDB) : Prop where
  leveled : Leveled s → Leveled t
  origin : Leveled s → Origin s t

theorem Follows.refl (s : StateDB) : Follows s s := ⟨id, fun _ => .refl s⟩

theorem Follows.trans (h : Follows s t) (h' : Follows t u) : Follows s u where
  leveled hs := h'.leveled (h.leveled hs)
  origin hs := (h.origin hs).trans (h'.origin (h.leveled hs))

theorem follows_of_erased (h : ∀ a, nftAt t a = nftAt s a ∨ nftAt t a = .blank) : Follows s t where
  leveled hs a := by
    rcases h a with hsame | hblank
    · rw [hsame]
      exact hs a
    · rw [hblank]
      exact Nat.zero_le _
  origin _ := origin_of_erased h

theorem follows_of_parts (h : nftAt t = nftAt s) : Follows s t :=
  follows_of_erased fun a => Or.inl (congrFun h a)

theorem Steps.follows {P : Address → StateObject → StateObject → Prop} (h : Steps P s t)
    (hP : ∀ {a o o'}, P a o o' → o'.nft = o.nft) : Follows s t :=
  follows_of_parts (h.sameNFTs hP).parts

theorem getOrNewStateObject_follows (s : StateDB) (a : Address) :
    Follows s (s.getOrNewStateObject a).1 := follows_of_parts (nftAt_getOrNewStateObject a)

theorem Merges.leveled (h : Merges s t a k w) (hk : k + 1 ≤ 40) (hs : Leveled s) : Leveled t := by
  intro b
  by_cases hb : b = blockAddr (k + 1) a
  · rw [hb, h.parent.2.1]
    exact hk
  · by_cases hchild : b ∈ children a k
    · rw [h.cleaned b hchild hb]
      exact Nat.zero_le _
    · rw [h.kept b hchild]
      exact hs b

theorem Leveled.level_le (hs : Leveled s) (ho : s.accounts a = some o) : o.nft.mergeLevel ≤ 40 := by
  have hat := hs a
  rwa [show nftAt s a = o.nft from view_of_some _ ho] at hat

theorem mergeWalk_follows {calls : ℕ} (h : mergeWalk H calls s a = some t) (hs : Leveled s) :
    Leveled t ∧ Origin s t := by
  induction calls generalizing s a with
  | zero => cases h
  | succ calls ih =>
    rcases mergeWalk_inv h with ⟨-, rfl⟩ | ⟨o, v, b, ho, hcan, hmerge, hrest⟩
    · exact ⟨hs, .refl _⟩
    · have hlevel := mergeOnce_level (hs.level_le ho) hmerge
      obtain ⟨rfl, -, hmerges⟩ := merges_of_mergeOnce ho hlevel hcan hmerge
      obtain ⟨ht, horigin⟩ := ih hrest (hmerges.leveled hlevel hs)
      exact ⟨ht, hmerges.origin.trans horigin⟩

theorem mergeNFT16_follows (h : mergeNFT16 H s a = some t) : Follows s t where
  leveled hs := (mergeWalk_follows h hs).1
  origin hs := (mergeWalk_follows h hs).2

/-! ## Split -/

theorem blockAddr_child (hk : k + 1 ≤ 40) (hb : b ∈ children a k) :
    blockAddr (k + 1) b = blockAddr (k + 1) a ∧ 16 ^ k ∣ b.toNat := by
  obtain ⟨i, hi, rfl⟩ := mem_children.mp hb
  refine ⟨?_, ?_⟩
  · unfold blockAddr
    rw [blockStart_childAddr a hk hi]
  · rw [toNat_childAddr a hk hi]
    exact dvd_child (dvd_blockStart 16 (k + 1) _) i

/-- The parts have owner and approved address of the whole. -/
theorem Cuts.origin (h : Cuts s t a k w p) (hk : k + 1 ≤ 6)
    (hp : approvedAt s (blockAddr (k + 1) a) = p) : Origin s t := by
  intro b l owner happroved hl hcovers
  obtain ⟨hlevel, howner, hne⟩ := covers_iff.mp hcovers
  -- Where a part lies around `b`, the whole did.
  have haround : ∀ {c : Address}, blockAddr l c = blockAddr l b →
      (blockAddr l b ∈ children a k → blockAddr (k + 1) c = blockAddr (k + 1) a) →
      ∃ j, j ≤ 6 ∧ Covers 16 (forestOf s) c.toNat j owner := by
    intro c hc hwhole
    by_cases hchild : blockAddr l b ∈ children a k
    · obtain ⟨-, hw, -⟩ := h.child _ hchild
      obtain rfl : w = owner := hw.symm.trans howner
      refine ⟨k + 1, hk, ?_⟩
      rw [covers_iff, hwhole hchild]
      exact h.block
    · rw [h.kept _ hchild] at hlevel howner
      refine ⟨l, hl, ?_⟩
      rw [covers_iff, hc]
      exact ⟨hlevel, howner, hne⟩
  have hinside : ∀ {c : Address}, blockAddr l c ∈ children a k →
      blockAddr (k + 1) (blockAddr l c) = blockAddr (k + 1) a := fun hc =>
    (blockAddr_child (by omega) hc).1
  have hlevel_of : blockAddr l b ∈ children a k → k = l := fun hchild =>
    (h.child _ hchild).2.2.1.symm.trans hlevel
  by_cases hb : b ∈ children a k
  · obtain ⟨hparent, hdvd⟩ := blockAddr_child (by omega) hb
    have happroved : approvedAt s (blockAddr (k + 1) a) = approvedAt t b :=
      hp.trans (h.approved b hb).symm
    by_cases hpart : blockAddr l b ∈ children a k
    · obtain ⟨-, hw, -⟩ := h.child _ hpart
      obtain rfl : w = owner := hw.symm.trans howner
      refine ⟨blockAddr (k + 1) a, k + 1, hk, happroved, ?_, ?_⟩
      · rw [covers_iff, blockAddr_blockAddr (Nat.le_refl _)]
        exact h.block
      · rw [← hparent, blockAddr_blockAddr (by omega)]
    · have hkl : k + 1 ≤ l := by
        by_contra hlt
        apply hpart
        rwa [blockAddr_of_dvd (Nat.dvd_trans (pow_dvd_pow 16 (by omega : l ≤ k)) hdvd)]
      have hsame : blockAddr l (blockAddr (k + 1) a) = blockAddr l b := by
        rw [← hparent, blockAddr_blockAddr hkl]
      obtain ⟨j, hj, hcovers'⟩ := haround hsame fun hchild => absurd hchild hpart
      exact ⟨_, j, hj, happroved, hcovers', blockAddr_seven (by omega) hsame⟩
  · have hkept : approvedAt t b = approvedAt s b := by rw [approvedAt, h.kept b hb, approvedAt]
    obtain ⟨j, hj, hcovers'⟩ := haround rfl fun hchild => by
      have hkl := hlevel_of hchild
      have hwhole := hinside hchild
      rwa [blockAddr_blockAddr (by omega)] at hwhole
    exact ⟨b, j, hj, hkept.symm, hcovers', rfl⟩

/-- What the first rows of a split leave. -/
structure Opens (s t : StateDB) (A : Address) (l : ℕ) (w p : Address) : Prop where
  leveled : Leveled t
  origin : Origin s t
  block : Covers 16 (forestOf t) A.toNat l w
  approved : approvedAt t (blockAddr l A) = p
  parts : ∀ b, nftAt t b = nftAt s b ∨ 16 ^ l ∣ b.toNat ∧ blockAddr 6 b = blockAddr 6 A

theorem Opens.cut (h : Opens s t A (k + 1) w p) (hcut : Cuts t u A k w p) (hk : k + 1 ≤ 6) :
    Opens s u A k w p where
  leveled b := by
    by_cases hb : b ∈ children A k
    · rw [(hcut.child b hb).2.2.1]
      omega
    · rw [hcut.kept b hb]
      exact h.leveled b
  origin := h.origin.trans (hcut.origin hk h.approved)
  block := by
    obtain ⟨i, hi, hchild⟩ := exists_childAddr rfl
    obtain ⟨-, howner, hlevel, -⟩ := hcut.child _ (mem_children.mpr ⟨i, hi, hchild.symm⟩)
    rw [covers_iff]
    exact ⟨hlevel, howner, hcut.block.2.2⟩
  approved := by
    obtain ⟨i, hi, hchild⟩ := exists_childAddr rfl
    exact hcut.approved _ (mem_children.mpr ⟨i, hi, hchild.symm⟩)
  parts b := by
    by_cases hb : b ∈ children A k
    · obtain ⟨hparent, hdvd⟩ := blockAddr_child (by omega) hb
      exact Or.inr ⟨hdvd, by rw [← blockAddr_blockAddr hk, hparent, blockAddr_blockAddr hk]⟩
    · rw [hcut.kept b hb]
      exact (h.parts b).imp_right fun hpart =>
        ⟨Nat.dvd_trans (pow_dvd_pow 16 (Nat.le_succ k)) hpart.1, hpart.2⟩

theorem splitRows_opens {store : AccountNFT} {n : ℕ} (hsix : store.mergeLevel ≤ 6) (hs : Leveled s)
    (hblock : Covers 16 (forestOf s) A.toNat store.mergeLevel store.owner)
    (hp : approvedAt s (blockAddr store.mergeLevel A) = store.nftApproveAddressList)
    (hn : n ≤ store.mergeLevel)
    (h : (List.range n).foldlM (splitRow H (blockAddr store.mergeLevel A) A store) s = some t) :
    Opens s t A (store.mergeLevel - n) store.owner store.nftApproveAddressList := by
  induction n generalizing t with
  | zero =>
    cases h
    exact ⟨hs, .refl s, hblock, hp, fun _ => Or.inl rfl⟩
  | succ n ih =>
    obtain ⟨v, hrows, hrow⟩ := splitRows_inv h
    have hopens := ih (by omega) hrows
    have hcut := splitRow_cuts (by omega) (toNat_blockAddr _ _) (by omega) hopens.block hrow
    rw [show store.mergeLevel - n = store.mergeLevel - (n + 1) + 1 by omega] at hopens
    exact hopens.cut hcut (by omega)

theorem splitNFT16_opens {store : AccountNFT} (hs : Leveled s)
    (hstore : splitStore H s A level = some store) (h : splitNFT16 H s A level = some t) :
    Opens s t A level store.owner store.nftApproveAddressList ∧ 16 ^ level ∣ A.toNat := by
  obtain ⟨S, o, ho, rfl, hsix, hlt, hS, hdvd, hsplit⟩ := splitStore_inv hstore
  subst hS
  have hnft : nftAt s (blockAddr o.nft.mergeLevel A) = o.nft := view_of_some _ ho
  rw [hsplit] at h
  have howner : o.nft.owner ≠ 0 := by
    unfold splitStore at hstore
    split at hstore
    · cases hstore
    next S O hwalk =>
      split at hstore
      next hcond =>
        obtain ⟨l, -, -, -, hcovers, rfl⟩ := getNFTStoreAddress16_eq_some_iff.mp hwalk
        obtain ⟨hl, hO, hne⟩ := covers_iff.mp hcovers
        have hstored := Option.some.inj hstore
        rw [← hstored, hO]
        exact hne
      next => cases hstore
  have hopens := splitRows_opens hsix hs (covers_iff.mpr (by rw [hnft]; exact ⟨rfl, rfl, howner⟩))
    (by rw [approvedAt, hnft]) (by omega) h
  rw [show o.nft.mergeLevel - (o.nft.mergeLevel - level) = level by omega] at hopens
  exact ⟨hopens, hdvd⟩

theorem splitNFT16_follows (h : splitNFT16 H s A level = some t) : Follows s t := by
  cases hstore : splitStore H s A level with
  | none =>
    rw [splitNFT16_of_none hstore] at h
    cases h
    exact .refl _
  | some store =>
    exact ⟨fun hs => (splitNFT16_opens hs hstore h).1.leveled,
      fun hs => (splitNFT16_opens hs hstore h).1.origin⟩

/-! ## Changes of owner -/

/-- The NFT that a change of owner hands over: what a split leaves at the address, or the NFT
recorded there. -/
def handed (H : Hasher) (s : StateDB) (A : Address) (level : ℕ) : ℕ × Address :=
  match splitStore H s A level with
  | some store => (level, store.owner)
  | none => ((nftAt s A).mergeLevel, (nftAt s A).owner)

/-- No address of the NFT that a change of owner hands over carries an approval, the NFT's own apart.
A user NFT is not split. -/
def ClearInside (H : Hasher) (s : StateDB) (A N : Address) (level : ℕ) : Prop :=
  let nft :=
    if isOfficialNFT A then handed H s A level else ((nftAt s A).mergeLevel, (nftAt s A).owner)
  nft.2 ≠ N → ∀ a, a ≠ A → blockAddr nft.1 a = A → approvedAt s a = 0

theorem changeObjectOwner_follows (ho : s.accounts A = some o)
    (hclear : o.nft.owner ≠ N → ∀ a, a ≠ A → blockAddr o.nft.mergeLevel a = A →
      approvedAt s a = 0) : Follows s (s.changeObjectOwner A o N) := by
  have hnft : nftAt s A = o.nft := view_of_some _ ho
  have hparts := nftAt_changeObjectOwner (N := N) ho
  by_cases hsame : o.nft.owner = N
  · rw [if_pos hsame, ← hnft, Function.update_eq_self] at hparts
    exact follows_of_parts hparts
  · rw [if_neg hsame] at hparts
    refine ⟨fun hs b => ?_, fun _ a l owner happroved hl hcovers => ?_⟩
    · rw [hparts]
      by_cases hb : b = A
      · rw [hb, Function.update_self]
        show o.nft.mergeLevel ≤ 40
        exact hnft ▸ hs A
      · rw [Function.update_of_ne hb]
        exact hs b
    · have ha : a ≠ A := by
        intro ha
        rw [approvedAt, hparts, ha, Function.update_self] at happroved
        exact happroved rfl
      have hkept : approvedAt (s.changeObjectOwner A o N) a = approvedAt s a := by
        rw [approvedAt, hparts, Function.update_of_ne ha, approvedAt]
      rw [covers_iff, hparts] at hcovers
      by_cases hb : blockAddr l a = A
      · rw [hb, Function.update_self] at hcovers
        have hlevel : o.nft.mergeLevel = l := hcovers.1
        rw [hkept] at happroved
        exact absurd (hclear hsame a ha (hlevel ▸ hb)) happroved
      · rw [Function.update_of_ne hb] at hcovers
        exact ⟨a, l, hl, hkept.symm, covers_iff.mpr hcovers, rfl⟩

/-- Once split off, the NFT at the address is the one to hand over, and nothing inside it changed. -/
theorem handed_of_split (hs : Leveled s) (h : splitNFT16 H s A level = some t) :
    ((nftAt t A).mergeLevel, (nftAt t A).owner) = handed H s A level ∧
      ∀ a, a ≠ A → blockAddr (handed H s A level).1 a = A → approvedAt t a = approvedAt s a := by
  unfold handed
  cases hstore : splitStore H s A level with
  | none =>
    rw [splitNFT16_of_none hstore] at h
    cases h
    exact ⟨rfl, fun _ _ _ => rfl⟩
  | some store =>
    obtain ⟨hopens, hdvd⟩ := splitNFT16_opens hs hstore h
    have hblock : blockAddr level A = A := blockAddr_of_dvd hdvd
    obtain ⟨hlevel, howner, -⟩ := covers_iff.mp hopens.block
    rw [hblock] at hlevel howner
    refine ⟨by rw [hlevel, howner], fun a ha hin => ?_⟩
    rcases hopens.parts a with hsame | ⟨hwritten, -⟩
    · rw [approvedAt, hsame, approvedAt]
    · exact absurd ((blockAddr_of_dvd hwritten).symm.trans hin) ha

/-- A change of owner whose block is clear. -/
theorem changeNFTOwner_follows (hclear : ClearInside H (s.getOrNewStateObject A).1 A N level)
    (h : changeNFTOwner H s A N level = some t) (hs : Leveled s) : Leveled t ∧ Origin s t := by
  obtain ⟨s₁, hsplit, hmerge⟩ := changeNFTOwner_inv h
  have hfirst := getOrNewStateObject_follows s A
  have hopened := hfirst.leveled hs
  have hfound := getOrNewStateObject_found s₁ A
  have hnft : nftAt s₁ A = (s₁.getOrNewStateObject A).2.nft := by
    rw [← nftAt_getOrNewStateObject A]
    exact view_of_some _ hfound
  -- The split, or nothing for a user NFT, leaves the NFT to hand over at the address.
  have hs₁ : Follows (s.getOrNewStateObject A).1 s₁ ∧
      ((nftAt s₁ A).owner ≠ N → ∀ a, a ≠ A → blockAddr (nftAt s₁ A).mergeLevel a = A →
        approvedAt s₁ a = 0) := by
    unfold ClearInside at hclear
    split at hsplit
    next hoff =>
      rw [if_pos hoff] at hclear
      obtain ⟨hhanded, hinside⟩ := handed_of_split hopened hsplit
      rw [← hhanded] at hclear hinside
      refine ⟨splitNFT16_follows hsplit, fun howner a ha hin => ?_⟩
      rw [hinside a ha hin]
      exact hclear howner a ha hin
    next hoff =>
      rw [if_neg hoff] at hclear
      subst hsplit
      exact ⟨.refl _, hclear⟩
  have howned : Follows s₁ ((s₁.getOrNewStateObject A).1.changeObjectOwner A
      (s₁.getOrNewStateObject A).2 N) := by
    refine (getOrNewStateObject_follows s₁ A).trans (changeObjectOwner_follows hfound ?_)
    rw [← hnft]
    intro howner a ha hin
    rw [approvedAt, nftAt_getOrNewStateObject]
    exact hs₁.2 howner a ha hin
  have hall := (hfirst.trans hs₁.1).trans howned
  dsimp only at hmerge
  split at hmerge
  · have hmerged := hall.trans (mergeNFT16_follows hmerge)
    exact ⟨hmerged.leveled hs, hmerged.origin hs⟩
  · exact hmerge ▸ ⟨hall.leveled hs, hall.origin hs⟩

theorem changeObjectOwner_leveled (ho : s.accounts A = some o) (hs : Leveled s) :
    Leveled (s.changeObjectOwner A o N) := by
  have hnft : nftAt s A = o.nft := view_of_some _ ho
  intro b
  rw [nftAt_changeObjectOwner ho]
  by_cases hb : b = A
  · rw [hb, Function.update_self]
    have hlevel : o.nft.mergeLevel ≤ 40 := hnft ▸ hs A
    split
    · exact hlevel
    · exact hlevel
  · rw [Function.update_of_ne hb]
    exact hs b

/-- Levels stay in range, whatever is handed over. -/
theorem changeNFTOwner_leveled (h : changeNFTOwner H s A N level = some t) (hs : Leveled s) :
    Leveled t := by
  obtain ⟨s₁, hsplit, hmerge⟩ := changeNFTOwner_inv h
  have hopened := (getOrNewStateObject_follows s A).leveled hs
  have hs₁ : Leveled s₁ := by
    split at hsplit
    · exact (splitNFT16_follows hsplit).leveled hopened
    · exact hsplit ▸ hopened
  have howned := changeObjectOwner_leveled (N := N) (getOrNewStateObject_found s₁ A)
    ((getOrNewStateObject_follows s₁ A).leveled hs₁)
  dsimp only at hmerge
  split at hmerge
  · exact (mergeNFT16_follows hmerge).leveled howned
  · exact hmerge ▸ howned

/-! ## Exchanges and mints -/

theorem cleanNFT_follows (A : Address) (o : StateObject) : Follows s (s.cleanNFT A o) := by
  refine follows_of_erased fun a => ?_
  rw [cleanNFT, nftAt_setNFTInfo]
  by_cases ha : a = A
  · rw [ha, Function.update_self]
    exact Or.inr rfl
  · rw [Function.update_of_ne ha]
    exact Or.inl rfl

theorem exchangeNFTToCurrency_follows {caller : Address}
    (h : exchangeNFTToCurrency H s caller A blocknumber level = some t) : Follows s t := by
  obtain ⟨s₁, hsplit, -, rfl⟩ := exchangeNFTToCurrency_inv h
  have hopened := ((splitNFT16_follows hsplit).trans (getOrNewStateObject_follows s₁ A)).trans
    (getOrNewStateObject_follows _ caller)
  have hqueued := hopened.trans (follows_of_parts (t := enqueue _
    (exchangeEntry H A (s₁.getOrNewStateObject A).2 blocknumber)) rfl)
  refine (hqueued.trans (cleanNFT_follows A _)).trans
    ((addBalance_steps _ _ _).follows fun hP => ?_)
  obtain ⟨b, rfl⟩ := hP
  rfl

/-- An NFT of level zero, written without an approved address. -/
theorem written_follows {i : AccountNFT} (hlevel : i.mergeLevel = 0)
    (happroved : i.nftApproveAddressList = 0) : Follows s (s.written A i) := by
  have hparts := nftAt_written (s := s) A i
  refine ⟨fun hs b => ?_, fun _ a l owner hne hl hcovers => ?_⟩
  · rw [hparts]
    by_cases hb : b = A
    · rw [hb, Function.update_self, hlevel]
      exact Nat.zero_le _
    · rw [Function.update_of_ne hb]
      exact hs b
  · have ha : a ≠ A := by
      intro ha
      rw [approvedAt, hparts, ha, Function.update_self] at hne
      exact hne happroved
    refine ⟨a, l, hl, ?_, ?_, rfl⟩
    · rw [approvedAt, approvedAt, hparts, Function.update_of_ne ha]
    · rw [covers_iff, hparts] at hcovers
      by_cases hb : blockAddr l a = A
      · rw [hb, Function.update_self, hlevel] at hcovers
        rw [← hcovers.1, blockAddr_zero] at hb
        exact absurd hb ha
      · rw [Function.update_of_ne hb] at hcovers
        exact covers_iff.mpr hcovers

theorem createNFTByUser_follows (exchanger owner : Address) (royalty : ℕ) (metaurl : GoString) :
    Follows s (s.createNFTByUser exchanger owner royalty metaurl).1 := by
  have hwritten := written_follows (s := s) (A := bigToAddress s.pools.mintDeep.userMint)
    (i := { AccountNFT.blank with
      owner := owner, creator := owner, royalty := royalty, exchanger := exchanger,
      metaURL := metaurl }) rfl rfl
  exact hwritten.trans (follows_of_parts rfl)

theorem MintRound.follows {owner : Address} (h : MintRound H blocknumber owner s t) :
    Follows s t := by
  obtain ⟨s₁, A, info, popped, s₂, hnext, hmint, rfl⟩ := h
  have hnextOfficial : Follows s s₁ := by
    obtain ⟨pool, rfl⟩ := nextOfficial_eq hnext
    exact follows_of_parts rfl
  have hwritten : Follows s₁ (s₁.written A (mintInfo owner info)) := written_follows rfl rfl
  have hminted := (hnextOfficial.trans hwritten).trans (mergeNFT16_follows hmint)
  split
  · exact hminted
  · exact hminted.trans (follows_of_parts rfl)

theorem mintLoop_follows {owners : List Address} {full : Bool}
    (h : mintLoop H s blocknumber owners = some (t, full)) : Follows s t :=
  mintLoop_invariant (fun hround hs => hs.trans hround.follows) h (.refl s)

theorem createNFTByOfficial16_follows {owners : List Address}
    (h : createNFTByOfficial16 H s owners blocknumber = some t) : Follows s t := by
  obtain ⟨u, full, hloop, rfl | helect⟩ := createNFTByOfficial16_cases h
  · exact mintLoop_follows hloop
  · refine (mintLoop_follows hloop).trans
      ((electNominatedOfficialNFT_steps helect).follows fun hP => ?_)
    obtain ⟨x, rfl⟩ := hP
    rfl

/-! ## Who approved -/

variable {G G' : Address → Address → Address → Prop}

/-- `G owner nft approved` does not tell the addresses of a block of seven digits apart: merges and
splits carry an approval from one to another. -/
def BlockWise (G : Address → Address → Address → Prop) : Prop :=
  ∀ owner a b approved, blockAddr 7 a = blockAddr 7 b → G owner a approved → G owner b approved

/-- The owner of every NFT around an approved address is known to `G` for the approval. -/
structure Vouched (G : Address → Address → Address → Prop) (s : StateDB) : Prop where
  leveled : Leveled s
  granted : ∀ a l owner, approvedAt s a ≠ 0 → l ≤ 6 → Covers 16 (forestOf s) a.toNat l owner →
    G owner a (approvedAt s a)

theorem Vouched.mono (h : Vouched G s)
    (hG : ∀ owner a approved, G owner a approved → G' owner a approved) : Vouched G' s :=
  ⟨h.leveled, fun a l owner happroved hl hcovers =>
    hG _ _ _ (h.granted a l owner happroved hl hcovers)⟩

theorem Vouched.origin (hG : BlockWise G) (hs : Vouched G s) (ht : Leveled t) (h : Origin s t) :
    Vouched G t := by
  refine ⟨ht, fun a l owner happroved hl hcovers => ?_⟩
  obtain ⟨b, k, hk, hb, hcovers', hblock⟩ := h a l owner happroved hl hcovers
  rw [← hb]
  exact hG _ _ _ _ hblock (hs.granted b k owner (hb ▸ happroved) hk hcovers')

theorem Vouched.follows (hG : BlockWise G) (hs : Vouched G s) (h : Follows s t) : Vouched G t :=
  hs.origin hG (h.leveled hs.leveled) (h.origin hs.leveled)

theorem nftAt_setNFTApproveAddress (ho : s.accounts A = some o) :
    nftAt (s.setNFTApproveAddress A o p) =
      Function.update (nftAt s) A { nftAt s A with nftApproveAddressList := p } := by
  have hnft : nftAt s A = o.nft := view_of_some _ ho
  funext b
  by_cases hb : b = A
  · subst hb
    rw [Function.update_self, hnft]
    exact view_change_self _ _ _ _ _
  · rw [Function.update_of_ne hb]
    exact view_change_of_ne _ _ _ _ hb

/-- A new approved address at an address whose NFTs' owners it is known from. -/
theorem setNFTApproveAddress_vouched (ho : s.accounts A = some o)
    (hp : p ≠ 0 → ∀ l owner, l ≤ 6 → Covers 16 (forestOf s) A.toNat l owner → G owner A p)
    (hs : Vouched G s) : Vouched G (s.setNFTApproveAddress A o p) := by
  have hparts := nftAt_setNFTApproveAddress (p := p) ho
  have hsame : ∀ b, (nftAt (s.setNFTApproveAddress A o p) b).owner = (nftAt s b).owner ∧
      (nftAt (s.setNFTApproveAddress A o p) b).mergeLevel = (nftAt s b).mergeLevel := by
    intro b
    rw [hparts]
    by_cases hb : b = A
    · rw [hb, Function.update_self]
      exact ⟨rfl, rfl⟩
    · rw [Function.update_of_ne hb]
      exact ⟨rfl, rfl⟩
  refine ⟨fun b => ?_, fun a l owner happroved hl hcovers => ?_⟩
  · rw [(hsame b).2]
    exact hs.leveled b
  · have hbefore : Covers 16 (forestOf s) a.toNat l owner := by
      rw [covers_iff, (hsame _).1, (hsame _).2] at hcovers
      exact covers_iff.mpr hcovers
    by_cases ha : a = A
    · have hset : approvedAt (s.setNFTApproveAddress A o p) a = p := by
        rw [approvedAt, hparts, ha, Function.update_self]
      rw [hset] at happroved ⊢
      rw [ha] at hbefore ⊢
      exact hp happroved l owner hl hbefore
    · have hkept : approvedAt (s.setNFTApproveAddress A o p) a = approvedAt s a := by
        rw [approvedAt, hparts, Function.update_of_ne ha, approvedAt]
      rw [hkept] at happroved ⊢
      exact hs.granted a l owner happroved hl hbefore

theorem forestOf_getOrNewStateObject (s : StateDB) (a : Address) :
    forestOf (s.getOrNewStateObject a).1 = forestOf s :=
  (getOrNewStateObject_sameNFTs s a).forestOf_eq

theorem changeNFTApproveAddress_vouched (hG : BlockWise G)
    (hp : ∀ l owner, l ≤ 6 → Covers 16 (forestOf s) A.toNat l owner → G owner A p)
    (hs : Vouched G s) : Vouched G (s.changeNFTApproveAddress A p) := by
  have hopened := hs.follows hG (getOrNewStateObject_follows s A)
  unfold changeNFTApproveAddress
  dsimp only
  split
  · exact hopened
  · refine setNFTApproveAddress_vouched (getOrNewStateObject_found s A) (fun _ => ?_) hopened
    rw [forestOf_getOrNewStateObject]
    exact hp

theorem cancelNFTApproveAddress_vouched (hG : BlockWise G) (A p : Address) (hs : Vouched G s) :
    Vouched G (s.cancelNFTApproveAddress A p) := by
  have hopened := hs.follows hG (getOrNewStateObject_follows s A)
  unfold cancelNFTApproveAddress
  dsimp only
  split
  · exact setNFTApproveAddress_vouched (getOrNewStateObject_found s A) (fun h => absurd rfl h)
      hopened
  · exact hopened

/-- Whoever is approved at a leaf's address was approved by the leaf's owner. -/
theorem Vouched.approved_of_owner (hs : Vouched G s) {x : Address} (hp : p ≠ 0)
    (happroved : isApprovedOne s x p = true) (howner : getNFTOwner16 H s x ≠ 0) :
    G (getNFTOwner16 H s x) x p := by
  have hpart : approvedAt s x = p := by
    unfold isApprovedOne at happroved
    split at happroved
    next o ho =>
      rw [approvedAt, show nftAt s x = o.nft from view_of_some _ ho]
      exact (of_decide_eq_true happroved).symm
    next => cases happroved
  rw [getNFTOwner16_eq] at howner ⊢
  cases hstore : getNFTStoreAddress16 H s x 0 with
  | none =>
    rw [hstore] at howner
    exact absurd rfl howner
  | some found =>
    obtain ⟨S, owner⟩ := found
    obtain ⟨l, hl, -, -, hcovers, -⟩ := getNFTStoreAddress16_eq_some_iff.mp hstore
    subst hpart
    exact hs.granted x l owner hp hl hcovers

end Wormholes.StateDB
