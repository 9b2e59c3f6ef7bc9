import Wormholes.Laws.State.Regroup

/-!
# Laws.State.RoundTrip — merging sixteen siblings and splitting them again

Merging takes the part of the one NFT it starts from; the other fifteen parts are cleaned
(`Gathers`). Splitting the merged NFT gives every sibling a copy of that part, with its own address
at the end of the meta URL. So the round trip restores the siblings if and only if they had that
part in common, the merge stayed within the lookup's reach, and the split was not refused for the
letter case of the addresses' texts (`merge_split_restores_iff`). Nothing is assumed of the rest of
the state.
-/

namespace Wormholes

open Lib Lib.Forest Common

namespace StateDB

variable {H : Hasher} {s t u : StateDB} {a : Address}
variable {b w : Address} {k e : ℕ}

/-! ## Meta URLs -/

theorem slash_notMem_string (H : Hasher) (a : Address) : '/' ∉ a.string H := by
  intro hmem
  have hdigits : '/' ∈ a.checksumDigits H := by
    rcases List.mem_cons.mp hmem with h | hmem
    · cases h
    · rcases List.mem_cons.mp hmem with h | hmem
      · cases h
      · exact hmem
  have hspelled : fromHexChar '/' ∈ a.digits.map some := by
    rw [← Address.spells_checksumDigits H a]
    exact List.mem_map_of_mem hdigits
  obtain ⟨d, -, hd⟩ := List.mem_map.mp hspelled
  cases hd

/-- The last component is what follows the last slash. -/
theorem retarget_append {dir text : GoString} (h : '/' ∉ text) (c : Address) :
    retarget H (dir ++ '/' :: text) c = some (dir ++ '/' :: c.string H) := by
  have hlast : (dir ++ '/' :: text).reverse.findIdx? (· = '/') = some text.length := by
    have hnone : text.reverse.findIdx? (· = '/') = none := by
      refine List.findIdx?_eq_none_iff.mpr fun x hx => ?_
      simp only [decide_eq_false_iff_not]
      rintro rfl
      exact h (List.mem_reverse.mp hx)
    rw [List.reverse_append, List.reverse_cons, List.append_assoc, List.findIdx?_append, hnone]
    simp [List.findIdx?_cons]
  have hlen : (dir ++ '/' :: text).length - 1 - text.length = dir.length := by
    rw [List.length_append, List.length_cons]
    omega
  unfold retarget
  simp only [hlast, hlen, List.take_left]

/-- Replacing the last component twice is replacing it once. -/
theorem retarget_retarget {url url' : GoString} {c : Address} (h : retarget H url b = some url') :
    retarget H url' c = retarget H url c := by
  unfold retarget at h
  cases hfind : url.reverse.findIdx? (· = '/') with
  | none =>
    rw [hfind] at h
    cases h
  | some k =>
    rw [hfind] at h
    obtain rfl := Option.some.inj h
    rw [retarget_append (slash_notMem_string H b)]
    unfold retarget
    simp only [hfind]

/-! ## What a merge keeps -/

/-- Above the merged level the children around an address are those around its block. -/
theorem children_blockAddr (hk : k ≤ e + 1) (a : Address) :
    children (blockAddr k a) e = children a e := by
  unfold children
  refine List.map_congr_left fun i _ => ?_
  rw [childAddr, toNat_blockAddr, blockStart_blockStart (by decide) hk, ← childAddr]

theorem blockAddr_mem_children (a : Address) (e : ℕ) : blockAddr e a ∈ children a e := by
  obtain ⟨i, hi, heq⟩ := exists_childAddr rfl
  exact mem_children.mpr ⟨i, hi, heq.symm⟩

theorem dvd_of_mem_children (hk : k + 1 ≤ 40) (hb : b ∈ children a k) : 16 ^ k ∣ b.toNat := by
  obtain ⟨i, hi, rfl⟩ := mem_children.mp hb
  rw [toNat_childAddr a hk hi]
  exact dvd_child (dvd_blockStart 16 (k + 1) _) i

/-- Above their level siblings share their blocks. -/
theorem blockAddr_of_mem_children (hk : k + 1 ≤ 40) (hb : b ∈ children a k) (he : k < e) :
    blockAddr e b = blockAddr e a := by
  obtain ⟨i, hi, rfl⟩ := mem_children.mp hb
  have hstart := blockStart_childAddr a hk hi
  unfold blockAddr
  rw [← blockStart_blockStart (by decide) he (childAddr a k i).toNat, hstart,
    blockStart_blockStart (by decide) he]

/-- The NFT at `a` was merged up to level `n`: the block of level `n` has its part, with the block's
address at the end of the meta URL, and all other accounts it went through are blank. -/
structure Gathers (H : Hasher) (s t : StateDB) (a : Address) (n : ℕ) : Prop where
  level_le : (nftAt s a).mergeLevel ≤ n
  completes : Completes 16 (forestOf s) a.toNat (nftAt s a).mergeLevel (nftAt s a).owner n
  maximal : ¬ Completes 16 (forestOf s) a.toNat (nftAt s a).mergeLevel (nftAt s a).owner (n + 1)
  part : nftAt t (blockAddr n a) = { nftAt s a with
    mergeLevel := n
    metaURL := if n = (nftAt s a).mergeLevel then (nftAt s a).metaURL
      else (retarget H (nftAt s a).metaURL (blockAddr n a)).getD [] }
  cleaned : ∀ e, (nftAt s a).mergeLevel ≤ e → e < n → ∀ b ∈ children a e, b ≠ blockAddr n a →
    nftAt t b = .blank
  kept : ∀ b, (∀ e, (nftAt s a).mergeLevel ≤ e → e < n → b ∉ children a e) → nftAt t b = nftAt s b
  exists_iff : ∀ b, (t.accounts b).isSome ↔ (s.accounts b).isSome
  way : ∀ e, (nftAt s a).mergeLevel ≤ e → e ≤ n → (t.accounts (blockAddr e a)).isSome

theorem gathers_self (ha : Stored s a) (haligned : 16 ^ (nftAt s a).mergeLevel ∣ a.toNat)
    (hnot : ¬ Completes 16 (forestOf s) a.toNat (nftAt s a).mergeLevel (nftAt s a).owner
      ((nftAt s a).mergeLevel + 1)) : Gathers H s s a (nftAt s a).mergeLevel where
  level_le := Nat.le_refl _
  completes := completes_self _ _ _
  maximal := hnot
  part := by rw [blockAddr_of_dvd haligned, if_pos rfl]
  cleaned e he hlt := absurd he (Nat.not_le.mpr hlt)
  kept _ _ := rfl
  exists_iff _ := Iff.rfl
  way e he hle := by
    obtain rfl : e = (nftAt s a).mergeLevel := Nat.le_antisymm hle he
    rw [blockAddr_of_dvd haligned]
    exact isSome_of_owner ha.2

theorem MergesTo.gathers {n : ℕ} (h : MergesTo H s u a) (ha : Stored s a)
    (haligned : 16 ^ (nftAt s a).mergeLevel ∣ a.toNat) (hk : (nftAt s a).mergeLevel + 1 ≤ 39)
    (hrest : Gathers H u t (blockAddr ((nftAt s a).mergeLevel + 1) a) n) : Gathers H s t a n := by
  obtain ⟨url, hurl, hpart⟩ := h.part
  have howner := h.merges.parent.1
  have hlevel := h.merges.parent.2.1
  have hn : (nftAt s a).mergeLevel + 1 ≤ n := hlevel ▸ hrest.level_le
  have hblock := blockAddr_blockAddr hn a
  have hcompl := hrest.completes
  have hmax := hrest.maximal
  rw [hlevel, howner, toNat_blockAddr] at hcompl hmax
  have hcleaned : ∀ e, (nftAt s a).mergeLevel + 1 ≤ e → e < n → ∀ b ∈ children a e,
      b ≠ blockAddr n a → nftAt t b = .blank := by
    intro e he hlt b hb hne
    refine hrest.cleaned e (by rw [hlevel]; exact he) hlt b ?_ (by rwa [hblock])
    rwa [children_blockAddr (by omega)]
  have hkept : ∀ b, (∀ e, (nftAt s a).mergeLevel + 1 ≤ e → e < n → b ∉ children a e) →
      nftAt t b = nftAt u b := by
    intro b hb
    refine hrest.kept b fun e he hlt => ?_
    rw [hlevel] at he
    rw [children_blockAddr (by omega)]
    exact hb e he hlt
  refine ⟨by omega, (h.merges.completes_iff (by omega) ha.2 hn).mp hcompl,
    fun hall => hmax ((h.merges.completes_iff (by omega) ha.2 (by omega)).mpr hall), ?_,
    fun e he hlt b hb hne => ?_, fun b hb => ?_, fun b => (hrest.exists_iff b).trans (h.exists_iff b),
    fun e he hle => ?_⟩
  · have htop := hrest.part
    rw [hblock, hpart] at htop
    rw [htop, if_neg (by omega : n ≠ (nftAt s a).mergeLevel)]
    dsimp only
    split
    next heq => rw [heq, hurl, Option.getD_some]
    next => rw [retarget_retarget hurl]
  · by_cases hlater : ∃ e', (nftAt s a).mergeLevel + 1 ≤ e' ∧ e' < n ∧ b ∈ children a e'
    · obtain ⟨e', he', hlt', hmem⟩ := hlater
      exact hcleaned e' he' hlt' b hmem hne
    · -- then `b` is one of the siblings of this merge, and not the parent
      have hsame := hkept b fun e' he' hlt' hmem => hlater ⟨e', he', hlt', hmem⟩
      have hek : e = (nftAt s a).mergeLevel := by
        by_contra hne'
        exact hlater ⟨e, by omega, hlt, hb⟩
      subst hek
      rw [hsame]
      refine h.merges.cleaned b hb fun hparent => ?_
      rcases Nat.eq_or_lt_of_le hn with heq | hgt
      · exact hne (heq ▸ hparent)
      · exact hlater ⟨_, Nat.le_refl _, hgt, hparent ▸ blockAddr_mem_children a _⟩
  · rw [hkept b fun e he hlt => hb e (by omega) hlt]
    exact h.merges.kept b (hb _ (Nat.le_refl _) (by omega))
  · rcases Nat.eq_or_lt_of_le he with rfl | hgt
    · rw [blockAddr_of_dvd haligned, hrest.exists_iff, h.exists_iff]
      exact isSome_of_owner ha.2
    · have hway := hrest.way e (by rw [hlevel]; exact hgt) hle
      rwa [blockAddr_blockAddr hgt] at hway

theorem mergeWalk_gathers {calls : ℕ} (ha : Stored s a)
    (haligned : 16 ^ (nftAt s a).mergeLevel ∣ a.toNat) (h : mergeWalk H calls s a = some t) :
    ∃ n, Gathers H s t a n := by
  refine mergeWalk_rec (motive := fun s a t => ∃ n, Gathers H s t a n) ?_ ?_ ha haligned h
  · intro s a ha haligned hnot
    exact ⟨_, gathers_self ha haligned hnot⟩
  · intro s u t a ha haligned hk hmerges ih
    obtain ⟨n, hrest⟩ := ih
    exact ⟨n, hmerges.gathers ha haligned hk hrest⟩

namespace Gathers

variable {n : ℕ} {c : Address}

/-- After the merge no account below level `n` around a sibling records a block. -/
theorem not_covers (h : Gathers H s t a n) (hk : (nftAt s a).mergeLevel + 1 ≤ 40)
    (hn : (nftAt s a).mergeLevel < n) (hc : c ∈ children a (nftAt s a).mergeLevel) (he : e < n)
    (o : Address) : ¬ Covers 16 (forestOf t) c.toNat e o := by
  -- the account is one that the merge went through
  have hmem : ∃ d, (nftAt s a).mergeLevel ≤ d ∧ d < n ∧ blockAddr e c ∈ children a d := by
    rcases Nat.lt_or_ge (nftAt s a).mergeLevel e with hlt | hge
    · refine ⟨e, Nat.le_of_lt hlt, he, ?_⟩
      rw [blockAddr_of_mem_children hk hc hlt]
      exact blockAddr_mem_children a e
    · refine ⟨_, Nat.le_refl _, hn, ?_⟩
      rwa [blockAddr_of_dvd ((Nat.pow_dvd_pow 16 hge).trans (dvd_of_mem_children hk hc))]
  obtain ⟨d, hd, hdn, hmem⟩ := hmem
  intro hcov
  obtain ⟨hlevel, howner, hne⟩ := covers_iff.mp hcov
  by_cases htop : blockAddr e c = blockAddr n a
  · rw [htop, h.part] at hlevel
    exact absurd hlevel (Nat.ne_of_gt he)
  · rw [h.cleaned d hd hdn _ hmem htop] at howner
    exact hne howner.symm

/-- The lookup from a sibling finds the merged block if it is of level six or less, and nothing
otherwise. -/
theorem store_eq (h : Gathers H s t a n) (ha : Stored s a) (hk : (nftAt s a).mergeLevel + 1 ≤ 40)
    (hn : (nftAt s a).mergeLevel < n) (hc : c ∈ children a (nftAt s a).mergeLevel)
    (hexists : (s.accounts c).isSome) :
    getNFTStoreAddress16 H t c 0 = if n ≤ 6 then some (blockAddr n a, (nftAt s a).owner) else none := by
  split
  next hsix =>
    refine getNFTStoreAddress16_eq_some_iff.mpr ⟨n, hsix, fun e he => ?_,
      fun e he o => h.not_covers hk hn hc he o, ?_, (blockAddr_of_mem_children hk hc hn).symm⟩
    · rcases Nat.lt_or_ge (nftAt s a).mergeLevel e with hlt | hge
      · rw [blockAddr_of_mem_children hk hc hlt]
        exact h.way e (Nat.le_of_lt hlt) he
      · rw [blockAddr_of_dvd ((Nat.pow_dvd_pow 16 hge).trans (dvd_of_mem_children hk hc)),
          h.exists_iff]
        exact hexists
    · rw [covers_iff, blockAddr_of_mem_children hk hc hn, h.part]
      exact ⟨rfl, rfl, ha.2⟩
  next hsix =>
    cases hstore : getNFTStoreAddress16 H t c 0 with
    | none => rfl
    | some r =>
      obtain ⟨l, hl, -, -, hcov, -⟩ := getNFTStoreAddress16_eq_some_iff.mp hstore
      exact absurd hcov (h.not_covers hk hn hc (by omega) _)

end Gathers

/-! ## The round trip -/

theorem splitRows_isSome {S : Address} {store : AccountNFT} {n : ℕ} (hm : store.mergeLevel ≤ 40)
    (hS : S.toNat = blockStart 16 store.mergeLevel a.toNat) (hslash : '/' ∈ store.metaURL)
    (hn : n ≤ store.mergeLevel) :
    ((List.range n).foldlM (splitRow H S a store) s).isSome := by
  induction n with
  | zero => rfl
  | succ n ih =>
    obtain ⟨u, hu⟩ := Option.isSome_iff_exists.mp (ih (by omega))
    have hrow : (splitRow H S a store u n).isSome := by
      rw [splitRow_eq hm hS (by omega)]
      exact splitPuts_isSome hslash _ _
    rw [List.range_succ, List.foldlM_append, hu]
    simpa using hrow

/-- The sixteen siblings of level `k` around `a` are official NFTs of one owner with a path in the
meta URL. -/
def Siblings (s : StateDB) (a : Address) (k : ℕ) (w : Address) : Prop :=
  ∀ b ∈ children a k, Stored s b ∧ (nftAt s b).mergeLevel = k ∧ (nftAt s b).owner = w ∧
    '/' ∈ (nftAt s b).metaURL

/-- The account has the owner, creator, royalty, exclusive exchanger and meta URL it had. -/
def Restored (s t : StateDB) (b : Address) : Prop :=
  (nftAt t b).owner = (nftAt s b).owner ∧ (nftAt t b).creator = (nftAt s b).creator ∧
    (nftAt t b).royalty = (nftAt s b).royalty ∧ (nftAt t b).exchanger = (nftAt s b).exchanger ∧
      (nftAt t b).metaURL = (nftAt s b).metaURL

/-- The sibling's part is that of `a`, up to the address at the end of the meta URL. -/
def SharesPart (H : Hasher) (s : StateDB) (a b : Address) : Prop :=
  (nftAt s b).creator = (nftAt s a).creator ∧ (nftAt s b).royalty = (nftAt s a).royalty ∧
    (nftAt s b).exchanger = (nftAt s a).exchanger ∧
      retarget H (nftAt s a).metaURL b = some (nftAt s b).metaURL

theorem Siblings.level_le (h : Siblings s a k w) : k + 1 ≤ 39 := by
  have hchild : childAddr a k 0 ∈ children a k := mem_children.mpr ⟨0, by decide, rfl⟩
  have hofficial := (h _ hchild).1.1
  by_contra hk
  -- the first child of a block of level forty is the zero address
  have hzero : blockStart 16 (k + 1) a.toNat = 0 := by
    unfold blockStart
    have hlt : a.toNat < 16 ^ (k + 1) :=
      calc a.toNat < 16 ^ 40 := a.isLt
        _ ≤ 16 ^ (k + 1) := Nat.pow_le_pow_right (by decide) (by omega)
    rw [Nat.div_eq_of_lt hlt, Nat.zero_mul]
  rw [childAddr, hzero, Nat.zero_mul] at hofficial
  exact absurd hofficial (by decide)

/-- A whole group completes its parent. -/
theorem Siblings.completes (h : Siblings s a k w) :
    Completes 16 (forestOf s) a.toNat k w (k + 1) := by
  have hk := h.level_le
  intro d hd hlt i hi _
  obtain rfl : d = k := by omega
  obtain ⟨hstored, hlevel, howner, -⟩ := h _ (mem_children.mpr ⟨i, hi, rfl⟩)
  rw [← toNat_childAddr a (by omega) hi, forestOf_toNat]
  exact AccountNFT.entry_eq_some_iff.mpr ⟨hlevel, howner, howner ▸ hstored.2⟩

/-- Once merged, not all siblings have their owner. -/
theorem Gathers.not_restored {n : ℕ} (h : Gathers H s t a n) (hk : (nftAt s a).mergeLevel + 1 ≤ 40)
    (hn : (nftAt s a).mergeLevel < n) (hgroup : Siblings s a (nftAt s a).mergeLevel w) :
    ¬ ∀ b ∈ children a (nftAt s a).mergeLevel, Restored s t b := by
  intro hall
  have hsibling : ∃ b ∈ children a (nftAt s a).mergeLevel, b ≠ blockAddr n a := by
    by_cases hfirst : childAddr a (nftAt s a).mergeLevel 0 = blockAddr n a
    · refine ⟨_, mem_children.mpr ⟨1, by decide, rfl⟩, fun hsecond => ?_⟩
      have heq := congrArg BitVec.toNat (hfirst.trans hsecond.symm)
      rw [toNat_childAddr a hk (by decide), toNat_childAddr a hk (by decide)] at heq
      have := Nat.pow_pos (n := (nftAt s a).mergeLevel) (show 0 < 16 by decide)
      omega
    · exact ⟨_, mem_children.mpr ⟨0, by decide, rfl⟩, hfirst⟩
  obtain ⟨b, hb, hne⟩ := hsibling
  have howner := (hall b hb).1
  rw [h.cleaned _ (Nat.le_refl _) hn b hb hne] at howner
  exact (hgroup b hb).1.2 howner.symm

/-- Splitting a merged block gives every sibling the part of the one the merge started from, if the
block is found and the address is written as the code spells it; otherwise nothing happens. -/
theorem Gathers.split {n : ℕ} {c : Address} (h : Gathers H s t a n)
    (hn : (nftAt s a).mergeLevel < n) (hgroup : Siblings s a (nftAt s a).mergeLevel w)
    (ha : a ∈ children a (nftAt s a).mergeLevel) (hc : c ∈ children a (nftAt s a).mergeLevel) :
    ((n ≤ 6 ∧ shouldNFTAddr H (blockAddr n c) c n (nftAt s a).mergeLevel = c.string H) ∧
      ∃ v, splitNFT16 H t c (nftAt s a).mergeLevel = some v ∧
        ∀ b ∈ children a (nftAt s a).mergeLevel, Restored s v b ↔ SharesPart H s a b) ∨
    (¬ (n ≤ 6 ∧ shouldNFTAddr H (blockAddr n c) c n (nftAt s a).mergeLevel = c.string H) ∧
      splitNFT16 H t c (nftAt s a).mergeLevel = some t) := by
  have hk := hgroup.level_le
  have hstore := h.store_eq (hgroup a ha).1 (by omega) hn hc (isSome_of_owner (hgroup c hc).1.2)
  have hblock : blockAddr n c = blockAddr n a := blockAddr_of_mem_children (by omega) hc hn
  have hrow : children c (nftAt s a).mergeLevel = children a (nftAt s a).mergeLevel := by
    have hparent := blockAddr_of_mem_children (by omega) hc (Nat.lt_succ_self _)
    rw [← children_blockAddr (Nat.le_refl _) c, hparent, children_blockAddr (Nat.le_refl _) a]
  by_cases hsix : n ≤ 6
  · rw [if_pos hsix] at hstore
    obtain ⟨o, ho⟩ := Option.isSome_iff_exists.mp (h.way n h.level_le (Nat.le_refl n))
    have hpart : o.nft = _ := (view_of_some _ ho).symm.trans h.part
    have hlevel : o.nft.mergeLevel = n := by rw [hpart]
    have hunfold : splitNFT16 H t c (nftAt s a).mergeLevel =
        if shouldNFTAddr H (blockAddr n a) c n (nftAt s a).mergeLevel ≠ c.string H then some t
        else (List.range (n - (nftAt s a).mergeLevel)).foldlM
          (splitRow H (blockAddr n a) c o.nft) t := by
      unfold splitNFT16
      simp only [hstore, show t.getStateObject (blockAddr n a) = some o from ho, hlevel,
        if_neg (Nat.not_le_of_lt hn)]
    by_cases htext : shouldNFTAddr H (blockAddr n c) c n (nftAt s a).mergeLevel = c.string H
    · refine Or.inl ⟨⟨hsix, htext⟩, ?_⟩
      rw [hblock] at htext
      rw [if_neg (not_not.mpr htext)] at hunfold
      -- the merged block's meta URL is the sibling's with another address at the end
      obtain ⟨url, hurl⟩ := Option.isSome_iff_exists.mp
        ((retarget_isSome_iff).mpr (hgroup a ha).2.2.2)
      rw [if_neg (Nat.ne_of_gt hn), hurl, Option.getD_some] at hpart
      have hslash : '/' ∈ o.nft.metaURL := by
        rw [hpart]
        exact retarget_slash hurl
      have hstart : (blockAddr n a).toNat = blockStart 16 o.nft.mergeLevel c.toNat := by
        rw [hlevel, ← hblock, toNat_blockAddr]
      obtain ⟨v, hv⟩ := Option.isSome_iff_exists.mp
        (splitRows_isSome (n := n - (nftAt s a).mergeLevel) (by omega) hstart hslash
          (by omega))
      refine ⟨v, hunfold.trans hv, fun b hb => ?_⟩
      obtain ⟨u, -, hlast⟩ := splitRows_last (by omega) hv
      have hb' : b ∈ children c (o.nft.mergeLevel - (n - (nftAt s a).mergeLevel - 1 + 1)) := by
        rwa [hlevel, show n - (n - (nftAt s a).mergeLevel - 1 + 1) = (nftAt s a).mergeLevel by omega,
          hrow]
      have hvb := splitRow_part (by omega) hstart (by omega) hlast hb'
      obtain ⟨url', hurl'⟩ := Option.isSome_iff_exists.mp
        ((retarget_isSome_iff).mpr (hgroup a ha).2.2.2)
      have hmeta : (nftAt v b).metaURL = url' := by
        rw [hvb, splitInfo, hpart, retarget_retarget hurl, hurl', Option.getD_some]
      have howner : (nftAt s a).owner = (nftAt s b).owner :=
        (hgroup a ha).2.2.1.trans (hgroup b hb).2.2.1.symm
      unfold Restored SharesPart
      rw [hmeta, hurl', hvb, splitInfo, hpart]
      simp only [howner, true_and, Option.some.injEq, eq_comm]
    · refine Or.inr ⟨fun hboth => htext hboth.2, ?_⟩
      rwa [← hblock, if_pos htext] at hunfold
  · refine Or.inr ⟨fun hboth => hsix hboth.1, ?_⟩
    unfold splitNFT16
    rw [hstore, if_neg hsix]

/-- Sixteen siblings of one owner come back from a merge and a split exactly if the merge stops at
level six or below, the sibling to split at is written as the code spells it, and the siblings
agree in everything but the address in the meta URL. -/
theorem merge_split_restores_iff {k : ℕ} {w c : Address} (hgroup : Siblings s a k w)
    (ha : a ∈ children a k) (hc : c ∈ children a k) :
    (∃ u v, s.mergeNFT16 H a = some u ∧ splitNFT16 H u c k = some v ∧
        ∀ b ∈ children a k, Restored s v b) ↔
      (∃ n ≤ 6, Completes 16 (forestOf s) a.toNat k w n ∧
          ¬ Completes 16 (forestOf s) a.toNat k w (n + 1) ∧
            shouldNFTAddr H (blockAddr n c) c n k = c.string H) ∧
        ∀ b ∈ children a k, SharesPart H s a b := by
  have hcompletes := hgroup.completes
  have hk := hgroup.level_le
  have haligned := dvd_of_mem_children (by omega) ha
  obtain ⟨hstored, rfl, rfl, hslash⟩ := hgroup a ha
  -- the number of levels is determined
  have hstep : ∀ {n}, ¬ Completes 16 (forestOf s) a.toNat (nftAt s a).mergeLevel (nftAt s a).owner
      (n + 1) → (nftAt s a).mergeLevel < n := by
    intro n hmax
    by_contra hle
    exact hmax (hcompletes.mono (by omega))
  constructor
  · rintro ⟨u, v, hu, hv, hall⟩
    obtain ⟨n, hgathers⟩ := mergeWalk_gathers hstored haligned hu
    have hn := hstep hgathers.maximal
    rcases hgathers.split hn hgroup ha hc with ⟨⟨hsix, htext⟩, v', hv', hiff⟩ | ⟨-, hsame⟩
    · obtain rfl : v = v' := Option.some.inj (hv.symm.trans hv')
      exact ⟨⟨n, hsix, hgathers.completes, hgathers.maximal, htext⟩,
        fun b hb => (hiff b hb).mp (hall b hb)⟩
    · obtain rfl : v = u := Option.some.inj (hv.symm.trans hsame)
      exact absurd hall (hgathers.not_restored (by omega) hn hgroup)
  · rintro ⟨⟨n, hsix, hn, hmax, htext⟩, hshares⟩
    have hends : (mergeWalk H 64 s a).isSome := by
      refine (mergeWalk_isSome_iff hstored haligned (by omega)).mpr ⟨fun _ => hslash, fun hforty => ?_⟩
      exact hmax (hforty.mono (by omega))
    obtain ⟨u, hu⟩ := Option.isSome_iff_exists.mp hends
    obtain ⟨m, hgathers⟩ := mergeWalk_gathers hstored haligned hu
    obtain rfl : m = n := by
      rcases Nat.lt_trichotomy m n with hlt | heq | hlt
      · exact absurd (hn.mono hlt) hgathers.maximal
      · exact heq
      · exact absurd (hgathers.completes.mono hlt) hmax
    rcases hgathers.split (hstep hmax) hgroup ha hc with ⟨-, v, hv, hiff⟩ | ⟨hnot, -⟩
    · exact ⟨u, v, hu, hv, fun b hb => (hiff b hb).mpr (hshares b hb)⟩
    · exact absurd ⟨hsix, htext⟩ hnot

/-- The leaves next to the first official address. -/
theorem mem_children_officialMask (hb : b ∈ children (bigToAddress officialMask) 0) :
    officialMask ≤ b.toNat ∧ b.toNat < officialMask + 16 := by
  obtain ⟨i, hi, rfl⟩ := mem_children.mp hb
  rw [toNat_childAddr _ (by decide) hi, toNat_bigToAddress (by decide)]
  have hstart : blockStart 16 (0 + 1) officialMask = officialMask := by decide
  rw [hstart]
  omega

theorem officialMask_mem_children :
    bigToAddress officialMask ∈ children (bigToAddress officialMask) 0 :=
  mem_children.mpr ⟨0, by decide, by decide +kernel⟩

theorem nftAt_family (hb : b ∈ children (bigToAddress officialMask) 0) :
    nftAt (family 0) b = { AccountNFT.blank with owner := 5, mergeLevel := 0, metaURL := ['/'] } := by
  obtain ⟨hlo, hhi⟩ := mem_children_officialMask hb
  rw [nftAt, view_of_some _ (show (family 0).accounts b = some _ from
    if_pos ⟨by simp, hlo, by simpa using hhi⟩)]

theorem family_siblings : Siblings (family 0) (bigToAddress officialMask) 0 5 := by
  intro b hb
  have hofficial : isOfficialNFT b = true :=
    isOfficialNFT_iff.mpr (mem_children_officialMask hb).1
  unfold Stored
  rw [nftAt_family hb]
  exact ⟨⟨hofficial, by decide⟩, rfl, rfl, by decide⟩

/-- Sixteen leaves of account 5, merged at the first of them and split there again. -/
theorem merge_split_restores_family :
    Siblings (family 0) (bigToAddress officialMask) 0 5 ∧
      ((∃ u v, (family 0).mergeNFT16 ⟨fun _ => []⟩ (bigToAddress officialMask) = some u ∧
          splitNFT16 ⟨fun _ => []⟩ u (bigToAddress officialMask) 0 = some v ∧
            ∀ b ∈ children (bigToAddress officialMask) 0, Restored (family 0) v b) ↔
        (∃ n ≤ 6, Completes 16 (forestOf (family 0)) (bigToAddress officialMask).toNat 0 5 n ∧
            ¬ Completes 16 (forestOf (family 0)) (bigToAddress officialMask).toNat 0 5 (n + 1) ∧
              shouldNFTAddr ⟨fun _ => []⟩ (blockAddr n (bigToAddress officialMask))
                (bigToAddress officialMask) n 0 =
                  (bigToAddress officialMask).string ⟨fun _ => []⟩) ∧
          ∀ b ∈ children (bigToAddress officialMask) 0,
            SharesPart ⟨fun _ => []⟩ (family 0) (bigToAddress officialMask) b) :=
  ⟨family_siblings, merge_split_restores_iff family_siblings officialMask_mem_children
    officialMask_mem_children⟩

/-- `family 0` with a creator of its own for each leaf. -/
def handmade : StateDB :=
  { family 0 with
    accounts := fun a => ((family 0).accounts a).map fun o =>
      { o with nft := { o.nft with creator := a } } }

theorem nftAt_handmade (hb : b ∈ children (bigToAddress officialMask) 0) :
    nftAt handmade b = { nftAt (family 0) b with creator := b } := by
  have hsome : ((family 0).accounts b).isSome := by
    refine isSome_of_owner ?_
    rw [nftAt_family hb]
    decide
  obtain ⟨o, ho⟩ := Option.isSome_iff_exists.mp hsome
  have hmade : handmade.accounts b = some { o with nft := { o.nft with creator := b } } := by
    simp only [handmade, ho, Option.map_some]
  rw [nftAt, nftAt, view_of_some _ ho, view_of_some _ hmade]

theorem handmade_siblings : Siblings handmade (bigToAddress officialMask) 0 5 := by
  intro b hb
  have h := family_siblings b hb
  unfold Stored at h ⊢
  rw [nftAt_handmade hb]
  exact h

/-- After a merge and a split the second leaf has the creator of the first. -/
theorem merge_split_loses_creator :
    Siblings handmade (bigToAddress officialMask) 0 5 ∧
      (nftAt handmade (bigToAddress (officialMask + 1))).creator = bigToAddress (officialMask + 1) ∧
        ((handmade.mergeNFT16 ⟨fun _ => []⟩ (bigToAddress officialMask)).bind fun u =>
          splitNFT16 ⟨fun _ => []⟩ u (bigToAddress officialMask) 0).map
            (fun v => (nftAt v (bigToAddress (officialMask + 1))).creator) =
              some (bigToAddress officialMask) :=
  ⟨handmade_siblings, by decide +kernel, by decide +kernel⟩

end StateDB

end Wormholes
