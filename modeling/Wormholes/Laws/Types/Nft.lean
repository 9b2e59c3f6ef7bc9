import Mathlib.Data.Int.Interval
import Mathlib.Data.List.Chain
import Mathlib.Algebra.BigOperators.Group.Finset.Basic
import Wormholes.Types.Nft

/-!
# Laws.Types.Nft — what the exchange queue and the official pool give out

The exchange queue: how many leaves an entry gives before it leaves the queue. `span` is one less
than that number. It is a power of 256 and not of 16, so only an entry of level zero gives exactly
the leaves that were exchanged.

The official pool: `indices` is a batch's half-open range. `getInjectedInfo` closes the range at
its upper end, and `remainderNum` compares a start index without the mask with a counter that has
it. Both are characterised here against the ranges themselves: the batch found at an index is the
first one that ends there, if one does, and the count is off by `overcount`.
-/

namespace Wormholes

open Common

variable {e : InjectedOfficialNFT} {list : List InjectedOfficialNFT} {num : ℕ}
variable {blocks : List ℕ} {rest : List InjectedOfficialNFT}

/-! ## The exchange queue -/

namespace SNFTExchange

/-- How far the last leaf the queue mints for an entry lies behind its first. -/
def span (e : SNFTExchange) : ℕ := if e.mergeLevel = 0 then 0 else 256 ^ e.mergeLevel % 2 ^ 160

/-- The entry after `k` of its leaves were minted. -/
def after (e : SNFTExchange) (k : ℕ) : SNFTExchange :=
  { e with currentMintAddress := bigToAddress (e.nftAddress.toNat + k) }

theorem span_lt (e : SNFTExchange) : e.span < 2 ^ 160 := by
  unfold span
  split
  · decide
  · exact Nat.mod_lt _ (by decide)

theorem bigToAddress_eq_iff {m n : ℕ} :
    bigToAddress m = bigToAddress n ↔ m % 2 ^ 160 = n % 2 ^ 160 := by
  rw [← BitVec.toNat_inj]
  simp [bigToAddress]

theorem maxNFTAddress_eq (e : SNFTExchange) :
    e.maxNFTAddress = bigToAddress (e.nftAddress.toNat + e.span) := by
  unfold maxNFTAddress span
  split
  · simp [bigToAddress]
  · rw [bigToAddress_eq_iff, Nat.add_mod_mod]

theorem after_zero {e : SNFTExchange} (h : e.currentMintAddress = e.nftAddress) : e.after 0 = e := by
  cases e
  simp_all [after, bigToAddress]

/-- An entry's number of leaves is odd unless it is a single leaf. -/
theorem span_even {e : SNFTExchange} : 2 ∣ e.span := by
  unfold span
  split
  · exact dvd_zero 2
  next h =>
    have hpow : 2 ∣ 256 ^ e.mergeLevel := dvd_pow (by decide : 2 ∣ 256) h
    exact (Nat.dvd_mod_iff (by decide : 2 ∣ 2 ^ 160)).mpr hpow

theorem span_succ_eq_iff {e : SNFTExchange} : 16 ^ e.mergeLevel = e.span + 1 ↔ e.mergeLevel = 0 := by
  constructor
  · intro h
    by_contra hlevel
    have heven : 2 ∣ 16 ^ e.mergeLevel := dvd_pow (by decide : 2 ∣ 16) hlevel
    have hspan := e.span_even
    omega
  · intro h
    simp [span, h]

end SNFTExchange

open SNFTExchange in
/-- One pop while an entry is at the head and not of this block: the leaf the cursor is at, and
the entry leaves with the last of its `span + 1` leaves. -/
theorem popAddress_after {e : SNFTExchange} {k b : ℕ} (rest : List SNFTExchange)
    (hb : e.blockNumber < b) (hk : k ≤ e.span) :
    popAddress (e.after k :: rest) b =
      some (bigToAddress (e.nftAddress.toNat + k), e.toInjectedInfo,
        if k = e.span then rest else e.after (k + 1) :: rest) := by
  have hlast : bigToAddress (e.nftAddress.toNat + k) = (e.after k).maxNFTAddress ↔ k = e.span := by
    have hmax : (e.after k).maxNFTAddress = e.maxNFTAddress := rfl
    have hspan := e.span_lt
    rw [hmax, maxNFTAddress_eq, bigToAddress_eq_iff]
    omega
  have hnext : bigToAddress ((bigToAddress (e.nftAddress.toNat + k)).toNat + 1) =
      bigToAddress (e.nftAddress.toNat + (k + 1)) := by
    rw [bigToAddress_eq_iff]
    simp [bigToAddress, ← Nat.add_assoc]
  have hcursor : (e.after k).currentMintAddress = bigToAddress (e.nftAddress.toNat + k) := rfl
  have hlate : ¬ (e.after k).blockNumber ≥ b := Nat.not_le.mpr hb
  simp only [popAddress, if_neg hlate, hcursor, hlast, hnext]
  rfl

/-- Pops at the given blocks: the addresses they return and the queue they leave; none when one of
them returns nothing. -/
def popMany : List SNFTExchange → List ℕ → Option (List Address × List SNFTExchange)
  | list, [] => some ([], list)
  | list, blocknumber :: blocks =>
    match popAddress list blocknumber with
    | none => none
    | some (addr, _, list) => (popMany list blocks).map fun r => (addr :: r.1, r.2)

/-- A run of pops while an entry is at the head. -/
theorem popMany_after {e : SNFTExchange} (rest : List SNFTExchange)
    (hblocks : ∀ b ∈ blocks, e.blockNumber < b) :
    ∀ {k : ℕ}, k ≤ e.span → k + blocks.length ≤ e.span + 1 →
      popMany (e.after k :: rest) blocks =
        some ((List.range' k blocks.length).map fun i => bigToAddress (e.nftAddress.toNat + i),
          if k + blocks.length = e.span + 1 then rest else e.after (k + blocks.length) :: rest) := by
  induction blocks with
  | nil =>
    intro k hk _
    simp [popMany, Nat.ne_of_lt (Nat.lt_succ_of_le hk)]
  | cons b blocks ih =>
    intro k hk hlen
    simp only [List.length_cons] at hlen ⊢
    have hpop := popAddress_after rest (hblocks b List.mem_cons_self) hk
    by_cases hlast : k = e.span
    · -- the entry leaves the queue, and there is no block left to pop at
      have hnil : blocks = [] := List.eq_nil_of_length_eq_zero (by omega)
      subst hnil
      rw [if_pos hlast] at hpop
      simp only [popMany, hpop]
      simp [hlast]
    · rw [if_neg hlast] at hpop
      have hrest := ih (fun b hb => hblocks b (List.mem_cons_of_mem _ hb))
        (show k + 1 ≤ e.span by omega) (by omega)
      have hadd : k + 1 + blocks.length = k + (blocks.length + 1) := by omega
      rw [hadd] at hrest
      simp [popMany, hpop, hrest, List.range'_succ]

/-- A queue of one entry is empty after exactly `span + 1` pops. -/
theorem length_of_popMany_alone {e : SNFTExchange} (hblocks : ∀ b ∈ blocks, e.blockNumber < b) :
    ∀ {k : ℕ} {addrs : List Address}, k ≤ e.span →
      popMany [e.after k] blocks = some (addrs, []) → k + blocks.length = e.span + 1 := by
  induction blocks with
  | nil =>
    intro k addrs _ h
    simp [popMany] at h
  | cons b blocks ih =>
    intro k addrs hk h
    have hpop := popAddress_after [] (hblocks b List.mem_cons_self) hk
    unfold popMany at h
    rw [hpop] at h
    obtain ⟨r, hr, heq⟩ := Option.map_eq_some_iff.mp h
    have hempty : r.2 = [] := congrArg Prod.snd heq
    split at hr
    next hlast =>
      cases blocks with
      | nil => simp [hlast]
      | cons => simp [popMany, popAddress] at hr
    next hlast =>
      have htail : popMany [e.after (k + 1)] blocks = some (r.1, []) := by rw [hr, ← hempty]
      have hlen := ih (fun b hb => hblocks b (List.mem_cons_of_mem _ hb)) (by omega) htail
      simp only [List.length_cons]
      omega

/-- The queue mints each leaf of an entry once, in increasing order, and then goes on with the
entries behind it. -/
def RemintsExactly (e : SNFTExchange) : Prop :=
  ∀ (rest : List SNFTExchange) (blocks : List ℕ), (∀ b ∈ blocks, e.blockNumber < b) →
    blocks.length = 16 ^ e.mergeLevel →
    popMany (e :: rest) blocks =
      some ((List.range (16 ^ e.mergeLevel)).map fun i => bigToAddress (e.nftAddress.toNat + i), rest)

/-- From level one on an entry of the queue spans `256 ^ level` addresses, and the NFT it is for has only
`16 ^ level` leaves. -/
theorem remintsExactly_iff {e : SNFTExchange} (hfresh : e.currentMintAddress = e.nftAddress) :
    RemintsExactly e ↔ e.mergeLevel = 0 := by
  rw [← SNFTExchange.span_succ_eq_iff]
  constructor
  · intro h
    have hblocks : ∀ b ∈ List.replicate (16 ^ e.mergeLevel) (e.blockNumber + 1),
        e.blockNumber < b := by
      intro b hb
      rw [List.eq_of_mem_replicate hb]
      exact Nat.lt_succ_self _
    have hpops := h [] _ hblocks List.length_replicate
    rw [← SNFTExchange.after_zero hfresh] at hpops
    have hlen := length_of_popMany_alone hblocks (Nat.zero_le _) hpops
    simpa using hlen
  · intro h rest blocks hblocks hlen
    have hpops := popMany_after rest hblocks (Nat.zero_le _) (by omega)
    rw [SNFTExchange.after_zero hfresh, Nat.zero_add, if_pos (hlen.trans h)] at hpops
    rw [hpops, hlen, List.range_eq_range']

/-! ## The official pool -/

namespace InjectedOfficialNFT

/-- One past the last index of a batch. -/
def stop (e : InjectedOfficialNFT) : ℤ := e.startIndex + e.number

/-- The indices of a batch. -/
def indices (e : InjectedOfficialNFT) : Finset ℤ :=
  (Finset.range e.number).image fun k : ℕ => e.startIndex + k

theorem mem_indices {i : ℤ} : i ∈ e.indices ↔ e.startIndex ≤ i ∧ i < e.stop := by
  unfold indices stop
  rw [Finset.mem_image]
  constructor
  · rintro ⟨k, hk, rfl⟩
    have := Finset.mem_range.mp hk
    omega
  · rintro ⟨hlo, hhi⟩
    exact ⟨(i - e.startIndex).toNat, Finset.mem_range.mpr (by omega), by omega⟩

theorem startIndex_le_stop (e : InjectedOfficialNFT) : e.startIndex ≤ e.stop := by
  unfold stop
  omega

/-- The two batches give their NFTs the same directory, royalty and creator. -/
def SameMetadata (e e' : InjectedOfficialNFT) : Prop :=
  e.dir = e'.dir ∧ e.royalty = e'.royalty ∧ hexToAddress e.creator = hexToAddress e'.creator

end InjectedOfficialNFT

namespace InjectedOfficialNFTList

open InjectedOfficialNFT

/-- Each batch starts where the one before it stops. -/
def Consecutive (list : List InjectedOfficialNFT) : Prop :=
  list.IsChain fun e e' => e.stop = e'.startIndex

/-- No index is in two batches. -/
def Separate (list : List InjectedOfficialNFT) : Prop :=
  list.Pairwise fun e e' => Disjoint e.indices e'.indices

theorem Consecutive.stop_le (h : Consecutive (e :: rest)) :
    ∀ e' ∈ rest, e.stop ≤ e'.startIndex := by
  induction rest generalizing e with
  | nil => simp
  | cons f rest ih =>
    obtain ⟨hstop, hrest⟩ := List.isChain_cons_cons.mp h
    intro e' he'
    rcases List.mem_cons.mp he' with rfl | hmem
    · exact hstop.le
    · have hlater := ih hrest e' hmem
      have hf := f.startIndex_le_stop
      omega

theorem Consecutive.tail (h : Consecutive (e :: rest)) : Consecutive rest :=
  List.IsChain.suffix h (List.suffix_cons e rest)

theorem Consecutive.separate (h : Consecutive list) : Separate list := by
  induction list with
  | nil => exact List.Pairwise.nil
  | cons e rest ih =>
    refine List.pairwise_cons.mpr ⟨fun e' he' => ?_, ih h.tail⟩
    have hstop := h.stop_le e' he'
    refine Finset.disjoint_left.mpr fun i hi hi' => ?_
    have := mem_indices.mp hi
    have := mem_indices.mp hi'
    omega

/-! ### Which batch an index is minted from -/

/-- The index of an official address. -/
def indexOf (addr : Address) : ℤ := (addr.toNat : ℤ) - officialMask

/-- The lookup in a pool of consecutive batches finds the first batch that stops at the index, and
the batch that holds it only when none does. -/
theorem getInjectedInfo_eq (h : Consecutive list) (addr : Address) :
    getInjectedInfo list addr =
      (list.find? fun e => e.stop = indexOf addr).or
        (list.find? fun e => indexOf addr ∈ e.indices) := by
  show (list.find? fun e => e.startIndex = indexOf addr ∨
    (e.startIndex < indexOf addr ∧ e.startIndex + e.number ≥ indexOf addr)) = _
  generalize indexOf addr = i
  induction list with
  | nil => rfl
  | cons e rest ih =>
    have ih := ih h.tail
    have hstart := e.startIndex_le_stop
    have hfound : (e.startIndex = i ∨ (e.startIndex < i ∧ e.startIndex + e.number ≥ i)) ↔
        e.stop = i ∨ i ∈ e.indices := by
      rw [mem_indices]
      unfold stop at *
      omega
    by_cases hstop : e.stop = i
    · rw [List.find?_cons_of_pos (by simpa using hfound.mpr (.inl hstop)),
        List.find?_cons_of_pos (by simpa using hstop), Option.some_or]
    rw [List.find?_cons_of_neg (p := fun e : InjectedOfficialNFT => decide (e.stop = i))
      (by simpa using hstop)]
    by_cases hin : i ∈ e.indices
    · -- the batches behind stop later, so none of them stops at `i`
      have hnone : rest.find? (fun e => e.stop = i) = none := by
        refine List.find?_eq_none.mpr fun e' he' => ?_
        have hlater := h.stop_le e' he'
        have hstop' := e'.startIndex_le_stop
        have := mem_indices.mp hin
        simp only [decide_eq_true_eq]
        omega
      rw [List.find?_cons_of_pos (by simpa using hfound.mpr (.inr hin)), hnone, Option.none_or,
        List.find?_cons_of_pos (by simpa using hin)]
    · have hnot : ¬ (e.startIndex = i ∨ (e.startIndex < i ∧ e.startIndex + e.number ≥ i)) :=
        fun hp => (hfound.mp hp).elim hstop hin
      rw [List.find?_cons_of_neg (by simpa using hnot),
        List.find?_cons_of_neg
          (by simpa using hin), ih]

theorem deleteExpireElem_suffix (list : List InjectedOfficialNFT) (num : ℕ) :
    deleteExpireElem list num <:+ list := by
  unfold deleteExpireElem
  split
  · exact List.drop_suffix _ _
  · exact List.suffix_rfl

/-- The batches that go are behind every later index, so a later lookup does not miss them. -/
theorem getInjectedInfo_deleteExpireElem {addr : Address} (h : num < addr.toNat) :
    getInjectedInfo (deleteExpireElem list num) addr = getInjectedInfo list addr := by
  unfold deleteExpireElem
  split
  next k hk =>
    obtain ⟨hlt, -, hbefore⟩ := List.findIdx?_eq_some_iff_getElem.mp hk
    have hnone : getInjectedInfo (list.take k) addr = none := by
      refine List.find?_eq_none.mpr fun e he => ?_
      obtain ⟨j, hj, rfl⟩ := List.mem_take_iff_getElem.mp he
      have hgone := hbefore j (by omega)
      simp only [decide_eq_true_eq] at hgone ⊢
      omega
    have hsplit : getInjectedInfo (list.take k ++ list.drop k) addr =
        (getInjectedInfo (list.take k) addr).or (getInjectedInfo (list.drop k) addr) :=
      List.find?_append
    rw [List.take_append_drop, hnone, Option.none_or] at hsplit
    exact hsplit.symm
  · rfl

/-! ### Where a pool ends -/

/-- The last batch, if there is one, does not stop below zero. -/
def EndsNonneg (list : List InjectedOfficialNFT) : Prop :=
  ∀ e, list.getLast? = some e → 0 ≤ e.stop

theorem maxIndex_append (list : List InjectedOfficialNFT) (e : InjectedOfficialNFT) :
    maxIndex (list ++ [e]) = max (maxIndex list) e.stop := by
  rw [maxIndex, List.foldl_append, List.foldl_cons, List.foldl_nil]
  show (if e.stop > maxIndex list then e.stop else maxIndex list) = _
  split
  next h => exact (max_eq_right h.le).symm
  next h => exact (max_eq_left (Int.not_lt.mp h)).symm

theorem maxIndex_nonneg (list : List InjectedOfficialNFT) : 0 ≤ maxIndex list := by
  induction list using List.reverseRecOn with
  | nil => exact le_rfl
  | append_singleton list e ih =>
    rw [maxIndex_append]
    exact le_max_of_le_left ih

/-- The batch behind the last one starts where that one stops. -/
theorem Consecutive.stop_of_getLast? {last : InjectedOfficialNFT} (h : Consecutive (list ++ [e]))
    (hlast : list.getLast? = some last) : last.stop = e.startIndex :=
  (List.isChain_append.mp h).2.2 last hlast e rfl

/-- A pool of consecutive batches ends where its last batch stops, or at zero. -/
theorem Consecutive.maxIndex_eq (h : Consecutive list) (he : list.getLast? = some e) :
    maxIndex list = max 0 e.stop := by
  induction list using List.reverseRecOn generalizing e with
  | nil => cases he
  | append_singleton list e' ih =>
    rw [List.getLast?_concat] at he
    cases he
    rw [maxIndex_append]
    cases hlast : list.getLast? with
    | none =>
      rw [List.getLast?_eq_none_iff.mp hlast]
      rfl
    | some e₀ =>
      have hstop := h.stop_of_getLast? hlast
      have hle := e'.startIndex_le_stop
      rw [ih (List.IsChain.left_of_append h) hlast]
      omega

theorem Consecutive.append (h : Consecutive list) (hends : EndsNonneg list)
    (he : e.startIndex = maxIndex list) : Consecutive (list ++ [e]) := by
  refine List.IsChain.append h (List.isChain_singleton e) ?_
  intro last hlast first hfirst
  cases hfirst
  rw [he, h.maxIndex_eq hlast]
  exact (max_eq_right (hends last hlast)).symm

theorem endsNonneg_append (he : e.startIndex = maxIndex list) : EndsNonneg (list ++ [e]) := by
  intro last hlast
  rw [List.getLast?_concat] at hlast
  cases hlast
  have hstart := maxIndex_nonneg list
  have hstop := e.startIndex_le_stop
  omega

theorem getLast?_deleteExpireElem (list : List InjectedOfficialNFT) (num : ℕ) :
    (deleteExpireElem list num).getLast? = list.getLast? := by
  unfold deleteExpireElem
  split
  next k hk =>
    obtain ⟨hlt, -⟩ := List.findIdx?_eq_some_iff_getElem.mp hk
    rw [List.getLast?_drop, if_neg (Nat.not_le.mpr hlt)]
  · rfl

/-- Batches that leave at the front do not move the end. -/
theorem Consecutive.maxIndex_deleteExpireElem (h : Consecutive list) (num : ℕ) :
    maxIndex (deleteExpireElem list num) = maxIndex list := by
  have hrest : Consecutive (deleteExpireElem list num) :=
    List.IsChain.suffix h (deleteExpireElem_suffix list num)
  cases hlast : list.getLast? with
  | none =>
    rw [List.getLast?_eq_none_iff.mp hlast]
    rfl
  | some e =>
    rw [h.maxIndex_eq hlast, hrest.maxIndex_eq ((getLast?_deleteExpireElem list num).trans hlast)]

theorem EndsNonneg.deleteExpireElem (h : EndsNonneg list) (num : ℕ) :
    EndsNonneg (deleteExpireElem list num) := by
  intro e he
  rw [getLast?_deleteExpireElem] at he
  exact h e he

/-! ### How many indices are left -/

/-- The indices of a pool's batches that the counter has not passed. -/
def remaining (list : List InjectedOfficialNFT) (counter : ℕ) : Finset ℤ :=
  (list.foldr (fun e rest => indices e ∪ rest) ∅).filter fun i =>
    (counter : ℤ) ≤ i + officialMask

/-- What `remainderNum` adds for one batch. -/
def counted (counter : ℕ) (e : InjectedOfficialNFT) : ℕ :=
  if e.startIndex ≥ (counter : ℤ) then e.number else (e.stop + officialMask - counter).toNat

/-- By how much it is too large: the gap between the counter's index and a batch that starts
behind it. -/
def gap (counter : ℕ) (e : InjectedOfficialNFT) : ℕ :=
  if e.startIndex < (counter : ℤ) then (e.startIndex + officialMask - counter).toNat else 0

/-- The sum of the gaps. -/
def overcount (list : List InjectedOfficialNFT) (counter : ℕ) : ℕ := (list.map (gap counter)).sum

theorem remainderNum_eq_sum (list : List InjectedOfficialNFT) (counter : ℕ) :
    remainderNum list counter = (list.map (counted counter)).sum % 2 ^ 64 := by
  suffices hfold : ∀ acc < 2 ^ 64, list.foldl
      (fun sum e =>
        if e.startIndex ≥ (counter : ℤ) then (sum + e.number) % 2 ^ 64
        else
          let tempInt : ℤ := e.startIndex + e.number + officialMask
          if tempInt ≥ (counter : ℤ) then (sum + (tempInt - counter).toNat % 2 ^ 64) % 2 ^ 64
          else sum) acc = (acc + (list.map (counted counter)).sum) % 2 ^ 64 by
    simpa [remainderNum] using hfold 0 (by decide)
  induction list with
  | nil =>
    intro acc hacc
    simpa using (Nat.mod_eq_of_lt hacc).symm
  | cons e rest ih =>
    intro acc hacc
    have hnext : (if e.startIndex ≥ (counter : ℤ) then (acc + e.number) % 2 ^ 64
        else
          let tempInt : ℤ := e.startIndex + e.number + officialMask
          if tempInt ≥ (counter : ℤ) then (acc + (tempInt - counter).toNat % 2 ^ 64) % 2 ^ 64
          else acc) = (acc + counted counter e) % 2 ^ 64 := by
      unfold counted stop
      dsimp only
      split
      · rfl
      · split
        · omega
        · omega
    rw [List.foldl_cons, hnext, ih _ (Nat.mod_lt _ (by decide)), List.map_cons, List.sum_cons,
      Nat.mod_add_mod, Nat.add_assoc]

theorem counted_eq (counter : ℕ) (e : InjectedOfficialNFT) :
    counted counter e =
      (e.indices.filter fun i => (counter : ℤ) ≤ i + officialMask).card + gap counter e := by
  have hfilter : (e.indices.filter fun i => (counter : ℤ) ≤ i + officialMask) =
      Finset.Ico (max e.startIndex (counter - officialMask)) e.stop := by
    ext i
    simp only [Finset.mem_filter, mem_indices, Finset.mem_Ico]
    omega
  have hmask : officialMask = 2 ^ 159 := rfl
  rw [hfilter, Int.card_Ico]
  unfold counted gap stop
  rw [hmask]
  split <;> split <;> omega

theorem card_remaining (h : Separate list) (counter : ℕ) :
    (remaining list counter).card =
      (list.map fun e =>
        (e.indices.filter fun i => (counter : ℤ) ≤ i + officialMask).card).sum := by
  induction list with
  | nil => simp [remaining]
  | cons e rest ih =>
    obtain ⟨hhead, hrest⟩ := List.pairwise_cons.mp h
    have hdisjoint : Disjoint e.indices (rest.foldr (fun e rest => indices e ∪ rest) ∅) := by
      clear ih hrest h
      induction rest with
      | nil => exact Finset.disjoint_empty_right _
      | cons f rest ihd =>
        exact Finset.disjoint_union_right.mpr ⟨hhead f List.mem_cons_self,
          ihd fun e' he' => hhead e' (List.mem_cons_of_mem _ he')⟩
    have ih := ih hrest
    unfold remaining at ih ⊢
    rw [List.foldr_cons, Finset.filter_union, Finset.card_union_of_disjoint
      (Finset.disjoint_filter_filter hdisjoint), ih, List.map_cons, List.sum_cons]

/-- The count is the number of indices left plus the gaps, in `uint64`. -/
theorem remainderNum_eq (h : Separate list) (counter : ℕ) :
    remainderNum list counter =
      ((remaining list counter).card + overcount list counter) % 2 ^ 64 := by
  have hsum : (list.map (counted counter)).sum =
      (list.map fun e =>
        (e.indices.filter fun i => (counter : ℤ) ≤ i + officialMask).card).sum +
        (list.map (gap counter)).sum := by
    rw [← List.sum_map_add]
    exact congrArg List.sum (List.map_congr_left fun e _ => counted_eq counter e)
  rw [remainderNum_eq_sum, hsum, card_remaining h, overcount]

/-- A batch that starts above the counter is counted from the counter on, so the gap before it counts
too. -/
theorem remainderNum_eq_card_iff (h : Separate list) {counter : ℕ}
    (hcard : (remaining list counter).card < 2 ^ 64) :
    remainderNum list counter = (remaining list counter).card ↔ 2 ^ 64 ∣ overcount list counter := by
  rw [remainderNum_eq h]
  omega

end InjectedOfficialNFTList

end Wormholes
