import Wormholes.Types.Stake

/-!
# Laws.Types.Stake — the stake of an account after pledges and cancellations

The lists hold an address once, so sorting them does not change what an account's stake is.
Adding an amount adds it to one account's stake. Removing an amount that the account has takes it
away, whether the entry shrinks or disappears.
-/

namespace Wormholes.StakedList

variable (l : List Staked)
variable {a : Address} {x : ℤ} {addrs : List ℕ} {k : ℕ} {out : List Address}

/-- No address occurs twice. -/
def Once : Prop := (l.map Staked.addr).Nodup

variable {l} {l' : List Staked}

theorem stakeBalance_of_mem (hl : Once l) {v : Staked} (hv : v ∈ l) :
    stakeBalance l v.addr = v.balance := by
  induction l with
  | nil => cases hv
  | cons u rest ih =>
    obtain ⟨hu, hrest⟩ := List.nodup_cons.mp hl
    unfold stakeBalance
    rcases List.mem_cons.mp hv with rfl | hmem
    · simp
    · have hne : u.addr ≠ v.addr := fun heq => hu (heq ▸ List.mem_map_of_mem hmem)
      have ih' := ih hrest hmem
      unfold stakeBalance at ih'
      simpa [List.find?_cons, hne] using ih'

theorem stakeBalance_of_notMem (h : a ∉ l.map Staked.addr) : stakeBalance l a = 0 := by
  have hnone : l.find? (fun v => decide (v.addr = a)) = none := by
    refine List.find?_eq_none.mpr fun v hv => ?_
    simpa using fun heq : v.addr = a => h (heq ▸ List.mem_map_of_mem hv)
  rw [stakeBalance, hnone]

theorem Once.perm (hl : Once l) (h : l'.Perm l) : Once l' :=
  (h.map Staked.addr).nodup_iff.mpr hl

theorem stakeBalance_perm (hl : Once l) (h : l'.Perm l) (a : Address) :
    stakeBalance l' a = stakeBalance l a := by
  by_cases ha : a ∈ l.map Staked.addr
  · obtain ⟨v, hv, rfl⟩ := List.mem_map.mp ha
    rw [stakeBalance_of_mem hl hv, stakeBalance_of_mem (hl.perm h) (h.mem_iff.mpr hv)]
  · rw [stakeBalance_of_notMem ha, stakeBalance_of_notMem]
    exact fun ha' => ha ((h.map Staked.addr).mem_iff.mp ha')

theorem sorted_perm (l : List Staked) : (sorted l).Perm l := List.perm_insertionSort _ l

theorem once_sorted (hl : Once l) : Once (sorted l) := hl.perm (sorted_perm l)

theorem stakeBalance_sorted (hl : Once l) (a : Address) :
    stakeBalance (sorted l) a = stakeBalance l a :=
  stakeBalance_perm hl (sorted_perm l) a

theorem exist_iff : exist l a = true ↔ a ∈ l.map Staked.addr := by
  simp [exist, List.any_eq_true]

/-! ## Changing one entry -/

theorem map_addr_updateFirst (f : ℤ → ℤ) :
    (updateFirst l a fun v => some { v with balance := f v.balance }).map Staked.addr =
      l.map Staked.addr := by
  induction l with
  | nil => rfl
  | cons v rest ih =>
    rw [updateFirst]
    split
    · rfl
    · rw [List.map_cons, ih, List.map_cons]

theorem stakeBalance_updateFirst (f : ℤ → ℤ) (ha : a ∈ l.map Staked.addr) (b : Address) :
    stakeBalance (updateFirst l a fun v => some { v with balance := f v.balance }) b =
      if b = a then f (stakeBalance l a) else stakeBalance l b := by
  induction l with
  | nil => cases ha
  | cons v rest ih =>
    rw [updateFirst]
    by_cases hv : v.addr = a
    · subst hv
      simp only [if_true, stakeBalance, List.find?_cons]
      by_cases hb : b = v.addr
      · simp [hb]
      · simp [hb, Ne.symm hb]
    · have hrest : a ∈ rest.map Staked.addr := by
        rcases List.mem_cons.mp ha with heq | hmem
        · exact absurd heq.symm hv
        · exact hmem
      have ih' := ih hrest
      simp only [stakeBalance, List.find?_cons, hv, decide_false] at ih' ⊢
      by_cases hvb : v.addr = b
      · subst hvb
        simp [hv]
      · simpa [hvb] using ih'

theorem removeFirst_sublist (l : List Staked) (a : Address) : (updateFirst l a fun _ => none).Sublist l := by
  induction l with
  | nil => exact List.Sublist.refl _
  | cons v rest ih =>
    rw [updateFirst]
    split
    · exact List.sublist_cons_self _ _
    · exact ih.cons_cons v

theorem once_removeFirst (hl : Once l) :
    Once (updateFirst l a fun _ => none) :=
  List.Nodup.sublist ((removeFirst_sublist l a).map Staked.addr) hl

theorem stakeBalance_removeFirst (hl : Once l) (b : Address) :
    stakeBalance (updateFirst l a fun _ => none) b = if b = a then 0 else stakeBalance l b := by
  induction l with
  | nil => simp [updateFirst, stakeBalance]
  | cons v rest ih =>
    obtain ⟨hv, hrest⟩ := List.nodup_cons.mp hl
    rw [updateFirst]
    by_cases hva : v.addr = a
    · subst hva
      rw [if_pos rfl]
      by_cases hb : b = v.addr
      · rw [if_pos hb, hb]
        exact stakeBalance_of_notMem hv
      · simp [stakeBalance, if_neg hb, Ne.symm hb]
    · rw [if_neg hva]
      have ih' := ih hrest
      simp only [stakeBalance, List.find?_cons] at ih' ⊢
      by_cases hvb : v.addr = b
      · subst hvb
        simp [hva]
      · simpa [hvb] using ih'

/-! ## Adding and removing -/

/-- Adding an amount keeps the accounts of a list and appends a new one. -/
theorem map_addr_add (l : List Staked) (a : Address) (x : ℤ) : ((add l a x).map Staked.addr).Perm
      (if a ∈ l.map Staked.addr then l.map Staked.addr else l.map Staked.addr ++ [a]) := by
  unfold add
  split
  next hold =>
    have hperm := (sorted_perm (updateFirst l a fun v => some { v with balance := v.balance + x })).map
      Staked.addr
    rw [map_addr_updateFirst fun y => y + x] at hperm
    rwa [if_pos (exist_iff.mp hold)]
  next hnew =>
    have hperm := (sorted_perm (l ++ [⟨a, x⟩])).map Staked.addr
    rw [List.map_append] at hperm
    rwa [if_neg fun ha => hnew (exist_iff.mpr ha)]

theorem once_add (hl : Once l) (a : Address) (x : ℤ) : Once (add l a x) := by
  unfold add
  split
  · refine once_sorted ?_
    unfold Once
    rw [map_addr_updateFirst fun y => y + x]
    exact hl
  next hnew =>
    refine once_sorted ?_
    unfold Once
    rw [List.map_append, List.nodup_append]
    refine ⟨hl, List.nodup_singleton _, ?_⟩
    rintro b hb c hc rfl
    obtain rfl : b = a := by simpa using hc
    exact hnew (exist_iff.mpr hb)

theorem stakeBalance_add (hl : Once l) (a : Address) (x : ℤ) (b : Address) :
    stakeBalance (add l a x) b = stakeBalance l b + if b = a then x else 0 := by
  have honce := once_add hl a x
  unfold add at honce ⊢
  split
  next hold =>
    have hu : Once (updateFirst l a fun v => some { v with balance := v.balance + x }) := by
      unfold Once
      rw [map_addr_updateFirst fun y => y + x]
      exact hl
    rw [stakeBalance_sorted hu, stakeBalance_updateFirst (fun y => y + x) (exist_iff.mp hold)]
    by_cases hb : b = a
    · simp [hb]
    · simp [hb]
  next hnew =>
    rw [if_neg hnew] at honce
    have ha : a ∉ l.map Staked.addr := fun ha => hnew (exist_iff.mpr ha)
    rw [stakeBalance_sorted (honce.perm (sorted_perm _).symm)]
    by_cases hb : b = a
    · subst hb
      have hfind : l.find? (fun v => decide (v.addr = b)) = none := by
        refine List.find?_eq_none.mpr fun v hv => ?_
        simpa using fun heq : v.addr = b => ha (heq ▸ List.mem_map_of_mem hv)
      rw [stakeBalance_of_notMem ha]
      simp [stakeBalance, List.find?_append, hfind]
    · simp [stakeBalance, List.find?_append, hb, Ne.symm hb]

theorem once_removeValidator (hl : Once l) (a : Address) (x : ℤ) :
    Once (removeValidator l a x) := by
  unfold removeValidator
  split
  · exact hl
  · split
    · refine once_sorted ?_
      unfold Once
      rw [map_addr_updateFirst fun y => y - x]
      exact hl
    · exact once_removeFirst hl

/-- Removing what an account has takes exactly that from its stake. -/
theorem stakeBalance_removeValidator (hl : Once l) (hx : 0 ≤ x) (hhas : x ≤ stakeBalance l a)
    (b : Address) :
    stakeBalance (removeValidator l a x) b = stakeBalance l b - if b = a then x else 0 := by
  unfold removeValidator
  split
  next hnone =>
    -- an account without an entry has nothing, so nothing is removed
    have hzero : x = 0 := by
      rw [stakeBalance, hnone] at hhas
      exact le_antisymm hhas hx
    simp [hzero]
  next v hv =>
    have hmem : a ∈ l.map Staked.addr := by
      have haddr : v.addr = a := by simpa using List.find?_some hv
      exact haddr ▸ List.mem_map_of_mem (List.mem_of_find?_eq_some hv)
    have hbal : stakeBalance l a = v.balance := by rw [stakeBalance, hv]
    split
    · have hu : Once (updateFirst l a fun v => some { v with balance := v.balance - x }) := by
        unfold Once
        rw [map_addr_updateFirst fun y => y - x]
        exact hl
      rw [stakeBalance_sorted hu, stakeBalance_updateFirst (fun y => y - x) hmem]
      by_cases hb : b = a
      · simp [hb]
      · simp [hb]
    next hall =>
      rw [stakeBalance_removeFirst hl]
      by_cases hb : b = a
      · subst hb
        simp only [if_true]
        omega
      · simp [hb]

theorem foldValidators_append (l : List Staked) (tokens : List PledgedToken) (t : PledgedToken) :
    foldValidators l (tokens ++ [t]) =
      if t.flag then add (foldValidators l tokens) t.address t.amount
      else removeValidator (foldValidators l tokens) t.address t.amount := by
  simp [foldValidators]

theorem once_foldValidators (hl : Once l) (tokens : List PledgedToken) :
    Once (foldValidators l tokens) := by
  induction tokens using List.reverseRecOn with
  | nil => exact hl
  | append_singleton tokens t ih =>
    rw [foldValidators_append]
    split
    · exact once_add ih _ _
    · exact once_removeValidator ih _ _

/-! ## Stakers -/

/-- The stakers' removal only sorts where the validators' does not. -/
theorem removeStaker_perm (l : List Staked) (a : Address) (x : ℤ) :
    (removeStaker l a x).Perm (removeValidator l a x) := by
  unfold removeStaker removeValidator
  split
  · exact .refl l
  · split
    · exact .refl _
    · exact sorted_perm _

theorem once_removeStaker (hl : Once l) (a : Address) (x : ℤ) :
    Once (removeStaker l a x) :=
  (once_removeValidator hl a x).perm (removeStaker_perm l a x)

theorem stakeBalance_removeStaker (hl : Once l) (hx : 0 ≤ x) (hhas : x ≤ stakeBalance l a)
    (b : Address) :
    stakeBalance (removeStaker l a x) b = stakeBalance l b - if b = a then x else 0 := by
  rw [stakeBalance_perm (once_removeValidator hl a x) (removeStaker_perm l a x),
    stakeBalance_removeValidator hl hx hhas]

/-- Removing all an account has. -/
theorem stakeBalance_removeStaker_all (hl : Once l) (a b : Address) :
    stakeBalance (removeStaker l a (stakeBalance l a)) b = if b = a then 0 else stakeBalance l b := by
  rw [stakeBalance_perm (once_removeValidator hl a _) (removeStaker_perm l a _)]
  unfold removeValidator
  split
  next hnone =>
    split_ifs with hb
    · rw [hb, stakeBalance, hnone]
    · rfl
  next v hv =>
    have hbal : stakeBalance l a = v.balance := by rw [stakeBalance, hv]
    rw [hbal, if_neg (lt_irrefl _), stakeBalance_removeFirst hl]

theorem foldStakers_append (l : List Staked) (tokens : List PledgedToken) (t : PledgedToken) :
    foldStakers l (tokens ++ [t]) =
      if t.flag then add (foldStakers l tokens) t.address t.amount
      else removeStaker (foldStakers l tokens) t.address t.amount := by
  simp [foldStakers]

theorem once_foldStakers (hl : Once l) (tokens : List PledgedToken) :
    Once (foldStakers l tokens) := by
  induction tokens using List.reverseRecOn with
  | nil => exact hl
  | append_singleton tokens t ih =>
    rw [foldStakers_append]
    split
    · exact once_add ih _ _
    · exact once_removeStaker ih _ _

/-- Adding several accounts to a list: their number and who they are. -/
theorem map_addr_foldl_add (amount : Address → ℤ) (addrs : List Address) (l : List Staked) :
    (addrs.foldl (fun l a => add l a (amount a)) l).length ≤ l.length + addrs.length ∧
      ∀ a ∈ (addrs.foldl (fun l a => add l a (amount a)) l).map Staked.addr,
        a ∈ l.map Staked.addr ∨ a ∈ addrs := by
  induction addrs generalizing l with
  | nil => exact ⟨Nat.le_refl _, fun a ha => Or.inl ha⟩
  | cons b addrs ih =>
    obtain ⟨hlen, hmem⟩ := ih (add l b (amount b))
    have hperm := map_addr_add l b (amount b)
    have hadd : (add l b (amount b)).length ≤ l.length + 1 := by
      have := hperm.length_eq
      split at this <;> simp at this <;> omega
    refine ⟨by simp only [List.foldl_cons, List.length_cons]; omega, fun a ha => ?_⟩
    rcases hmem a ha with h | h
    · have ha' := hperm.mem_iff.mp h
      split at ha'
      · exact Or.inl ha'
      · rcases List.mem_append.mp ha' with h' | h'
        · exact Or.inl h'
        · exact Or.inr (by simp [List.mem_singleton.mp h'])
    · exact Or.inr (List.mem_cons_of_mem _ h)

end Wormholes.StakedList

namespace Wormholes

open Common

/-! ## Selection -/

theorem SelectedBy.length_le {l : List Staked} {hash : ℕ} (h : SelectedBy l addrs k hash out) :
    out.length ≤ k := by
  obtain ⟨-, ranked, -, rfl⟩ := h
  simp

theorem SelectedBy.subset {l : List Staked} {hash : ℕ} (h : SelectedBy l addrs k hash out) :
    ∀ a ∈ out, a ∈ addrs.map bigToAddress := by
  obtain ⟨-, ranked, ⟨hperm, -⟩, rfl⟩ := h
  intro a ha
  obtain ⟨p, hp, rfl⟩ := List.mem_map.mp ha
  obtain ⟨v, hv, rfl⟩ := List.mem_map.mp (hperm.mem_iff.mp (List.mem_of_mem_take hp))
  exact List.mem_map_of_mem hv

/-- At least as many are chosen as there are, up to the number asked for. -/
theorem selectedBy_of_length_le {l : List Staked} (hash : ℕ)
    (htotal : addrs ≠ [] → StakedList.totalStakeBalance l ≠ 0) (hone : addrs.length ≤ 1)
    (hk : 1 ≤ k) : SelectedBy l addrs k hash (addrs.map bigToAddress) := by
  refine ⟨htotal, _, ⟨List.Perm.refl _, ?_⟩, ?_⟩
  · rcases addrs with _ | ⟨v, _ | ⟨w, addrs⟩⟩
    · exact List.Pairwise.nil
    · exact List.pairwise_singleton _ _
    · simp at hone
  · rw [List.take_of_length_le (by simp; omega)]
    simp

end Wormholes
