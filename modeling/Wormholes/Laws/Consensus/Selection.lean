import Wormholes.Consensus.Istanbul
import Wormholes.Laws.Types.Stake
import Wormholes.Lib.Ranking
import Mathlib.Data.Finset.Image
import Mathlib.Data.List.Perm.Basic

/-!
# Laws.Consensus.Selection — when every node selects the same validators

A selection ranks the entries of a pool by weight with an unstable sort over a map, so two nodes may
arrange entries of equal weight differently. `Clear` of `Lib.Ranking` says that no weight has
entries on both sides of the cut; the selections of two nodes agree exactly then. A pool with a
total stake of zero selects nothing: the division by the total panics.

The pools hold an address once (`StakePool`, `MinerPool`): every operation that writes one keeps
that. The weights are rounded quotients, so entries of small distance or small stake share a weight.
-/

namespace Wormholes

open Lib Common Consensus

/-! ## Pools -/

/-- A stake or validator list as the pools hold it: an address once. -/
structure StakePool where
  entries : List Staked
  once : StakedList.Once entries

/-- The active miners as their pool holds them: an address once. -/
structure MinerPool where
  miners : List ActiveMiner
  once : (miners.map ActiveMiner.address).Nodup

namespace MinerPool

theorem nodup_addOrUpdate {s : StateDB} (h : (s.pools.activeMinersPool.map ActiveMiner.address).Nodup)
    (a : Address) (x : ℤ) (height : ℕ) :
    ((s.addOrUpdateActiveMiner a x height).pools.activeMinersPool.map ActiveMiner.address).Nodup := by
  unfold StateDB.addOrUpdateActiveMiner
  cases hidx : s.pools.activeMinersPool.findIdx? (·.address = a) with
  | some k =>
    have hsame : (s.pools.activeMinersPool.modify k fun m => { m with height := height }).map
        ActiveMiner.address = s.pools.activeMinersPool.map ActiveMiner.address := by
      refine List.ext_getElem? fun i => ?_
      simp only [List.getElem?_map, List.getElem?_modify]
      by_cases hik : k = i
      · cases hm : s.pools.activeMinersPool[i]? <;> simp [hik]
      · simp [hik]
    simp only [hidx, hsame]
    exact h
  | none =>
    have hfresh : ∀ m ∈ s.pools.activeMinersPool, m.address ≠ a := by
      simpa [List.findIdx?_eq_none_iff] using hidx
    simp only [hidx, List.map_append, List.map_cons, List.map_nil]
    refine List.Nodup.append h (List.nodup_singleton a) ?_
    intro b hb hba
    obtain ⟨m, hm, rfl⟩ := List.mem_map.mp hb
    exact hfresh m hm (List.mem_singleton.mp hba)

theorem nodup_removeActiveAddr {l : List ActiveMiner} (h : (l.map ActiveMiner.address).Nodup)
    (a : Address) : ((ActiveMinerList.removeActiveAddr l a).map ActiveMiner.address).Nodup :=
  h.sublist (List.eraseP_sublist.map _)

theorem nodup_removeAll {l : List ActiveMiner} (h : (l.map ActiveMiner.address).Nodup)
    (addrs : List Address) :
    ((addrs.foldl ActiveMinerList.removeActiveAddr l).map ActiveMiner.address).Nodup := by
  induction addrs generalizing l with
  | nil => exact h
  | cons a addrs ih => exact ih (nodup_removeActiveAddr h a)

/-- A pool after the inactive miners of a block went away. -/
def pruneInactive (p : MinerPool) (number : ℕ) : MinerPool where
  miners := ActiveMinerList.pruneInactive p.miners number
  once := by
    unfold ActiveMinerList.pruneInactive
    split
    · exact nodup_removeAll p.once _
    · exact p.once

/-- A pool after the miners without a pledge went away. -/
def ensureEffectiveMiners (p : MinerPool) (vl : List Staked) : MinerPool where
  miners := ActiveMinerList.ensureEffectiveMiners vl p.miners
  once := by
    refine nodup_removeAll ?_ _
    have hsame : ∀ m : ActiveMiner,
        (if StakedList.exist vl m.address then
          { m with balance := StakedList.stakeBalance vl m.address } else m).address = m.address := by
      intro m
      split <;> rfl
    rw [List.map_map]
    simpa [Function.comp_def, hsame] using p.once

end MinerPool

/-! ## Selections -/

section

variable {l l' : List Staked} {k hash : ℕ} {out : List Address}

theorem StakedList.totalStakeBalance_perm (h : l'.Perm l) :
    StakedList.totalStakeBalance l' = StakedList.totalStakeBalance l := by
  refine h.foldl_eq' (fun x _ y _ z => ?_) 0
  omega

/-- The weight of an entry in the selection of a hash. -/
def entryWeight (l : List Staked) (hash : ℕ) (v : Staked) : ℤ :=
  selectionWeight l v.addr.toNat (hash % 2 ^ 160)

theorem entryWeight_perm (hl : StakedList.Once l) (h : l'.Perm l) (hash : ℕ) :
    entryWeight l' hash = entryWeight l hash := by
  funext v
  simp only [entryWeight, selectionWeight, StakedList.stakeBalance_perm hl h,
    StakedList.totalStakeBalance_perm h]

/-- A selection is the first `k` of a ranking of the entries. -/
theorem selectedBy_iff :
    SelectedBy l (stakedAddrs l) k hash out ↔
      (l ≠ [] → StakedList.totalStakeBalance l ≠ 0) ∧
        ∃ r, Ranked (entryWeight l hash) l r ∧ out = (r.take k).map Staked.addr := by
  have hback : ∀ r : List Staked, (r.take k).map Staked.addr =
      ((r.map fun v => (v.addr.toNat, entryWeight l hash v)).take k).map
        fun p => bigToAddress p.1 := by
    intro r
    simp [← List.map_take, bigToAddress]
  have hempty : stakedAddrs l ≠ [] ↔ l ≠ [] := by simp [stakedAddrs]
  have hpairs : (stakedAddrs l).map (fun v => (v, selectionWeight l v (hash % 2 ^ 160))) =
      l.map fun v => (v.addr.toNat, entryWeight l hash v) := by
    simp [stakedAddrs, entryWeight]
  unfold SelectedBy
  rw [hempty, hpairs]
  refine and_congr_right fun _ => ?_
  constructor
  · rintro ⟨ranked, ⟨hperm, hsorted⟩, rfl⟩
    obtain ⟨r, rfl, hr⟩ := (congrFun₂ (List.eq_map_comp_perm _) ranked l).mpr hperm
    exact ⟨r, ⟨hr, List.pairwise_map.mp hsorted⟩, (hback r).symm⟩
  · rintro ⟨r, ⟨hperm, hsorted⟩, rfl⟩
    exact ⟨_, ⟨hperm.map _, List.pairwise_map.mpr hsorted⟩, hback r⟩

theorem SelectedBy.congr_perm (hl : StakedList.Once l) (h : l'.Perm l)
    (hsel : SelectedBy l' (stakedAddrs l') k hash out) :
    SelectedBy l (stakedAddrs l) k hash out := by
  obtain ⟨htotal, r, ⟨hperm, hsorted⟩, hout⟩ := selectedBy_iff.mp hsel
  refine selectedBy_iff.mpr ⟨?_, r, ⟨hperm.trans h, ?_⟩, hout⟩
  · intro hne
    rw [← StakedList.totalStakeBalance_perm h]
    exact htotal fun hnil => hne (by simpa [hnil] using h.symm)
  · rwa [entryWeight_perm hl h hash] at hsorted

/-- The selection panics, or no weight stands on both sides of the cut. -/
def NoTieAtCut (l : List Staked) (k hash : ℕ) : Prop :=
  StakedList.totalStakeBalance l = 0 ∨ Clear (entryWeight l hash) l k

instance (l : List Staked) (k hash : ℕ) : Decidable (NoTieAtCut l k hash) :=
  inferInstanceAs (Decidable (_ ∨ _))

theorem StakedList.Once.nodup (hl : StakedList.Once l) : l.Nodup := List.Nodup.of_map _ hl

theorem SelectedBy.nodup (hl : StakedList.Once l)
    (hsel : SelectedBy l (stakedAddrs l) k hash out) : out.Nodup := by
  obtain ⟨-, r, ⟨hperm, -⟩, rfl⟩ := selectedBy_iff.mp hsel
  have hr : (r.map Staked.addr).Nodup := (hperm.map Staked.addr).nodup_iff.mpr hl
  rw [List.map_take]
  exact hr.sublist (List.take_sublist k _)

/-- With no tie at the cut, who is selected does not depend on the ranking. -/
theorem SelectedBy.mem_iff (hc : Clear (entryWeight l hash) l k)
    (hsel : SelectedBy l (stakedAddrs l) k hash out) (a : Address) :
    a ∈ out ↔ ∃ v ∈ l, atLeast (entryWeight l hash) l (entryWeight l hash v) ≤ k ∧ v.addr = a := by
  obtain ⟨-, r, hr, rfl⟩ := selectedBy_iff.mp hsel
  simp only [List.mem_map, hr.mem_take_iff hc]
  constructor
  · rintro ⟨v, ⟨hv, hle⟩, rfl⟩
    exact ⟨v, hv, hle, rfl⟩
  · rintro ⟨v, hv, hle, rfl⟩
    exact ⟨v, ⟨hv, hle⟩, rfl⟩

/-- A tie at the cut leaves two selections, one with an account the other is without. -/
theorem exists_selected_differ (hl : StakedList.Once l) (h : ¬NoTieAtCut l k hash) :
    ∃ out₁ out₂ a, SelectedBy l (stakedAddrs l) k hash out₁ ∧
      SelectedBy l (stakedAddrs l) k hash out₂ ∧ a ∈ out₁ ∧ a ∉ out₂ := by
  obtain ⟨htotal, hclear⟩ := not_or.mp h
  obtain ⟨r₁, r₂, v, hr₁, hr₂, hv₁, hv₂⟩ := exists_ranked_differ hl.nodup hclear
  refine ⟨_, _, v.addr, selectedBy_iff.mpr ⟨fun _ => htotal, r₁, hr₁, rfl⟩,
    selectedBy_iff.mpr ⟨fun _ => htotal, r₂, hr₂, rfl⟩, List.mem_map_of_mem hv₁, fun hmem => ?_⟩
  obtain ⟨u, hu, hueq⟩ := List.mem_map.mp hmem
  -- an address is in the list once, so the entry behind the cut is this one
  have huv : u = v := by
    refine List.inj_on_of_nodup_map hl ?_ ?_ hueq
    · exact hr₂.1.mem_iff.mp (List.mem_of_mem_take hu)
    · exact hr₁.1.mem_iff.mp (List.mem_of_mem_take hv₁)
  exact hv₂ (huv ▸ hu)

/-- Any two selections from a pool, however it is arranged, choose the same accounts. -/
def SelectionsAgree (l : List Staked) (k hash : ℕ) : Prop :=
  ∀ l₁ l₂ : List Staked, l₁.Perm l → l₂.Perm l → ∀ out₁ out₂,
    SelectedBy l₁ (stakedAddrs l₁) k hash out₁ → SelectedBy l₂ (stakedAddrs l₂) k hash out₂ →
      out₁.toFinset = out₂.toFinset

/-- Two rankings can differ only inside a group of equal weights, so they agree on the first `k` exactly
if no such group is cut. -/
theorem selectionsAgree_iff (hl : StakedList.Once l) :
    SelectionsAgree l k hash ↔ NoTieAtCut l k hash := by
  constructor
  · intro hagree
    by_contra hc
    obtain ⟨out₁, out₂, a, h₁, h₂, ha₁, ha₂⟩ := exists_selected_differ hl hc
    have hsame := hagree l l (List.Perm.refl l) (List.Perm.refl l) out₁ out₂ h₁ h₂
    exact ha₂ (List.mem_toFinset.mp (hsame ▸ List.mem_toFinset.mpr ha₁))
  · intro hc l₁ l₂ hl₁ hl₂ out₁ out₂ h₁ h₂
    replace h₁ := h₁.congr_perm hl hl₁
    replace h₂ := h₂.congr_perm hl hl₂
    rcases hc with htotal | hc
    · -- a total of zero selects from an empty list only
      have hnil : l = [] := not_not.mp fun hne => (selectedBy_iff.mp h₁).1 hne htotal
      subst hnil
      obtain ⟨-, r₁, hr₁, rfl⟩ := selectedBy_iff.mp h₁
      obtain ⟨-, r₂, hr₂, rfl⟩ := selectedBy_iff.mp h₂
      rw [hr₁.1.eq_nil, hr₂.1.eq_nil]
    · ext a
      rw [List.mem_toFinset, List.mem_toFinset, h₁.mem_iff hc, h₂.mem_iff hc]

end

/-! ## The eleven validators -/

/-- Building a list of accounts that are not in it yet. -/
theorem StakedList.foldl_add_perm (amount : Address → ℤ) {addrs : List Address}
    (haddrs : addrs.Nodup) {l : List Staked} (hfresh : ∀ a ∈ addrs, a ∉ l.map Staked.addr) :
    (addrs.foldl (fun l a => StakedList.add l a (amount a)) l).Perm
      (l ++ addrs.map fun a => ⟨a, amount a⟩) := by
  induction addrs generalizing l with
  | nil => simp
  | cons b addrs ih =>
    obtain ⟨hb, haddrs⟩ := List.nodup_cons.mp haddrs
    have hadd : (StakedList.add l b (amount b)).Perm (l ++ [⟨b, amount b⟩]) := by
      have hnot : StakedList.exist l b = false := by
        rw [Bool.eq_false_iff]
        exact fun h => hfresh b List.mem_cons_self (StakedList.exist_iff.mp h)
      simp only [StakedList.add, hnot, Bool.false_eq_true, if_false]
      exact StakedList.sorted_perm _
    have hnext : ∀ a ∈ addrs, a ∉ (StakedList.add l b (amount b)).map Staked.addr := by
      intro a ha hmem
      have hmem' := (hadd.map Staked.addr).mem_iff.mp hmem
      rw [List.map_append] at hmem'
      rcases List.mem_append.mp hmem' with h | h
      · exact hfresh a (List.mem_cons_of_mem _ ha) h
      · have hab : a = b := List.mem_singleton.mp h
        exact hb (hab ▸ ha)
    refine (ih haddrs hnext).trans ((hadd.append_right _).trans ?_)
    simp

section

variable {miners miners' : List ActiveMiner} {hash : List ℕ}

theorem once_staked (h : (miners.map ActiveMiner.address).Nodup) :
    StakedList.Once (ActiveMinerList.staked miners) := by
  simpa [StakedList.Once, ActiveMinerList.staked, Function.comp_def] using h

theorem convertToBigInt_eq (miners : List ActiveMiner) :
    ActiveMinerList.convertToBigInt miners = stakedAddrs (ActiveMinerList.staked miners) := by
  simp [ActiveMinerList.convertToBigInt, stakedAddrs, ActiveMinerList.staked, Function.comp_def]

/-- The entry of an account chosen from a pool. -/
def elevenEntry (miners : List ActiveMiner) (a : Address) : Staked :=
  ⟨a, StakedList.stakeBalance (ActiveMinerList.staked miners) a⟩

/-- The eleven validators are the chosen accounts with their stakes in the pool. -/
theorem random11_iff (h : (miners.map ActiveMiner.address).Nodup) (entries : Finset Staked) :
    (∃ out, Random11ValidatorFromPool miners hash out ∧ out.toFinset = entries) ↔
      ∃ validators,
        SelectedBy (ActiveMinerList.staked miners) (stakedAddrs (ActiveMinerList.staked miners)) 11
          (hashBig hash) validators ∧
        validators.toFinset.image (elevenEntry miners) = entries := by
  have hbuilt : ∀ validators : List Address, validators.Nodup →
      (validators.foldl (fun l a => StakedList.add l a
        (StakedList.stakeBalance (ActiveMinerList.staked miners) a)) []).toFinset =
      validators.toFinset.image (elevenEntry miners) := by
    intro validators hnodup
    have hperm := StakedList.foldl_add_perm
      (StakedList.stakeBalance (ActiveMinerList.staked miners)) hnodup (l := []) (by simp)
    ext v
    rw [List.mem_toFinset, hperm.mem_iff]
    simp [elevenEntry]
  simp only [Random11ValidatorFromPool, convertToBigInt_eq]
  constructor
  · rintro ⟨out, ⟨validators, hsel, rfl⟩, rfl⟩
    exact ⟨validators, hsel, (hbuilt validators (hsel.nodup (once_staked h))).symm⟩
  · rintro ⟨validators, hsel, rfl⟩
    exact ⟨_, ⟨validators, hsel, rfl⟩, hbuilt validators (hsel.nodup (once_staked h))⟩

/-- Any two nodes that read the same miners, however arranged, choose the same validators. -/
def Random11Agree (miners : List ActiveMiner) (hash : List ℕ) : Prop :=
  ∀ miners₁ miners₂ : List ActiveMiner, miners₁.Perm miners → miners₂.Perm miners →
    ∀ out₁ out₂, Random11ValidatorFromPool miners₁ hash out₁ →
      Random11ValidatorFromPool miners₂ hash out₂ → out₁.toFinset = out₂.toFinset

theorem elevenEntry_perm (h : (miners.map ActiveMiner.address).Nodup) (hp : miners'.Perm miners) :
    elevenEntry miners' = elevenEntry miners := by
  funext a
  simp only [elevenEntry, StakedList.stakeBalance_perm (once_staked h) (hp.map _),
    ActiveMinerList.staked]

theorem elevenEntry_injective (miners : List ActiveMiner) :
    Function.Injective (elevenEntry miners) := fun _ _ h => congrArg Staked.addr h

/-- The choice from any arrangement of a pool, as a choice from the pool. -/
theorem selected_of_random11 (h : (miners.map ActiveMiner.address).Nodup)
    (hp : miners'.Perm miners) {out : List Staked}
    (hout : Random11ValidatorFromPool miners' hash out) :
    ∃ validators,
      SelectedBy (ActiveMinerList.staked miners') (stakedAddrs (ActiveMinerList.staked miners')) 11
        (hashBig hash) validators ∧
      out.toFinset = validators.toFinset.image (elevenEntry miners) := by
  have h' : (miners'.map ActiveMiner.address).Nodup := (hp.map _).nodup_iff.mpr h
  obtain ⟨validators, hsel, himage⟩ := (random11_iff h' out.toFinset).mp ⟨out, hout, rfl⟩
  exact ⟨validators, hsel, by rw [← himage, elevenEntry_perm h hp]⟩

/-- The same for the eleven validators, whose pool is read from the parent's state. -/
theorem random11Agree_iff (h : (miners.map ActiveMiner.address).Nodup) :
    Random11Agree miners hash ↔ NoTieAtCut (ActiveMinerList.staked miners) 11 (hashBig hash) := by
  rw [← selectionsAgree_iff (once_staked h)]
  constructor
  · intro hagree
    rw [selectionsAgree_iff (once_staked h)]
    by_contra hc
    obtain ⟨val₁, val₂, a, h₁, h₂, ha₁, ha₂⟩ := exists_selected_differ (once_staked h) hc
    obtain ⟨out₁, hout₁, himage₁⟩ := (random11_iff h _).mpr ⟨val₁, h₁, rfl⟩
    obtain ⟨out₂, hout₂, himage₂⟩ := (random11_iff h _).mpr ⟨val₂, h₂, rfl⟩
    have hsame := hagree miners miners (List.Perm.refl _) (List.Perm.refl _) out₁ out₂ hout₁ hout₂
    rw [himage₁, himage₂] at hsame
    have hval := Finset.image_injective (elevenEntry_injective miners) hsame
    exact ha₂ (List.mem_toFinset.mp (hval ▸ List.mem_toFinset.mpr ha₁))
  · intro hagree miners₁ miners₂ hp₁ hp₂ out₁ out₂ hout₁ hout₂
    obtain ⟨val₁, h₁, himage₁⟩ := selected_of_random11 h hp₁ hout₁
    obtain ⟨val₂, h₂, himage₂⟩ := selected_of_random11 h hp₂ hout₂
    rw [himage₁, himage₂, hagree _ _ (hp₁.map _) (hp₂.map _) val₁ val₂ h₁ h₂]

end

/-- **Who is selected is determined exactly when no tie straddles the cut**: for the eleven
validators of a pool of miners, the four rewarded stakers and the rewarded ones of the eleven. -/
theorem selections_agree_iff (pool : MinerPool) (stakers eleven : StakePool) (n : ℕ)
    (hash parentHash : List ℕ) :
    (Random11Agree pool.miners hash ↔
        NoTieAtCut (ActiveMinerList.staked pool.miners) 11 (hashBig hash)) ∧
      (SelectionsAgree stakers.entries 4 (hashBig parentHash) ↔
        NoTieAtCut stakers.entries 4 (hashBig parentHash)) ∧
      (SelectionsAgree eleven.entries n (hashBig parentHash) ↔
        NoTieAtCut eleven.entries n (hashBig parentHash)) :=
  ⟨random11Agree_iff pool.once, selectionsAgree_iff stakers.once, selectionsAgree_iff eleven.once⟩

/-- Twelve miners with a unit of stake each, close to the zero hash: every weight is rounded to
zero. -/
def twelveMiners : MinerPool where
  miners := (List.range 12).map fun i => ⟨BitVec.ofNat 160 i, 1, 0⟩
  once := by decide

/-- Two nodes that read the twelve miners can choose different validators. -/
theorem selections_differ : ¬Random11Agree twelveMiners.miners (List.replicate 32 0) := by
  rw [random11Agree_iff twelveMiners.once]
  decide +kernel

end Wormholes
