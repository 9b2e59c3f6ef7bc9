import Wormholes.Laws.Consensus.Selection
import Wormholes.Laws.Types.StakeLedger
import Wormholes.Laws.Chain.Steps

/-!
# Laws.Consensus.Reward — whom a selection among the stakers rewards

`Prepare` selects among all stakers of the parent's pool. A weight is divided by the total stake, so
the selection panics where stakers are left and none of them has a stake. Such a pool is reached: a
type 21 of value zero adds its sender to the pool with a balance of zero
(`reward_selection_total_iff`, `zero_stake_panics`).

The selection sorts by descending weight, and with equal stakes the weight grows with the distance.
So it takes the accounts that are farthest from the hash and not the closest
(`selects_closest_iff`, `farthest_selected`).
-/

namespace Wormholes

open Lib Common Consensus StakedList

variable {l : List Staked} {k hash : ℕ} {out : List Address}

/-! ## Total stakes -/

namespace StakedList

theorem totalStakeBalance_cons (v : Staked) (rest : List Staked) :
    totalStakeBalance (v :: rest) = v.balance + totalStakeBalance rest := by
  have hshift : ∀ (rest : List Staked) (x y : ℤ),
      rest.foldl (fun total v => total + v.balance) (x + y) =
        x + rest.foldl (fun total v => total + v.balance) y := by
    intro rest
    induction rest with
    | nil => exact fun x y => rfl
    | cons u rest ih =>
      intro x y
      rw [List.foldl_cons, List.foldl_cons, Int.add_assoc, ih]
  show rest.foldl _ (0 + v.balance) = v.balance + rest.foldl _ 0
  rw [Int.add_comm 0, hshift]

theorem totalStakeBalance_nonneg (hnonneg : ∀ v ∈ l, 0 ≤ v.balance) : 0 ≤ totalStakeBalance l := by
  induction l with
  | nil => exact le_refl 0
  | cons v rest ih =>
    have hv := hnonneg v List.mem_cons_self
    have hrest := ih fun u hu => hnonneg u (List.mem_cons_of_mem v hu)
    rw [totalStakeBalance_cons]
    omega

/-- Without negative balances, the total is zero where no balance is positive. -/
theorem totalStakeBalance_ne_zero_iff (hnonneg : ∀ v ∈ l, 0 ≤ v.balance) :
    totalStakeBalance l ≠ 0 ↔ ∃ v ∈ l, 0 < v.balance := by
  induction l with
  | nil => simp [totalStakeBalance]
  | cons v rest ih =>
    have hv := hnonneg v List.mem_cons_self
    have hrest : ∀ u ∈ rest, 0 ≤ u.balance := fun u hu => hnonneg u (List.mem_cons_of_mem v hu)
    have htotal := totalStakeBalance_nonneg hrest
    rw [totalStakeBalance_cons, List.exists_mem_cons_iff, ← ih hrest]
    omega

theorem totalStakeBalance_of_equal {stake : ℤ} (hequal : ∀ v ∈ l, v.balance = stake) :
    totalStakeBalance l = l.length * stake := by
  induction l with
  | nil => simp [totalStakeBalance]
  | cons v rest ih =>
    rw [totalStakeBalance_cons, hequal v List.mem_cons_self,
      ih fun u hu => hequal u (List.mem_cons_of_mem v hu), List.length_cons]
    push_cast
    ring

theorem totalStakeBalance_pos {stake : ℤ} (hstake : 0 < stake) (hequal : ∀ v ∈ l, v.balance = stake)
    (hne : l ≠ []) : 0 < totalStakeBalance l := by
  rw [totalStakeBalance_of_equal hequal]
  have hlength : (0 : ℤ) < l.length := Int.natCast_pos.mpr (List.length_pos_of_ne_nil hne)
  exact Int.mul_pos hlength hstake

end StakedList

/-! ## Whether a selection returns -/

theorem SelectedBy.length_eq (h : SelectedBy l (stakedAddrs l) k hash out) :
    out.length = min k l.length := by
  obtain ⟨-, r, hr, rfl⟩ := selectedBy_iff.mp h
  rw [List.length_map, List.length_take, hr.1.length_eq]

theorem SelectedBy.mem_pool (h : SelectedBy l (stakedAddrs l) k hash out) :
    ∀ a ∈ out, a ∈ l.map Staked.addr := by
  obtain ⟨-, r, hr, rfl⟩ := selectedBy_iff.mp h
  intro a ha
  obtain ⟨v, hv, rfl⟩ := List.mem_map.mp ha
  exact List.mem_map_of_mem (hr.1.mem_iff.mp (List.mem_of_mem_take hv))

/-- A selection returns unless it divides by a total of zero. -/
theorem exists_selectedBy_iff :
    (∃ out, SelectedBy l (stakedAddrs l) k hash out) ↔ (l ≠ [] → totalStakeBalance l ≠ 0) := by
  constructor
  · intro h
    obtain ⟨out, hout⟩ := h
    exact (selectedBy_iff.mp hout).1
  · intro h
    obtain ⟨r, hr⟩ := exists_ranked (entryWeight l hash) l
    exact ⟨_, selectedBy_iff.mpr ⟨h, r, hr, rfl⟩⟩

/-- The selection among all stakers of a pool returns, and it returns as many distinct stakers as
there are, up to `k`. -/
def SelectsStakers (l : List Staked) (k hash : ℕ) : Prop :=
  (∃ out, SelectedBy l (stakedAddrs l) k hash out) ∧
    ∀ out, SelectedBy l (stakedAddrs l) k hash out →
      out.length = min k l.length ∧ out.Nodup ∧ ∀ a ∈ out, a ∈ l.map Staked.addr

/-- The selection divides by the total stake, and by nothing else. -/
theorem selectsStakers_iff (hl : Once l) :
    SelectsStakers l k hash ↔ (l ≠ [] → totalStakeBalance l ≠ 0) := by
  rw [← exists_selectedBy_iff]
  refine ⟨fun h => h.1, fun h => ⟨h, fun out hout => ?_⟩⟩
  exact ⟨hout.length_eq, hout.nodup hl, hout.mem_pool⟩

/-- The stakers that a sequence of stakes and removals leaves are selected from, if one of them has
a stake. The amounts of the entries are values: no two entries share one `*big.Int`, as those of calls
without value share `big0`. -/
theorem reward_selection_total_iff {tokens : List PledgedToken}
    (hnonneg : ∀ t ∈ tokens, 0 ≤ t.amount) (k hash : ℕ) :
    SelectsStakers (foldStakers [] tokens) k hash ↔
      ((∃ a, ledger tokens a ≠ none) → ∃ a x, ledger tokens a = some x ∧ 0 < x) := by
  have hrefines := foldStakers_refines tokens
  have hmem : ∀ v, v ∈ foldStakers [] tokens ↔ ledger tokens v.addr = some v.balance := by
    intro v
    rw [← hrefines.held, held_eq_some_iff hrefines.ordered.once]
  have hbalance : ∀ v ∈ foldStakers [] tokens, 0 ≤ v.balance := fun v hv =>
    ledger_ge le_rfl (by decide) hnonneg ((hmem v).mp hv)
  have hstaker : foldStakers [] tokens ≠ [] ↔ ∃ a, ledger tokens a ≠ none := by
    constructor
    · intro h
      obtain ⟨v, hv⟩ := List.exists_mem_of_ne_nil _ h
      exact ⟨v.addr, by rw [(hmem v).mp hv]; exact Option.some_ne_none _⟩
    · intro h
      obtain ⟨a, ha⟩ := h
      obtain ⟨x, hx⟩ := Option.ne_none_iff_exists'.mp ha
      exact List.ne_nil_of_mem ((hmem ⟨a, x⟩).mpr hx)
  have hstake : (∃ v ∈ foldStakers [] tokens, 0 < v.balance) ↔
      ∃ a x, ledger tokens a = some x ∧ 0 < x := by
    constructor
    · intro h
      obtain ⟨v, hv, hpos⟩ := h
      exact ⟨v.addr, v.balance, (hmem v).mp hv, hpos⟩
    · intro h
      obtain ⟨a, x, hx, hpos⟩ := h
      exact ⟨⟨a, x⟩, (hmem ⟨a, x⟩).mpr hx, hpos⟩
  rw [selectsStakers_iff hrefines.ordered.once, totalStakeBalance_ne_zero_iff hbalance, hstaker,
    hstake]

/-- An account stakes, another one takes part without a stake. -/
theorem reward_selection_total_iff_staked :
    SelectsStakers (foldStakers [] [⟨2, 5, true⟩, ⟨1, 0, true⟩]) 4 0 := by
  refine (reward_selection_total_iff (by simp) 4 0).mpr fun _ => ⟨2, 5, ?_, by decide⟩
  decide

/-- An account that is no staker sends a type 21 of value zero. The pool of the next block holds it
without a stake, and the selection of that block divides by zero. -/
theorem zero_stake_panics :
    ∃ (g : Genesis) (caller : Address) (es : List Event) (c : Chain),
      g.stake = [] ∧ es = [.call caller 0xe0 (.wormholes (.bare 21)) 0, .finalizeBlock []] ∧
      Run (Chain.step .trivial) (fun _ _ => True) g.chain es c ∧ c.stakePool = [⟨caller, 0⟩] ∧
      ∀ k hash, ¬SelectsStakers c.stakePool k hash := by
  have hall : (runAll (Chain.step .trivial) [.call 0xc0 0xe0 (.wormholes (.bare 21)) 0,
      .finalizeBlock []] (Genesis.small []).chain).map Chain.stakePool = some [⟨0xc0, 0⟩] := by
    decide +kernel
  obtain ⟨c, hc, hpool⟩ := Option.map_eq_some_iff.mp hall
  refine ⟨.small [], 0xc0, _, c, rfl, rfl, Run.of_runAll (fun _ _ _ => trivial) hc, hpool, ?_⟩
  intro k hash hselects
  have honce : Once [(⟨0xc0, 0⟩ : Staked)] := List.nodup_singleton _
  rw [hpool, selectsStakers_iff honce] at hselects
  exact hselects (List.cons_ne_nil _ _) rfl

/-! ## Whom a selection takes -/

/-- How far an account is from a hash. -/
def distanceTo (hash : ℕ) (v : Staked) : ℕ := circularDistance v.addr.toNat (hash % 2 ^ 160)

/-- The `k` accounts of the list with the smallest distances. -/
def Closest (l : List Staked) (k hash : ℕ) (out : List Address) : Prop :=
  out.length = k ∧ ∀ u ∈ l, ∀ v ∈ l, u.addr ∈ out → v.addr ∉ out →
    distanceTo hash u < distanceTo hash v

/-- With equal stakes, the weight grows with the distance. -/
theorem entryWeight_le_of_distance (hl : Once l) {stake : ℤ} (hstake : 0 < stake)
    (hequal : ∀ v ∈ l, v.balance = stake) {u v : Staked} (hu : u ∈ l) (hv : v ∈ l)
    (h : distanceTo hash u ≤ distanceTo hash v) : entryWeight l hash u ≤ entryWeight l hash v := by
  have hbalance : ∀ {w : Staked}, w ∈ l → stakeBalance l (bigToAddress w.addr.toNat) = stake := by
    intro w hw
    have hself : bigToAddress w.addr.toNat = w.addr := by simp [bigToAddress]
    rw [hself, stakeBalance_of_mem hl hw, hequal w hw]
  have htotal : 0 < totalStakeBalance l := totalStakeBalance_pos hstake hequal (List.ne_nil_of_mem hu)
  unfold entryWeight selectionWeight
  rw [hbalance hu, hbalance hv]
  refine Int.ediv_le_ediv htotal ?_
  exact Int.mul_le_mul_of_nonneg_right (Int.ofNat_le.mpr h) hstake.le

/-- The first of a ranking is not closer than one behind the cut. -/
theorem Ranked.head_not_closest {r : List Staked} {first : Staked} (hl : Once l)
    (hranked : Ranked (entryWeight l hash) l (first :: r)) {stake : ℤ} (hstake : 0 < stake)
    (hequal : ∀ v ∈ l, v.balance = stake) (hspread : (l.map (entryWeight l hash)).Nodup)
    {last : Staked} (hlast : last ∈ r) : distanceTo hash last < distanceTo hash first := by
  obtain ⟨hperm, hsorted⟩ := hranked
  have hle : entryWeight l hash last ≤ entryWeight l hash first :=
    List.rel_of_pairwise_cons hsorted hlast
  have hnodup : ((first :: r).map (entryWeight l hash)).Nodup :=
    (hperm.map _).nodup_iff.mpr hspread
  have hne : entryWeight l hash first ≠ entryWeight l hash last := by
    intro heq
    apply (List.nodup_cons.mp hnodup).1
    rw [heq]
    exact List.mem_map_of_mem hlast
  have hfirst : first ∈ l := hperm.mem_iff.mp List.mem_cons_self
  have hmem : last ∈ l := hperm.mem_iff.mp (List.mem_cons_of_mem _ hlast)
  by_contra hcon
  have hge := entryWeight_le_of_distance hl hstake hequal hfirst hmem (Nat.le_of_not_lt hcon)
  exact hne (le_antisymm hge hle)

/-- Among more than `k` accounts of equal stakes whose weights differ, the selection takes the `k`
closest ones if `k` is zero and only then. -/
theorem selects_closest_iff (hl : Once l) (hlen : k + 1 ≤ l.length) {stake : ℤ} (hstake : 0 < stake)
    (hequal : ∀ v ∈ l, v.balance = stake) (hspread : (l.map (entryWeight l hash)).Nodup) :
    (∀ out, SelectedBy l (stakedAddrs l) k hash out → Closest l k hash out) ↔ k = 0 := by
  constructor
  · intro hall
    by_contra hk
    have htotal : l ≠ [] → totalStakeBalance l ≠ 0 := fun hne =>
      (totalStakeBalance_pos hstake hequal hne).ne'
    obtain ⟨r, hr⟩ := exists_ranked (entryWeight l hash) l
    have hlength : r.length = l.length := hr.1.length_eq
    have hclosest := hall _ (selectedBy_iff.mpr ⟨htotal, r, hr, rfl⟩)
    -- the first of the ranking is taken, the one behind the cut is not
    cases r with
    | nil =>
      simp only [List.length_nil] at hlength
      omega
    | cons first rest =>
      obtain ⟨n, rfl⟩ : ∃ n, k = n + 1 := ⟨k - 1, by omega⟩
      have hcut : n < rest.length := by
        simp only [List.length_cons] at hlength
        omega
      have honce : ((first :: rest).map Staked.addr).Nodup := (hr.1.map _).nodup_iff.mpr hl
      have hlast : rest.get ⟨n, hcut⟩ ∈ rest := List.get_mem _ _
      have hout : (rest.get ⟨n, hcut⟩).addr ∉ ((first :: rest).take (n + 1)).map Staked.addr := by
        intro hmem
        rw [List.map_take] at hmem
        have hdrop : (rest.get ⟨n, hcut⟩).addr ∈ ((first :: rest).map Staked.addr).drop (n + 1) := by
          rw [← List.map_drop, List.drop_succ_cons, List.drop_eq_getElem_cons hcut]
          exact List.mem_map_of_mem List.mem_cons_self
        exact List.disjoint_take_drop honce le_rfl hmem hdrop
      have hcloser := hclosest.2 first (hr.1.mem_iff.mp List.mem_cons_self) (rest.get ⟨n, hcut⟩)
        (hr.1.mem_iff.mp (List.mem_cons_of_mem _ hlast))
        (List.mem_map_of_mem (by rw [List.take_succ_cons]; exact List.mem_cons_self)) hout
      have hfarther := Ranked.head_not_closest hl hr hstake hequal hspread hlast
      omega
  · intro hk out hout
    subst hk
    obtain ⟨-, r, -, rfl⟩ := selectedBy_iff.mp hout
    exact ⟨rfl, fun u _ v _ hu => by cases hu⟩

/-- Two accounts of equal stakes, at the distances sixteen and thirty-two from the hash. -/
def twoStakers : List Staked := [⟨0x10, 1⟩, ⟨0x20, 1⟩]

/-- Of the two stakers one is asked for, so it need not be the closer one. -/
theorem selects_closest_iff_two :
    (∀ out, SelectedBy twoStakers (stakedAddrs twoStakers) 1 0 out → Closest twoStakers 1 0 out) ↔
      1 = 0 :=
  selects_closest_iff (by unfold Once; decide) (by decide) (show (0 : ℤ) < 1 by decide) (by decide)
    (by decide +kernel)

/-- The one account selected of the two is the one at distance thirty-two. -/
theorem farthest_selected :
    SelectedBy twoStakers (stakedAddrs twoStakers) 1 0 [0x20] ∧
      ¬Closest twoStakers 1 0 [0x20] ∧
      ∀ out, SelectedBy twoStakers (stakedAddrs twoStakers) 1 0 out → out = [0x20] := by
  have hclear : Clear (entryWeight twoStakers 0) twoStakers 1 := by decide +kernel
  have hselected : SelectedBy twoStakers (stakedAddrs twoStakers) 1 0 [0x20] := by
    refine selectedBy_iff.mpr ⟨fun _ => by decide +kernel, [⟨0x20, 1⟩, ⟨0x10, 1⟩], ⟨?_, ?_⟩, rfl⟩
    · exact List.Perm.swap _ _ _
    · decide +kernel
  refine ⟨hselected, ?_, ?_⟩
  · intro hclosest
    have hdistance := hclosest.2 ⟨0x20, 1⟩ (by decide) ⟨0x10, 1⟩ (by decide) (by decide) (by decide)
    exact absurd hdistance (by decide +kernel)
  · intro out hout
    have hmem := fun a => (hout.mem_iff hclear a).trans (hselected.mem_iff hclear a).symm
    obtain ⟨a, rfl⟩ := List.length_eq_one_iff.mp hout.length_eq
    have ha := (hmem a).mp List.mem_cons_self
    rw [List.mem_singleton.mp ha]

end Wormholes
