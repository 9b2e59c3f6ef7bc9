import Wormholes.Consensus.IbftNode
import Mathlib.Data.List.Nodup
import Mathlib.Data.Nat.ModEq

/-!
# Laws.Consensus.Proposer — consecutive rounds visit every validator once

The selectors of `validator/default.go` take the validator at a place that grows with the round, modulo
the size of the set. So as many rounds as there are validators give each of them one turn.
-/

namespace Wormholes.Consensus.Ibft.Node.ValidatorSet

variable {valSet : List Address} {a p : Address} {r : ℕ}

theorem getByAddress_eq : getByAddress valSet a = if a ∈ valSet then some a else none := by
  unfold getByAddress
  split
  next h =>
    obtain ⟨b, hb⟩ := Option.isSome_iff_exists.mp
      (List.find?_isSome (p := (· = a)).mpr ⟨a, h, decide_eq_true rfl⟩)
    have hba : b = a := by simpa using List.find?_some hb
    rw [hb, hba]
  next h =>
    refine List.find?_eq_none.mpr fun b hb hba => ?_
    exact h (of_decide_eq_true hba ▸ hb)

theorem isProposer_iff (hp : p ∈ valSet) : isProposer valSet (some p) a = true ↔ a = p := by
  rw [isProposer, decide_eq_true_eq, getByAddress_eq]
  split
  next => rw [Option.some.injEq, eq_comm]
  next h => exact ⟨fun h' => (by cases h'), fun h' => absurd (h' ▸ hp) h⟩

/-- The place a last proposer has in the set, or the first one. -/
abbrev offset (valSet : List Address) (a : Address) : ℕ := (valSet.findIdx? (· = a)).getD 0

theorem offset_lt (hne : valSet ≠ []) : offset valSet a < valSet.length := by
  unfold offset
  cases hi : valSet.findIdx? (· = a) with
  | none => exact List.length_pos_iff.mpr hne
  | some i => exact (List.findIdx?_eq_some_iff_getElem.mp hi).1

/-- Consecutive rounds pick consecutive places. -/
theorem exists_start (policy : ProposerPolicyId) (a : Address) (hne : valSet ≠ [])
    (hr : r + 2 * valSet.length + 1 < 2 ^ 64) :
    ∃ k, ∀ i < valSet.length,
      calcProposer valSet policy a (r + i) = valSet[(k + i) % valSet.length]? := by
  have hoffset : offset valSet a < valSet.length := offset_lt hne
  have hround : ∀ i < valSet.length, (r + i) % 2 ^ 64 = r + i := fun i hi =>
    Nat.mod_eq_of_lt (by omega)
  by_cases h0 : a = 0
  · refine ⟨r, fun i hi => ?_⟩
    cases policy <;>
      simp only [calcProposer, roundRobinProposer, stickyProposer, h0, if_true, hround i hi]
  have hseed : ∀ i < valSet.length, calcSeed valSet a (r + i) = offset valSet a + r + i := by
    intro i hi
    show (offset valSet a + (r + i)) % 2 ^ 64 = _
    rw [Nat.mod_eq_of_lt (by omega), Nat.add_assoc]
  cases policy with
  | roundRobin =>
    refine ⟨offset valSet a + r + 1, fun i hi => ?_⟩
    have hnext : (offset valSet a + r + i + 1) % 2 ^ 64 = offset valSet a + r + 1 + i := by
      rw [Nat.mod_eq_of_lt (by omega), Nat.add_right_comm]
    simp only [calcProposer, roundRobinProposer, h0, if_false, hround i hi, hseed i hi, hnext]
  | sticky =>
    refine ⟨offset valSet a + r, fun i hi => ?_⟩
    simp only [calcProposer, stickyProposer, h0, if_false, hround i hi, hseed i hi]

theorem perm_of_places (hnodup : valSet.Nodup) (hne : valSet ≠ []) (k : ℕ) :
    ((List.range valSet.length).map fun i => valSet[(k + i) % valSet.length]?).Perm
      (valSet.map some) := by
  have hlt : ∀ i, (k + i) % valSet.length < valSet.length := fun i =>
    Nat.mod_lt _ (List.length_pos_iff.mpr hne)
  refine (List.subperm_of_subset (List.nodup_range.map_on fun i hi j hj hij => ?_)
    fun o ho => ?_).perm_of_length_le (by simp)
  · have hplace : k + i ≡ k + j [MOD valSet.length] := (List.getElem?_inj (hlt i) hnodup).mp hij
    exact hplace.add_left_cancel'.eq_of_lt_of_lt (List.mem_range.mp hi) (List.mem_range.mp hj)
  · obtain ⟨i, -, rfl⟩ := List.mem_map.mp ho
    rw [List.getElem?_eq_getElem (hlt i)]
    exact List.mem_map_of_mem (List.getElem_mem (hlt i))

/-- Under round robin the validator after the last proposer comes first. -/
theorem roundRobin_ne_last (hnodup : valSet.Nodup) (ha : a ∈ valSet) (h0 : a ≠ 0)
    (htwo : 2 ≤ valSet.length) (hlen : valSet.length < 2 ^ 64) :
    calcProposer valSet .roundRobin a 0 ≠ some a := by
  have hoffset : offset valSet a < valSet.length := offset_lt (List.ne_nil_of_mem ha)
  have hplace : valSet[offset valSet a]? = some a := by
    unfold offset
    cases hi : valSet.findIdx? (· = a) with
    | none => exact absurd rfl (of_decide_eq_false (List.findIdx?_eq_none_iff.mp hi a ha))
    | some i =>
      obtain ⟨hlt, heq, -⟩ := List.findIdx?_eq_some_iff_getElem.mp hi
      rw [Option.getD_some, List.getElem?_eq_getElem hlt, of_decide_eq_true heq]
  have hnext : ((offset valSet a + 0 % 2 ^ 64) % 2 ^ 64 + 1) % 2 ^ 64 = offset valSet a + 1 := by omega
  intro heq
  simp only [calcProposer, roundRobinProposer, calcSeed, h0, if_false, hnext] at heq
  have hsame := (List.getElem?_inj hoffset hnodup).mp (hplace.trans heq.symm)
  rcases Nat.lt_or_ge (offset valSet a + 1) valSet.length with hlt | hge
  · rw [Nat.mod_eq_of_lt hlt] at hsame
    omega
  · rw [show offset valSet a + 1 = valSet.length by omega, Nat.mod_self] at hsame
    omega

/-- The proposers of as many consecutive rounds as there are validators are the validators, each once;
in each of these rounds exactly one address is the proposer; and under round robin a set of two or more
does not start with the last proposer. -/
theorem proposers_take_turns (policy : ProposerPolicyId) (last : Address) (hnodup : valSet.Nodup)
    (hne : valSet ≠ []) (hr : r + 2 * valSet.length + 1 < 2 ^ 64) :
    ((List.range valSet.length).map fun i => calcProposer valSet policy last (r + i)).Perm
        (valSet.map some) ∧
      (∀ i < valSet.length,
        ∃! a, isProposer valSet (calcProposer valSet policy last (r + i)) a = true) ∧
      (policy = .roundRobin → last ≠ 0 → last ∈ valSet → 2 ≤ valSet.length →
        calcProposer valSet policy last 0 ≠ some last) := by
  obtain ⟨k, hk⟩ := exists_start policy last hne hr
  have hperm := perm_of_places hnodup hne k
  rw [← List.map_congr_left fun i hi => hk i (List.mem_range.mp hi)] at hperm
  refine ⟨hperm, fun i hi => ?_, ?_⟩
  · obtain ⟨p, hp, heq⟩ := List.mem_map.mp
      (hperm.mem_iff.mp (List.mem_map_of_mem (List.mem_range.mpr hi)))
    rw [← heq]
    exact ⟨p, (isProposer_iff hp).mpr rfl, fun a ha => (isProposer_iff hp).mp ha⟩
  · rintro rfl h0 hlast htwo
    exact roundRobin_ne_last hnodup hlast h0 htwo (by omega)

/-- Three validators, the second of which proposed last. -/
theorem proposers_take_turns_three :
    ((List.range 3).map fun i => calcProposer [1, 2, 3] .roundRobin 2 (7 + i)).Perm
        [some 1, some 2, some 3] ∧ calcProposer [1, 2, 3] .roundRobin 2 0 ≠ some 2 :=
  have hr : 7 + 2 * ([1, 2, 3] : List Address).length + 1 < 2 ^ 64 := by decide
  have h := proposers_take_turns .roundRobin 2 (by decide) (by decide) hr
  ⟨h.1, h.2.2 rfl (by decide) (by decide) (by decide)⟩

end Wormholes.Consensus.Ibft.Node.ValidatorSet
