import Mathlib.Data.Finset.Card
import Mathlib.Logic.Function.Basic

/-!
# Lib.Quorum — one vote per slot, and what a quorum of votes decides

A `Book` holds the value each voter voted for in each slot, at most one. A value is decided in a
slot when a quorum of the members did not vote otherwise, the faulty among them aside. Two quorums
that together outnumber the members and the faulty share a member that is not faulty, so a slot
decides one value; and a decision survives every extension of the book. Nothing here names a
program.
-/

namespace Wormholes.Lib

variable {V S D : Type}

/-- Two sets of members that together outnumber the members and the faulty share a member that is
not faulty. -/
theorem exists_mem_inter_notMem [DecidableEq V] {members faulty A B : Finset V}
    (hA : A ⊆ members) (hB : B ⊆ members)
    (hcard : members.card + faulty.card < A.card + B.card) :
    ∃ v, v ∈ A ∧ v ∈ B ∧ v ∉ faulty := by
  have hunion : (A ∪ B).card ≤ members.card := Finset.card_le_card (Finset.union_subset hA hB)
  have hsum := Finset.card_union_add_card_inter A B
  have hlt : faulty.card < (A ∩ B).card := by omega
  obtain ⟨v, hv, hfaulty⟩ := Finset.exists_mem_notMem_of_card_lt_card hlt
  exact ⟨v, (Finset.mem_inter.mp hv).1, (Finset.mem_inter.mp hv).2, hfaulty⟩

/-- The value one voter voted for in each slot. -/
abbrev Votes (S D : Type) := S → Option D

namespace Votes

/-- Votes are added and never changed. -/
def Extends (M M' : Votes S D) : Prop := ∀ ⦃s d⦄, M s = some d → M' s = some d

theorem Extends.refl (M : Votes S D) : M.Extends M := fun _ _ h => h

variable [DecidableEq S]

/-- The votes with one written in. -/
def cast (M : Votes S D) (s : S) (d : D) : Votes S D := Function.update M s (some d)

@[simp] theorem cast_same (M : Votes S D) (s : S) (d : D) : M.cast s d s = some d := by
  simp [cast]

theorem cast_of_ne (M : Votes S D) {s t : S} (d : D) (h : t ≠ s) : M.cast s d t = M t := by
  simp [cast, h]

/-- Writing a vote where there is none, or the same vote again, changes no vote. -/
theorem extends_cast {M : Votes S D} {s : S} {d : D} (h : M s = none ∨ M s = some d) :
    M.Extends (M.cast s d) := by
  intro t e he
  by_cases ht : t = s
  · subst ht
    rcases h with h | h
    · cases he.symm.trans h
    · rw [cast_same, ← h, he]
  · rw [cast_of_ne M d ht, he]

end Votes

/-- The votes of each voter. -/
abbrev Book (V S D : Type) := V → Votes S D

namespace Book

def Extends (L L' : Book V S D) : Prop := ∀ v, (L v).Extends (L' v)

theorem extends_update [DecidableEq V] {L : Book V S D} {v : V} {M : Votes S D}
    (h : (L v).Extends M) : L.Extends (Function.update L v M) := by
  intro w
  by_cases hw : w = v
  · subst hw
    rw [Function.update_self]
    exact h
  · rw [Function.update_of_ne hw]
    exact Votes.Extends.refl _

end Book

/-- A quorum of the members voted for the value in the slot, the faulty among them aside. -/
def Decided (members faulty : Finset V) (quorum : ℕ) (L : Book V S D) (s : S) (d : D) : Prop :=
  ∃ Q ⊆ members, quorum ≤ Q.card ∧ ∀ v ∈ Q, v ∉ faulty → L v s = some d

variable {members faulty : Finset V} {quorum : ℕ} {L L' : Book V S D} {s : S} {d d' : D}

theorem Decided.mono (h : Decided members faulty quorum L s d) (hext : L.Extends L') :
    Decided members faulty quorum L' s d := by
  obtain ⟨Q, hsub, hcard, hvotes⟩ := h
  exact ⟨Q, hsub, hcard, fun v hv hgood => hext v (hvotes v hv hgood)⟩

/-- A slot decides one value. -/
theorem Decided.unique [DecidableEq V] (hquorum : members.card + faulty.card < 2 * quorum)
    (h : Decided members faulty quorum L s d) (h' : Decided members faulty quorum L s d') :
    d = d' := by
  obtain ⟨Q, hsub, hcard, hvotes⟩ := h
  obtain ⟨Q', hsub', hcard', hvotes'⟩ := h'
  have hcards : members.card + faulty.card < Q.card + Q'.card := by omega
  obtain ⟨v, hv, hv', hgood⟩ := exists_mem_inter_notMem hsub hsub' hcards
  have hsame : some d = some d' := (hvotes v hv hgood).symm.trans (hvotes' v hv' hgood)
  exact Option.some.inj hsame

end Wormholes.Lib
