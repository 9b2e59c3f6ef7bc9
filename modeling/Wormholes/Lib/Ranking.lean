import Mathlib.Data.List.Sort
import Mathlib.Data.List.Nodup
import Mathlib.Tactic.Linarith

/-!
# Lib.Ranking — the first entries of a list sorted by weight, and when ties leave them open

A ranking of a list is any arrangement of it by descending weight: what an unstable sort may
return. Two rankings can differ among entries of equal weight only, so the set of the first `k`
entries is the same in all of them unless entries of one weight stand on both sides of the cut.
`Clear` says that no weight does, by counting: the entries above it and the entries not below it.

Nothing here names a program.
-/

namespace Wormholes.Lib

variable {α β : Type*} [LinearOrder β] (w : α → β)
variable {before after : List α} {a : α} {k : ℕ}

/-- An arrangement of `l` by descending weight. -/
def Ranked (l r : List α) : Prop := r.Perm l ∧ r.Pairwise fun a b => w b ≤ w a

/-- The number of entries of larger weight than `x`. -/
def above (l : List α) (x : β) : ℕ := l.countP fun a => x < w a

/-- The number of entries of weight at least `x`. -/
def atLeast (l : List α) (x : β) : ℕ := l.countP fun a => x ≤ w a

/-- No weight has entries both among the first `k` of a ranking and behind them. -/
def Clear (l : List α) (k : ℕ) : Prop := ∀ a ∈ l, k ≤ above w l (w a) ∨ atLeast w l (w a) ≤ k

instance (l : List α) (k : ℕ) : Decidable (Clear w l k) :=
  inferInstanceAs (Decidable (∀ a ∈ l, k ≤ above w l (w a) ∨ atLeast w l (w a) ≤ k))

variable {w} {l r : List α}

theorem above_perm (h : r.Perm l) (x : β) : above w r x = above w l x := h.countP_eq _

theorem atLeast_perm (h : r.Perm l) (x : β) : atLeast w r x = atLeast w l x := h.countP_eq _

/-- The entries not below a weight are among those above any smaller one. -/
theorem atLeast_le_above {x y : β} (h : x < y) (l : List α) : atLeast w l y ≤ above w l x := by
  refine List.countP_mono_left fun a _ ha => ?_
  simp only [decide_eq_true_eq] at ha ⊢
  exact h.trans_le ha

/-- The place of an entry in a ranking lies among the places of its weight. -/
theorem Ranked.place (h : Ranked w l r) (hr : r = before ++ a :: after) :
    above w l (w a) ≤ before.length ∧ before.length < atLeast w l (w a) := by
  obtain ⟨hperm, hsorted⟩ := h
  subst hr
  obtain ⟨-, htail, hcross⟩ := List.pairwise_append.mp hsorted
  rw [← above_perm hperm, ← atLeast_perm hperm]
  have hnone : (a :: after).countP (fun b => w a < w b) = 0 := by
    refine List.countP_eq_zero.mpr fun b hb => ?_
    rcases List.mem_cons.mp hb with rfl | hb
    · simp
    · simpa using List.rel_of_pairwise_cons htail hb
  have hall : before.countP (fun b => w a ≤ w b) = before.length := by
    refine List.countP_eq_length.mpr fun b hb => ?_
    simpa using hcross b hb a List.mem_cons_self
  constructor
  · rw [above, List.countP_append, hnone]
    exact List.countP_le_length
  · rw [atLeast, List.countP_append, hall, List.countP_cons]
    simp

theorem exists_place_of_mem_take (h : a ∈ r.take k) :
    ∃ before after, r = before ++ a :: after ∧ before.length < k := by
  obtain ⟨before, rest, htake⟩ := List.append_of_mem h
  refine ⟨before, rest ++ r.drop k, ?_, ?_⟩
  · calc
      r = r.take k ++ r.drop k := (List.take_append_drop k r).symm
      _ = before ++ a :: (rest ++ r.drop k) := by rw [htake]; simp
  · have hlen := congrArg List.length htake
    simp only [List.length_take, List.length_append, List.length_cons] at hlen
    omega

theorem mem_take_of_place (h : before.length < k) : a ∈ (before ++ a :: after).take k := by
  obtain ⟨n, hn⟩ : ∃ n, k - before.length = n + 1 := ⟨k - before.length - 1, by omega⟩
  simp [List.take_append, hn]

/-- With a clear cut, the first `k` entries of every ranking are the same. -/
theorem Ranked.mem_take_iff (h : Ranked w l r) (hc : Clear w l k) (a : α) :
    a ∈ r.take k ↔ a ∈ l ∧ atLeast w l (w a) ≤ k := by
  constructor
  · intro ha
    have hmem : a ∈ l := h.1.mem_iff.mp (List.mem_of_mem_take ha)
    obtain ⟨before, after, hr, hlen⟩ := exists_place_of_mem_take ha
    obtain ⟨habove, -⟩ := h.place hr
    rcases hc a hmem with hle | hle
    · omega
    · exact ⟨hmem, hle⟩
  · rintro ⟨ha, hle⟩
    obtain ⟨before, after, hr⟩ := List.append_of_mem (h.1.mem_iff.mpr ha)
    obtain ⟨-, hlen⟩ := h.place hr
    rw [hr]
    exact mem_take_of_place (by omega)

theorem exists_ranked (w : α → β) (l : List α) : ∃ r, Ranked w l r := by
  refine ⟨l.insertionSort fun a b => w b ≤ w a, List.perm_insertionSort _ l, ?_⟩
  have : Std.Total fun a b : α => w b ≤ w a := ⟨fun a b => le_total (w b) (w a)⟩
  have : IsTrans α fun a b => w b ≤ w a := ⟨fun _ _ _ hab hbc => hbc.trans hab⟩
  exact List.pairwise_insertionSort _ l

/-- An entry whose place lies among the places of a weight has that weight. -/
theorem Ranked.weight_eq (h : Ranked w l r) (hr : r = before ++ a :: after) {x : β}
    (habove : above w l x ≤ before.length) (hatLeast : before.length < atLeast w l x) :
    w a = x := by
  obtain ⟨hlow, hhigh⟩ := h.place hr
  rcases lt_trichotomy (w a) x with hlt | heq | hgt
  · have := atLeast_le_above (w := w) hlt l
    omega
  · exact heq
  · have := atLeast_le_above (w := w) hgt l
    omega

/-- Neighbours of equal weight may change places. -/
theorem Ranked.swap {b : α} (h : Ranked w l (before ++ a :: b :: after)) (hab : w a = w b) :
    Ranked w l (before ++ b :: a :: after) := by
  obtain ⟨hperm, hsorted⟩ := h
  refine ⟨((List.Perm.swap a b after).append_left before).trans hperm, ?_⟩
  have hmap : ∀ c d : α, (before ++ c :: d :: after).Pairwise (fun a b => w b ≤ w a) ↔
      ((before.map w) ++ w c :: w d :: after.map w).Pairwise (fun x y => y ≤ x) := by
    intro c d
    have := List.pairwise_map (f := w) (R := fun x y : β => y ≤ x) (l := before ++ c :: d :: after)
    simpa using this.symm
  rw [hmap, hab] at hsorted
  rwa [hmap, hab]

/-- Without a clear cut, two rankings have different first `k` entries. -/
theorem exists_ranked_differ (hl : l.Nodup) (hc : ¬Clear w l k) :
    ∃ r₁ r₂ a, Ranked w l r₁ ∧ Ranked w l r₂ ∧ a ∈ r₁.take k ∧ a ∉ r₂.take k := by
  simp only [Clear, not_forall, not_or, Nat.not_le] at hc
  obtain ⟨c, hcmem, habove, hatLeast⟩ := hc
  obtain ⟨r, hr⟩ := exists_ranked w l
  have hlen : atLeast w l (w c) ≤ r.length := by
    rw [hr.1.length_eq]
    exact List.countP_le_length
  -- the entries on the two sides of the cut
  obtain ⟨before, a, b, after, hsplit, hbefore⟩ :
      ∃ before a b after, r = before ++ a :: b :: after ∧ before.length + 1 = k := by
    have h₁ : k - 1 < r.length := by omega
    have h₂ : k < r.length := by omega
    refine ⟨r.take (k - 1), r.get ⟨k - 1, h₁⟩, r.get ⟨k, h₂⟩, r.drop (k + 1), ?_, ?_⟩
    · have hk : k - 1 + 1 = k := by omega
      have hdrop : r.drop (k - 1) = r.get ⟨k - 1, h₁⟩ :: r.get ⟨k, h₂⟩ :: r.drop (k + 1) := by
        rw [List.drop_eq_getElem_cons h₁, hk, List.drop_eq_getElem_cons h₂]
        rfl
      rw [← hdrop, List.take_append_drop]
    · simp only [List.length_take]
      omega
  have ha : w a = w c := hr.weight_eq hsplit (by omega) (by omega)
  have hb : w b = w c := by
    have hsplit' : r = (before ++ [a]) ++ b :: after := by simpa using hsplit
    refine hr.weight_eq hsplit' ?_ ?_
    · simp only [List.length_append, List.length_singleton]
      omega
    · simp only [List.length_append, List.length_singleton]
      omega
  rw [hsplit] at hr
  have hswap : Ranked w l (before ++ b :: a :: after) := hr.swap (ha.trans hb.symm)
  refine ⟨_, _, a, hr, hswap, mem_take_of_place (by omega), fun hmem => ?_⟩
  have hnodup : (before ++ b :: a :: after).Nodup := hswap.1.nodup_iff.mpr hl
  have htake : (before ++ b :: a :: after).take k = before ++ [b] := by
    rw [← hbefore, List.take_append, List.take_of_length_le (Nat.le_succ _)]
    simp
  rw [htake] at hmem
  have hapart : (before ++ [b] ++ a :: after).Nodup := by simpa using hnodup
  exact (List.disjoint_of_nodup_append hapart) hmem List.mem_cons_self

end Wormholes.Lib
