import Wormholes.Lib.Outcome
import Wormholes.Vm.Instructions

/-!
# Laws.Vm.Memory — which memory accesses succeed

For each access of the byte memory: when it succeeds, what it does to the length, and that it stops
with one of the three memory panics otherwise.
-/

namespace Wormholes.Vm

open Lib

variable {value : List ℕ} {off size : ℕ}

/-! ## Accesses -/

/-- A panic of the memory code. -/
def Fault.ofMemory (p : Fault) : Prop := p = .sliceBounds ∨ p = .storeEmpty ∨ p = .makeSlice

/-- The computation stops for memory panics only. -/
abbrev Accesses {α : Type} (x : Except Stop α) (Q : α → Prop) : Prop :=
  Ensures (fun e => ∃ p : Fault, p.ofMemory ∧ e = .panic p) x Q

variable {m m' : Memory}

theorem length_blit {store : List ℕ} (h : off + value.length ≤ store.length) :
    (Memory.blit store off value).length = store.length := by
  simp only [Memory.blit, List.length_append, List.length_take, List.length_drop]
  omega

/-- A write succeeds exactly when its range, which may wrap, lies within the memory. -/
theorem write_eq_ok (hoff : off < 2 ^ 64) (hsize : size < 2 ^ 64) (hlen : m.len < 2 ^ 64) :
    m.write off size value = .ok m' ↔ off + size ≤ m.len ∧
      m' = { m with store := Memory.blit m.store off (value.take size) } := by
  unfold Memory.write
  split
  next hbig =>
    refine ⟨fun h => (by cases h), fun h => absurd h.1 ?_⟩
    omega
  next hfits =>
    split
    next hwrap =>
      refine ⟨fun h => (by cases h), fun h => absurd h.1 ?_⟩
      omega
    next hin =>
      refine ⟨fun h => ⟨by omega, ?_⟩, fun h => ?_⟩
      · cases h
        rfl
      · rw [h.2]

theorem len_write (hoff : off < 2 ^ 64) (hsize : size < 2 ^ 64) (hlen : m.len < 2 ^ 64)
    (h : m.write off size value = .ok m') : off + size ≤ m.len ∧ m'.len = m.len := by
  obtain ⟨hin, rfl⟩ := (write_eq_ok hoff hsize hlen).mp h
  refine ⟨hin, length_blit ?_⟩
  have := List.length_take_le size value
  unfold Memory.len at hin
  omega

theorem accesses_write (m : Memory) (off size : ℕ) (value : List ℕ) :
    Accesses (m.write off size value) fun m' => m'.lastGasCost = m.lastGasCost := by
  unfold Memory.write
  split
  · exact ⟨.storeEmpty, .inr (.inl rfl), rfl⟩
  · split
    · exact ⟨.sliceBounds, .inl rfl, rfl⟩
    · rfl

theorem len_set (hoff : off < 2 ^ 64) (hsize : size < 2 ^ 64) (hlen : m.len < 2 ^ 64)
    (h : m.set off size value = .ok m') : (size = 0 ∨ off + size ≤ m.len) ∧ m'.len = m.len := by
  unfold Memory.set at h
  split at h
  next hzero =>
    cases h
    exact ⟨.inl hzero, rfl⟩
  next =>
    obtain ⟨hin, hsame⟩ := len_write hoff hsize hlen h
    exact ⟨.inr hin, hsame⟩

theorem accesses_set (m : Memory) (off size : ℕ) (value : List ℕ) :
    Accesses (m.set off size value) fun m' => m'.lastGasCost = m.lastGasCost := by
  unfold Memory.set
  split
  · rfl
  · exact accesses_write m off size value

theorem len_resize (h : m.resize size = .ok m') : m'.len = max m.len size := by
  unfold Memory.resize at h
  split at h
  next hlt =>
    split at h
    next => cases h
    next =>
      cases h
      simp only [Memory.len, List.length_append, List.length_replicate]
      unfold Memory.len at hlt
      omega
  next hle =>
    cases h
    exact (Nat.max_eq_left (Nat.le_of_not_lt hle)).symm

theorem resize_of_le (h : size ≤ m.len) : m.resize size = .ok m := by
  unfold Memory.resize
  rw [if_neg (Nat.not_lt.mpr h)]

theorem accesses_resize (m : Memory) (size : ℕ) :
    Accesses (m.resize size) fun m' => m'.lastGasCost = m.lastGasCost := by
  unfold Memory.resize
  split
  · split
    · exact ⟨.makeSlice, .inr (.inr rfl), rfl⟩
    · rfl
  · rfl

theorem slice_eq_ok {off size : ℤ} {bs : List ℕ} :
    m.slice off size = .ok bs ↔ (0 ≤ off ∧ 0 ≤ size ∧ off + size ≤ m.len) ∧
      bs = (m.store.drop off.toNat).take size.toNat := by
  unfold Memory.slice
  split
  next hin =>
    refine ⟨fun h => ⟨hin, ?_⟩, fun h => ?_⟩
    · cases h
      rfl
    · rw [h.2]
  next hout => exact ⟨fun h => (by cases h), fun h => absurd h.1 hout⟩

theorem accesses_slice (m : Memory) (off size : ℤ) : Accesses (m.slice off size) fun _ => True := by
  unfold Memory.slice
  split
  · trivial
  · exact ⟨.sliceBounds, .inl rfl, rfl⟩

theorem accesses_getPtr (m : Memory) (off size : ℤ) : Accesses (m.getPtr off size) fun _ => True := by
  unfold Memory.getPtr
  split
  · trivial
  · split
    · exact accesses_slice m off size
    · trivial

theorem accesses_getCopy (m : Memory) (off size : ℤ) :
    Accesses (m.getCopy off size) fun _ => True := by
  unfold Memory.getCopy
  split
  · trivial
  · split
    · split
      · exact ⟨.makeSlice, .inr (.inr rfl), rfl⟩
      · exact accesses_slice m off size
    · trivial

theorem accesses_readText (m : Memory) (off : ℤ) : Accesses (readText m off) fun _ => True := by
  unfold readText
  exact Ensures.bind (accesses_getPtr m off 32) fun bs _ => accesses_getCopy m _ _

theorem accesses_storeText (m : Memory) (data : List ℕ) :
    Accesses (storeText m data) fun r => r.1.lastGasCost = m.lastGasCost := by
  unfold storeText
  refine (accesses_getPtr m _ _).bind fun bs _ => ?_
  refine (accesses_resize m _).bind fun m₁ h₁ => ?_
  refine (accesses_write m₁ _ _ _).bind fun m₂ h₂ => ?_
  refine (accesses_set m₂ _ _ _).bind fun m₃ h₃ => ?_
  refine (accesses_write m₃ _ _ _).bind fun m₄ h₄ => ?_
  exact h₄.trans (h₃.trans (h₂.trans h₁))

end Wormholes.Vm
