import Mathlib.Data.Nat.Basic
import Mathlib.Tactic.Ring
import Mathlib.Tactic.Linarith

/-!
# Lib.Blocks — aligned blocks over the naturals, and forests of owned blocks

A level-`l` block in base `b` is the interval of `b ^ l` consecutive positions that starts at a
multiple of `b ^ l`. Two blocks are nested or disjoint, so a block is found from any of its
positions and its level alone: `blockStart b l x`. A forest records, for some block starts, a
level and an owner. It is well formed when every recorded start is a multiple of its block's
size and no position lies in two recorded blocks.

Joining `b` siblings and cutting a block into `b` children keep a forest well formed. Nothing here
names a program.
-/

namespace Wormholes.Lib

variable {l A x k P n : ℕ}

/-! ## Block starts -/

/-- The start of the level-`l` block in base `b` that holds position `x`. -/
def blockStart (b l x : ℕ) : ℕ := x / b ^ l * b ^ l

@[simp] theorem blockStart_zero (b x : ℕ) : blockStart b 0 x = x := by
  simp [blockStart]

theorem blockStart_le (b l x : ℕ) : blockStart b l x ≤ x :=
  Nat.div_mul_le_self x (b ^ l)

theorem dvd_blockStart (b l x : ℕ) : b ^ l ∣ blockStart b l x :=
  Nat.dvd_mul_left _ _

theorem lt_blockStart_add {b : ℕ} (hb : 0 < b) (l x : ℕ) : x < blockStart b l x + b ^ l := by
  have hpow : 0 < b ^ l := Nat.pow_pos hb
  have hsplit := Nat.div_add_mod x (b ^ l)
  have hmod := Nat.mod_lt x hpow
  unfold blockStart
  rw [Nat.mul_comm]
  omega

/-- A position inside an aligned block has that block's start. -/
theorem blockStart_eq_of_mem {b : ℕ} (hdvd : b ^ l ∣ A) (hle : A ≤ x) (hlt : x < A + b ^ l) :
    blockStart b l x = A := by
  obtain ⟨k, rfl⟩ := hdvd
  have hk : x / b ^ l = k := by
    apply Nat.div_eq_of_lt_le
    · rw [Nat.mul_comm]; exact hle
    · rw [Nat.succ_mul, Nat.mul_comm k]; exact hlt
  unfold blockStart
  rw [hk, Nat.mul_comm]

theorem blockStart_self {b : ℕ} (hb : 0 < b) (hdvd : b ^ l ∣ A) : blockStart b l A = A :=
  blockStart_eq_of_mem hdvd le_rfl (by have := Nat.pow_pos (n := l) hb; omega)

/-- A block of an aligned range does not reach beyond it. -/
theorem blockStart_add_le {b w : ℕ} (hl : l ≤ w) (hx : x < b ^ w) :
    blockStart b l x + b ^ l ≤ b ^ w := by
  have hpow : b ^ w = b ^ (w - l) * b ^ l := by rw [← Nat.pow_add, Nat.sub_add_cancel hl]
  have hdiv : x / b ^ l < b ^ (w - l) := by
    apply Nat.div_lt_of_lt_mul
    rwa [Nat.mul_comm, ← hpow]
  calc blockStart b l x + b ^ l = (x / b ^ l + 1) * b ^ l := by rw [blockStart, Nat.succ_mul]
    _ ≤ b ^ (w - l) * b ^ l := Nat.mul_le_mul_right _ hdiv
    _ = b ^ w := hpow.symm

/-- The block of a coarser level is found from the start of a finer one. -/
theorem blockStart_blockStart {b : ℕ} (hb : 0 < b) (hkl : k ≤ l) (x : ℕ) :
    blockStart b l (blockStart b k x) = blockStart b l x := by
  have hpow : 0 < b ^ k := Nat.pow_pos hb
  obtain ⟨d, rfl⟩ := Nat.exists_eq_add_of_le hkl
  unfold blockStart
  rw [Nat.pow_add, ← Nat.div_div_eq_div_mul, ← Nat.div_div_eq_div_mul,
    Nat.mul_div_cancel _ hpow]

/-- A block start is its parent's start plus the digit at that level. -/
theorem blockStart_eq_parent_add {b : ℕ} (l x : ℕ) :
    blockStart b l x = blockStart b (l + 1) x + x / b ^ l % b * b ^ l := by
  unfold blockStart
  rw [Nat.pow_succ, ← Nat.div_div_eq_div_mul]
  have hsplit := Nat.div_add_mod (x / b ^ l) b
  calc x / b ^ l * b ^ l
      = (b * (x / b ^ l / b) + x / b ^ l % b) * b ^ l := by rw [hsplit]
    _ = x / b ^ l / b * (b ^ l * b) + x / b ^ l % b * b ^ l := by ring

/-- The `i`-th child of an aligned block. -/
theorem dvd_child {b : ℕ} (hP : b ^ (l + 1) ∣ P) (i : ℕ) : b ^ l ∣ P + i * b ^ l :=
  Nat.dvd_add (Nat.dvd_trans (Nat.pow_dvd_pow b (Nat.le_succ l)) hP) (Nat.dvd_mul_left _ _)

theorem blockStart_child {b i : ℕ} (hb : 0 < b) (hP : b ^ (l + 1) ∣ P) (hi : i < b) :
    blockStart b (l + 1) (P + i * b ^ l) = P := by
  have hpow : 0 < b ^ l := Nat.pow_pos hb
  apply blockStart_eq_of_mem hP (Nat.le_add_right _ _)
  have hlt : i * b ^ l < b * b ^ l := Nat.mul_lt_mul_of_pos_right hi hpow
  rw [Nat.pow_succ, Nat.mul_comm (b ^ l)]
  omega

/-- A position's child start inside the parent block. -/
theorem blockStart_mem_children {b : ℕ} (hb : 0 < b) (h : blockStart b (l + 1) x = P) :
    ∃ i < b, blockStart b l x = P + i * b ^ l :=
  ⟨x / b ^ l % b, Nat.mod_lt _ hb, by rw [← h]; exact blockStart_eq_parent_add l x⟩

/-! ## Forests -/

/-- Block starts with the level and the owner recorded there. -/
abbrev Forest (O : Type) := ℕ → Option (ℕ × O)

namespace Forest

variable {O : Type} {b : ℕ}

/-- The forest records a level-`l` block of owner `o` that holds position `x`. -/
def Covers (b : ℕ) (f : Forest O) (x l : ℕ) (o : O) : Prop := f (blockStart b l x) = some (l, o)

/-- Position `x` lies in a recorded block of owner `o`. -/
def Owns (b : ℕ) (f : Forest O) (x : ℕ) (o : O) : Prop := ∃ l, Covers b f x l o

/-- Recorded starts are aligned, and no position is recorded twice. -/
structure WellFormed (b : ℕ) (f : Forest O) : Prop where
  aligned : ∀ {A l o}, f A = some (l, o) → b ^ l ∣ A
  once : ∀ {x l k o o'}, Covers b f x l o → Covers b f x k o' → l = k

variable {f : Forest O}
variable {o o' : O} {i j : ℕ}

theorem WellFormed.covers_start (hb : 0 < b) (hf : WellFormed b f) (h : f A = some (l, o)) :
    Covers b f A l o := by
  unfold Covers
  rw [blockStart_self hb (hf.aligned h)]
  exact h

theorem WellFormed.owner_unique (hf : WellFormed b f) (h : Owns b f x o) (h' : Owns b f x o') :
    o = o' := by
  obtain ⟨l, hl⟩ := h
  obtain ⟨k, hk⟩ := h'
  obtain rfl := hf.once hl hk
  unfold Covers at hl hk
  rw [hl] at hk
  exact congrArg Prod.snd (Option.some.inj hk)

/-- A recorded start lies in no other recorded block. -/
theorem WellFormed.entry_eq (hb : 0 < b) (hf : WellFormed b f) (h : f A = some (l, o))
    (hcov : Covers b f A k o') : k = l ∧ o' = o := by
  have hself := hf.covers_start hb h
  exact ⟨hf.once hcov hself, hf.owner_unique ⟨k, hcov⟩ ⟨l, hself⟩⟩

/-- Inside a recorded block the only recorded start is the block's own. -/
theorem WellFormed.start_eq_of_mem (hb : 0 < b) (hf : WellFormed b f) {B : ℕ}
    (hA : f A = some (l, o)) (hB : f B = some (k, o')) (hin : blockStart b l B = A) : B = A := by
  have hcov : Covers b f B l o := by unfold Covers; rw [hin]; exact hA
  obtain ⟨rfl, -⟩ := hf.entry_eq hb hB hcov
  rw [← hin, blockStart_self hb (hf.aligned hB)]

/-- Two different recorded blocks are disjoint intervals. -/
theorem WellFormed.disjoint (hb : 0 < b) (hf : WellFormed b f) {B : ℕ} (hA : f A = some (l, o))
    (hB : f B = some (k, o')) (hne : A ≠ B) :
    A + b ^ l ≤ B ∨ B + b ^ k ≤ A := by
  by_contra hcon
  push Not at hcon
  obtain ⟨h1, h2⟩ := hcon
  rcases Nat.le_total A B with hle | hle
  · exact hne (hf.start_eq_of_mem hb hA hB (blockStart_eq_of_mem (hf.aligned hA) hle h1)).symm
  · exact hne (hf.start_eq_of_mem hb hB hA (blockStart_eq_of_mem (hf.aligned hB) hle h2))

/-! ## Updates

Every update below rewrites what is recorded for the positions of one region and for no other
position, so `Replaces` states the effect once and the laws of well-formedness and ownership are
read off it. -/

/-- `f'` records `v` for every position of the region `R` and agrees with `f` elsewhere. -/
structure Replaces (b : ℕ) (f f' : Forest O) (R : ℕ → Prop) (v : Option (ℕ × O)) : Prop where
  aligned : ∀ {A l o}, f' A = some (l, o) → b ^ l ∣ A
  inside : ∀ {x k p}, R x → (Covers b f' x k p ↔ v = some (k, p))
  outside : ∀ {x k p}, ¬ R x → (Covers b f' x k p ↔ Covers b f x k p)

namespace Replaces

variable {f' : Forest O} {R : ℕ → Prop} {v : Option (ℕ × O)}

theorem wellFormed (h : Replaces b f f' R v) (hf : WellFormed b f) : WellFormed b f' where
  aligned := h.aligned
  once := by
    intro x l k o o' hl hk
    by_cases hx : R x
    · have hv := (h.inside hx).mp hl
      rw [(h.inside hx).mp hk] at hv
      exact (congrArg Prod.fst (Option.some.inj hv)).symm
    · exact hf.once ((h.outside hx).mp hl) ((h.outside hx).mp hk)

end Replaces

/-- The `b` children of `P` replaced by one block at `P`. -/
def join (b P l : ℕ) (o : O) (f : Forest O) : Forest O := fun B =>
  if B = P then some (l + 1, o)
  else if ∃ i < b, B = P + i * b ^ l then none
  else f B

/-- The block at `P` replaced by its `b` children. -/
def cut (b P l : ℕ) (o : O) (f : Forest O) : Forest O := fun B =>
  if ∃ i < b, B = P + i * b ^ l then some (l, o) else f B

/-- Joining the `b` recorded children of `P`, all of one owner, changes no owner. -/
theorem WellFormed.join (hb : 0 < b) (hf : WellFormed b f) (hP : b ^ (l + 1) ∣ P)
    (hall : ∀ i < b, f (P + i * b ^ l) = some (l, o)) :
    Replaces b f (join b P l o f) (fun x => blockStart b (l + 1) x = P)
      (some (l + 1, o)) where
  aligned := by
    intro B k p h
    unfold Forest.join at h
    split_ifs at h with h1 h2
    · cases h; subst h1; exact hP
    · exact hf.aligned h
  inside := by
    intro x k p hx
    obtain ⟨i, hi, hxi⟩ := blockStart_mem_children hb hx
    have hcov : Covers b f x l o := by unfold Covers; rw [hxi]; exact hall i hi
    unfold Covers Forest.join
    split_ifs with h1 h2
    · rfl
    · constructor <;> intro h <;> cases h
      exact absurd hx h1
    · constructor
      · intro h
        obtain rfl := hf.once h hcov
        exact absurd ⟨i, hi, hxi⟩ h2
      · intro h
        cases h
        exact absurd hx h1
  outside := by
    intro x k p hx
    -- a recorded child that reaches `x` would put `x` inside the parent block
    have hchild : ∀ i < b, blockStart b k x = P + i * b ^ l → k ≠ l := by
      rintro i hi hki rfl
      apply hx
      rw [← blockStart_blockStart hb (Nat.le_succ k) x, hki, blockStart_child hb hP hi]
    unfold Covers Forest.join
    split_ifs with h1 h2
    · have h0 : f P = some (l, o) := by simpa using hall 0 hb
      rw [h1, h0]
      constructor <;> intro h <;> cases h
      · exact absurd h1 hx
      · exact absurd rfl (hchild 0 hb (by simpa using h1))
    · obtain ⟨i, hi, hki⟩ := h2
      rw [hki, hall i hi]
      constructor <;> intro h <;> cases h
      exact absurd rfl (hchild i hi hki)
    · rfl

/-- Cutting a recorded block into its `b` children changes no owner. -/
theorem WellFormed.cut (hb : 0 < b) (hf : WellFormed b f) (hP : f P = some (l + 1, o)) :
    Replaces b f (cut b P l o f) (fun x => blockStart b (l + 1) x = P) (some (l, o)) where
  aligned := by
    intro B k p h
    unfold Forest.cut at h
    split_ifs at h with h1
    · cases h
      obtain ⟨i, -, rfl⟩ := h1
      exact dvd_child (hf.aligned hP) i
    · exact hf.aligned h
  inside := by
    intro x k p hx
    obtain ⟨i, hi, hxi⟩ := blockStart_mem_children hb hx
    have hcov : Covers b f x (l + 1) o := by unfold Covers; rw [hx]; exact hP
    unfold Covers Forest.cut
    split_ifs with h1
    · rfl
    · constructor
      · intro h
        obtain rfl := hf.once h hcov
        exact absurd ⟨0, hb, by simpa using hx⟩ h1
      · intro h
        cases h
        exact absurd ⟨i, hi, hxi⟩ h1
  outside := by
    intro x k p hx
    unfold Covers Forest.cut
    split_ifs with h1
    · obtain ⟨i, hi, hki⟩ := h1
      have hin : blockStart b (l + 1) (blockStart b k x) = P := by
        rw [hki, blockStart_child hb (hf.aligned hP) hi]
      constructor
      · intro h
        cases h
        exact absurd (by rw [← blockStart_blockStart hb (Nat.le_succ l) x]; exact hin) hx
      · intro h
        -- the only start recorded inside the block is the block's own
        have hst := hf.start_eq_of_mem hb hP h hin
        rw [hst, hP] at h
        cases h
        exact absurd hst hx
    · rfl

/-! ## Climbing

A block whose siblings are all recorded for its owner can be joined with them, and the joined block
again with its siblings, as long as the siblings allow. -/

/-- From level `k` up to level `n`, the siblings of the blocks around `A` are recorded for `o`. -/
def Completes (b : ℕ) (f : Forest O) (A k : ℕ) (o : O) (n : ℕ) : Prop :=
  ∀ d, k ≤ d → d < n → ∀ i < b, blockStart b (d + 1) A + i * b ^ d ≠ blockStart b d A →
    f (blockStart b (d + 1) A + i * b ^ d) = some (d, o)

theorem completes_self (A k : ℕ) (o : O) : Completes b f A k o k :=
  fun _ hk hn => absurd hk (Nat.not_le_of_lt hn)

theorem Completes.mono {n' : ℕ} (h : Completes b f A k o n) (hn : n' ≤ n) :
    Completes b f A k o n' :=
  fun d hk hd => h d hk (Nat.lt_of_lt_of_le hd hn)

/-- The levels are split at one of them. -/
theorem completes_split {m : ℕ} (hkm : k ≤ m) (hmn : m ≤ n) :
    Completes b f A k o n ↔ Completes b f A k o m ∧ Completes b f A m o n := by
  constructor
  · intro h
    exact ⟨h.mono hmn, fun d hd => h d (Nat.le_trans hkm hd)⟩
  · rintro ⟨hlow, hhigh⟩ d hk hn
    rcases Nat.lt_or_ge d m with hd | hd
    · exact hlow d hk hd
    · exact hhigh d hd hn

/-- Only the blocks from level `k` on matter. -/
theorem completes_blockStart (hb : 0 < b) (hj : j ≤ k) :
    Completes b f (blockStart b j A) k o n ↔ Completes b f A k o n := by
  refine forall_congr' fun d => forall_congr' fun hk => forall_congr' fun _ => ?_
  rw [blockStart_blockStart hb (Nat.le_trans hj hk),
    blockStart_blockStart hb (Nat.le_succ_of_le (Nat.le_trans hj hk))]

/-- A sibling of a block around `A` lies outside the lower blocks around `A`. -/
theorem blockStart_sibling_ne (hb : 0 < b) {d : ℕ}
    (hne : blockStart b (d + 1) A + i * b ^ d ≠ blockStart b d A) (hj : j ≤ d)
    (hx : blockStart b d x = blockStart b (d + 1) A + i * b ^ d) :
    blockStart b j x ≠ blockStart b j A := by
  intro heq
  apply hne
  rw [← hx, ← blockStart_blockStart hb hj x, heq, blockStart_blockStart hb hj]

/-- Joining the children of `P` does not touch the siblings above. -/
theorem completes_join (hb : 0 < b) (hP : b ^ (k + 1) ∣ P) :
    Completes b (join b P k o f) P (k + 1) o n ↔ Completes b f P (k + 1) o n := by
  refine forall_congr' fun d => forall_congr' fun hk => forall_congr' fun _ =>
    forall_congr' fun i => forall_congr' fun hi => forall_congr' fun hne => ?_
  have hself : blockStart b (k + 1) P = P := blockStart_self hb hP
  have hdvd : b ^ d ∣ blockStart b (d + 1) P + i * b ^ d := dvd_child (dvd_blockStart b (d + 1) P) i
  have hout := blockStart_sibling_ne hb hne hk (blockStart_self hb hdvd)
  rw [hself] at hout
  unfold Forest.join
  rw [if_neg, if_neg]
  · rintro ⟨j, hj, hchild⟩
    exact hout (by rw [hchild]; exact blockStart_child hb hP hj)
  · intro heq
    exact hout (by rw [heq, hself])

/-- Cutting the block `P` completes its own level and does not touch the siblings above. -/
theorem completes_cut (hb : 0 < b) (hP : b ^ (k + 1) ∣ P) (hA : blockStart b (k + 1) A = P)
    (h : Completes b f A (k + 1) o n) : Completes b (cut b P k o f) A k o n := by
  intro d hk hn i hi hne
  unfold Forest.cut
  rcases Nat.eq_or_lt_of_le hk with rfl | hlt
  · rw [if_pos ⟨i, hi, by rw [hA]⟩]
  · have hdvd : b ^ d ∣ blockStart b (d + 1) A + i * b ^ d := dvd_child (dvd_blockStart b (d + 1) A) i
    have hout := blockStart_sibling_ne hb hne hlt (blockStart_self hb hdvd)
    rw [if_neg, h d hlt hn i hi hne]
    rintro ⟨j, hj, hchild⟩
    exact hout (by rw [hchild, Nat.succ_eq_add_one, blockStart_child hb hP hj, hA])

/-- Everything inside a completed block is the owner's, and above its own block it shares the blocks
around `A`. -/
theorem Completes.covers (hb : 0 < b) (h : Completes b f A k o n) (hk : k ≤ n)
    (hA : f (blockStart b k A) = some (k, o)) (hx : blockStart b n x = blockStart b n A) :
    ∃ d, k ≤ d ∧ (d < n ∨ d = k) ∧ Covers b f x d o ∧
      ∀ e, d < e → e ≤ n → blockStart b e x = blockStart b e A := by
  induction n, hk using Nat.le_induction with
  | base =>
    exact ⟨k, Nat.le_refl k, Or.inr rfl, by rw [Covers, hx, hA], fun e he hle => by omega⟩
  | succ n hk ih =>
    by_cases hsame : blockStart b n x = blockStart b n A
    · obtain ⟨d, hd, hlt, hcov, hpath⟩ := ih (h.mono (Nat.le_succ n)) hsame
      refine ⟨d, hd, hlt.imp Nat.lt_succ_of_lt id, hcov, fun e he hle => ?_⟩
      rcases Nat.eq_or_lt_of_le hle with rfl | hlt
      · exact hx
      · exact hpath e he (Nat.le_of_lt_succ hlt)
    · obtain ⟨i, hi, hxi⟩ := blockStart_mem_children hb hx
      refine ⟨n, hk, Or.inl (Nat.lt_succ_self n), ?_, fun e he hle => ?_⟩
      · rw [Covers, hxi]
        exact h n hk (Nat.lt_succ_self n) i hi (by rw [← hxi]; exact hsame)
      · obtain rfl : e = n + 1 := by omega
        exact hx

end Forest

end Wormholes.Lib
