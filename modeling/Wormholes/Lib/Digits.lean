import Mathlib.Data.List.Induction
import Mathlib.Data.Nat.Basic
import Mathlib.Tactic.Ring
import Mathlib.Tactic.Linarith

/-!
# Lib.Digits — fixed-width numerals, most significant digit first

`ofDigitsBE` reads a numeral the way a parser does, one digit at a time from the left, and
`toDigitsBE` writes the low `w` digits of a number. The laws say what a prefix and a suffix of a
numeral denote and how concatenation adds up; they are what string slicing of a hexadecimal
address needs. Nothing here names a program.
-/

namespace Wormholes.Lib

variable {ds : List ℕ} {n d : ℕ}

/-- The number a numeral denotes in base `b`. -/
def ofDigitsBE (b : ℕ) (ds : List ℕ) : ℕ := ds.foldl (fun acc d => acc * b + d) 0

/-- The low `w` digits of `n` in base `b`, most significant first. -/
def toDigitsBE (b : ℕ) : ℕ → ℕ → List ℕ
  | 0, _ => []
  | w + 1, n => toDigitsBE b w (n / b) ++ [n % b]

variable {b : ℕ}

@[simp] theorem ofDigitsBE_nil : ofDigitsBE b [] = 0 := rfl

@[simp] theorem ofDigitsBE_concat (ds : List ℕ) (d : ℕ) :
    ofDigitsBE b (ds ++ [d]) = ofDigitsBE b ds * b + d := by
  simp [ofDigitsBE]

theorem ofDigitsBE_append (xs ys : List ℕ) :
    ofDigitsBE b (xs ++ ys) = ofDigitsBE b xs * b ^ ys.length + ofDigitsBE b ys := by
  induction ys using List.reverseRecOn with
  | nil => simp
  | append_singleton ys d ih =>
    rw [← List.append_assoc, ofDigitsBE_concat, ofDigitsBE_concat, ih]
    simp only [List.length_append, List.length_singleton, Nat.pow_succ]
    ring

@[simp] theorem ofDigitsBE_replicate_zero (k : ℕ) : ofDigitsBE b (List.replicate k 0) = 0 := by
  induction k with
  | zero => rfl
  | succ k ih => rw [List.replicate_succ', ofDigitsBE_concat, ih]; simp

theorem ofDigitsBE_append_zeros (xs : List ℕ) (k : ℕ) :
    ofDigitsBE b (xs ++ List.replicate k 0) = ofDigitsBE b xs * b ^ k := by
  rw [ofDigitsBE_append]; simp

theorem ofDigitsBE_zeros_append (k : ℕ) (xs : List ℕ) :
    ofDigitsBE b (List.replicate k 0 ++ xs) = ofDigitsBE b xs := by
  rw [ofDigitsBE_append]; simp

theorem ofDigitsBE_lt (h : ∀ d ∈ ds, d < b) : ofDigitsBE b ds < b ^ ds.length := by
  induction ds using List.reverseRecOn with
  | nil => simp
  | append_singleton ds d ih =>
    have hd : d < b := h d (by simp)
    have hds := ih fun e he => h e (by simp [he])
    rw [ofDigitsBE_concat, List.length_append, List.length_singleton, Nat.pow_succ]
    calc ofDigitsBE b ds * b + d < ofDigitsBE b ds * b + b := by omega
      _ = (ofDigitsBE b ds + 1) * b := by ring
      _ ≤ b ^ ds.length * b := Nat.mul_le_mul_right b hds

@[simp] theorem length_toDigitsBE (w n : ℕ) : (toDigitsBE b w n).length = w := by
  induction w generalizing n with
  | zero => rfl
  | succ w ih => simp [toDigitsBE, ih]

theorem lt_of_mem_toDigitsBE (hb : 0 < b) {w : ℕ} (h : d ∈ toDigitsBE b w n) : d < b := by
  induction w generalizing n with
  | zero => cases h
  | succ w ih =>
    simp only [toDigitsBE, List.mem_append, List.mem_singleton] at h
    rcases h with h | rfl
    · exact ih h
    · exact Nat.mod_lt _ hb

theorem ofDigitsBE_toDigitsBE (w n : ℕ) : ofDigitsBE b (toDigitsBE b w n) = n % b ^ w := by
  induction w generalizing n with
  | zero => simp [toDigitsBE, Nat.mod_one]
  | succ w ih =>
    rw [toDigitsBE, ofDigitsBE_concat, ih, Nat.pow_succ, Nat.mul_comm (b ^ w) b, Nat.mod_mul]
    ring

/-- The leading digits of a numeral are the numeral of the quotient. -/
theorem take_toDigitsBE (k : ℕ) (p n : ℕ) :
    (toDigitsBE b (p + k) n).take p = toDigitsBE b p (n / b ^ k) := by
  induction k generalizing n with
  | zero => simp [List.take_of_length_le]
  | succ k ih =>
    have hlen : p ≤ (toDigitsBE b (p + k) (n / b)).length := by simp
    rw [← Nat.add_assoc, toDigitsBE, List.take_append_of_le_length hlen, ih,
      Nat.div_div_eq_div_mul, Nat.pow_succ, Nat.mul_comm b]

/-- The trailing digits of a numeral depend on the low digits only. -/
theorem drop_toDigitsBE (k : ℕ) (p n : ℕ) :
    (toDigitsBE b (p + k) n).drop p = toDigitsBE b k n := by
  induction k generalizing n with
  | zero => simp [toDigitsBE, List.drop_eq_nil_iff]
  | succ k ih =>
    have hlen : p ≤ (toDigitsBE b (p + k) (n / b)).length := by simp
    rw [← Nat.add_assoc, toDigitsBE, List.drop_append_of_le_length hlen, ih, toDigitsBE]

/-- The low digits of a multiple of `b ^ k` are zero. -/
theorem toDigitsBE_of_dvd (hb : 0 < b) {k : ℕ} (h : b ^ k ∣ n) :
    toDigitsBE b k n = List.replicate k 0 := by
  induction k generalizing n with
  | zero => rfl
  | succ k ih =>
    obtain ⟨m, rfl⟩ := h
    have hdiv : b ^ (k + 1) * m / b = b ^ k * m := by
      rw [Nat.pow_succ, Nat.mul_right_comm, Nat.mul_div_cancel _ hb]
    rw [toDigitsBE, hdiv, ih (Nat.dvd_mul_right _ _), List.replicate_succ']
    congr 2
    rw [Nat.pow_succ, Nat.mul_right_comm, Nat.mul_mod_left]

/-- Zeroing the last `k` digits of a numeral rounds its number down. -/
theorem ofDigitsBE_take_append_zeros {p k : ℕ} (h : n < b ^ (p + k)) :
    ofDigitsBE b ((toDigitsBE b (p + k) n).take p ++ List.replicate k 0) = n / b ^ k * b ^ k := by
  have hdiv : n / b ^ k < b ^ p := by
    apply Nat.div_lt_of_lt_mul
    rwa [← Nat.pow_add, Nat.add_comm k p]
  rw [ofDigitsBE_append_zeros, take_toDigitsBE, ofDigitsBE_toDigitsBE, Nat.mod_eq_of_lt hdiv]

theorem toDigitsBE_ofDigitsBE (h : ∀ d ∈ ds, d < b) :
    toDigitsBE b ds.length (ofDigitsBE b ds) = ds := by
  induction ds using List.reverseRecOn with
  | nil => rfl
  | append_singleton ds d ih =>
    have hd : d < b := h d (by simp)
    have hdiv : (ofDigitsBE b ds * b + d) / b = ofDigitsBE b ds := by
      rw [Nat.mul_comm, Nat.mul_add_div (by omega), Nat.div_eq_of_lt hd, Nat.add_zero]
    have hmod : (ofDigitsBE b ds * b + d) % b = d := by
      rw [Nat.mul_comm, Nat.mul_add_mod, Nat.mod_eq_of_lt hd]
    rw [List.length_append, List.length_singleton, toDigitsBE, ofDigitsBE_concat, hdiv, hmod,
      ih fun x hx => h x (by simp [hx])]

/-! ## Bytes without leading zeros -/

/-- The number of bytes a number needs; zero needs none. -/
def byteLength (n : ℕ) : ℕ := if n = 0 then 0 else Nat.log2 n / 8 + 1

/-- The bytes of a number, without leading zeros. -/
def natBytes (n : ℕ) : List ℕ := toDigitsBE 256 (byteLength n) n

@[simp] theorem length_natBytes (n : ℕ) : (natBytes n).length = byteLength n :=
  length_toDigitsBE _ _

theorem byteLength_le_iff {m : ℕ} : byteLength n ≤ m ↔ n < 256 ^ m := by
  have hpow : 256 ^ m = 2 ^ (8 * m) := by rw [Nat.pow_mul]
  rw [hpow, byteLength]
  split
  next hn => simp [hn]
  next hn =>
    rw [← Nat.log2_lt hn]
    omega

theorem ofDigitsBE_natBytes (n : ℕ) : ofDigitsBE 256 (natBytes n) = n := by
  rw [natBytes, ofDigitsBE_toDigitsBE]
  exact Nat.mod_eq_of_lt (byteLength_le_iff.mp (Nat.le_refl _))

theorem lt_of_mem_natBytes (h : d ∈ natBytes n) : d < 256 :=
  lt_of_mem_toDigitsBE (by decide) h

theorem pow_le_ofDigitsBE (hd : d ≠ 0) (ds : List ℕ) : b ^ ds.length ≤ ofDigitsBE b (d :: ds) := by
  have happend := ofDigitsBE_append (b := b) [d] ds
  simp only [List.singleton_append] at happend
  rw [happend]
  have : b ^ ds.length ≤ ofDigitsBE b [d] * b ^ ds.length := by
    refine Nat.le_mul_of_pos_left _ ?_
    simp [ofDigitsBE]
    omega
  omega

theorem byteLength_ofDigitsBE (hd : d ≠ 0) (h : ∀ x ∈ d :: ds, x < 256) :
    byteLength (ofDigitsBE 256 (d :: ds)) = ds.length + 1 := by
  refine Nat.le_antisymm (byteLength_le_iff.mpr (ofDigitsBE_lt h)) ?_
  by_contra hlt
  have hsmall : byteLength (ofDigitsBE 256 (d :: ds)) ≤ ds.length := by omega
  have := byteLength_le_iff.mp hsmall
  have := pow_le_ofDigitsBE (b := 256) hd ds
  omega

/-- Bytes without a leading zero are those of the number they spell. -/
theorem natBytes_ofDigitsBE (hd : ds.head? ≠ some 0) (h : ∀ x ∈ ds, x < 256) :
    natBytes (ofDigitsBE 256 ds) = ds := by
  cases ds with
  | nil => rfl
  | cons d ds =>
    have hd' : d ≠ 0 := fun h0 => hd (by simp [h0])
    have hlen : byteLength (ofDigitsBE 256 (d :: ds)) = (d :: ds).length :=
      byteLength_ofDigitsBE hd' h
    rw [natBytes, hlen, toDigitsBE_ofDigitsBE h]

theorem head?_natBytes (n : ℕ) : (natBytes n).head? ≠ some 0 := by
  cases hds : natBytes n with
  | nil => simp
  | cons d ds =>
    intro h
    have hd : d = 0 := by simpa using h
    have hval : ofDigitsBE 256 (d :: ds) = n := by rw [← hds, ofDigitsBE_natBytes]
    have hlen : byteLength n = ds.length + 1 := by rw [← length_natBytes, hds, List.length_cons]
    have hrest : ∀ x ∈ ds, x < 256 := by
      intro x hx
      exact lt_of_mem_natBytes (by rw [hds]; exact List.mem_cons_of_mem d hx)
    -- a leading zero would leave the number one byte shorter
    have hlt : n < 256 ^ ds.length := by
      rw [← hval, hd]
      have happend := ofDigitsBE_append (b := 256) [0] ds
      rw [List.singleton_append] at happend
      rw [happend]
      simpa [ofDigitsBE] using ofDigitsBE_lt hrest
    have := byteLength_le_iff.mpr hlt
    omega

end Wormholes.Lib
