import Mathlib.Data.List.Basic

/-!
# Lib.Outcome — what a computation that may stop guarantees

`Ensures good x Q` is a triple for a computation in `Except`: a value it returns meets `Q`, and a
reason for which it stops is one of the `good` ones. Its rules follow the computation's shape, one
for each way of putting computations together. Nothing here names a program.
-/

namespace Wormholes.Lib

variable {ε α β : Type} {good : ε → Prop} {P Q : α → Prop}
variable {e : ε} {x : Except ε α} {f : α → Except ε β}

def Ensures (good : ε → Prop) (x : Except ε α) (Q : α → Prop) : Prop :=
  match x with
  | .ok a => Q a
  | .error e => good e

instance [DecidablePred good] [DecidablePred Q] (x : Except ε α) : Decidable (Ensures good x Q) :=
  match x with
  | .ok a => inferInstanceAs (Decidable (Q a))
  | .error e => inferInstanceAs (Decidable (good e))

@[simp] theorem ensures_ok {a : α} : Ensures good (.ok a) Q ↔ Q a := Iff.rfl

@[simp] theorem ensures_error : Ensures good (.error e : Except ε α) Q ↔ good e := Iff.rfl

theorem Ensures.bind {R : β → Prop} (hx : Ensures good x P) (hf : ∀ a, P a → Ensures good (f a) R) :
    Ensures good (x >>= f) R := by
  cases x with
  | ok a => exact hf a hx
  | error e => exact hx

/-- The rule for a computation whose value is known to be what `x` returned. -/
theorem Ensures.bind_eq {R : β → Prop} (hx : ∀ e, x = .error e → good e)
    (hf : ∀ a, x = .ok a → Ensures good (f a) R) : Ensures good (x >>= f) R := by
  cases x with
  | ok a => exact hf a rfl
  | error e => exact hx e rfl

theorem Ensures.mono (hx : Ensures good x P) (h : ∀ a, P a → Q a) : Ensures good x Q := by
  cases x with
  | ok a => exact h a hx
  | error e => exact hx

theorem Ensures.weaken {good' : ε → Prop} (hx : Ensures good x Q) (h : ∀ e, good e → good' e) :
    Ensures good' x Q := by
  cases x with
  | ok a => exact hx
  | error e => exact h e hx

theorem Ensures.of_ok {a : α} (hx : Ensures good x Q) (h : x = .ok a) : Q a := by
  rw [h] at hx
  exact hx

/-- A computation that may not stop at all returns a value. -/
theorem Ensures.exists_ok (hx : Ensures (fun _ => False) x Q) : ∃ a, x = .ok a ∧ Q a := by
  cases x with
  | ok a => exact ⟨a, rfl, hx⟩
  | error e => exact hx.elim

/-- A computation that may return nothing stops for the one good reason. -/
theorem Ensures.eq_error (hx : Ensures (· = e) x fun _ => False) : x = .error e := by
  cases x with
  | ok a => exact hx.elim
  | error e' => exact congrArg Except.error hx

theorem Ensures.ne_error (hx : Ensures good x Q) (he : ¬ good e) : x ≠ .error e := by
  intro h
  rw [h] at hx
  exact he hx

theorem bind_eq_ok {b : β} : (x >>= f) = .ok b ↔ ∃ a, x = .ok a ∧ f a = .ok b := by
  cases x with
  | ok a =>
    refine ⟨fun h => ⟨a, rfl, h⟩, ?_⟩
    rintro ⟨_, ha, h⟩
    cases ha
    exact h
  | error e =>
    refine ⟨fun h => (by cases h), ?_⟩
    rintro ⟨_, ha, _⟩
    cases ha

/-- A list is mapped only if each member is. -/
theorem exists_ok_of_mapM {xs : List α} {ys : List β} (h : xs.mapM f = .ok ys) :
    ∀ x ∈ xs, ∃ y, f x = .ok y := by
  induction xs generalizing ys with
  | nil => exact nofun
  | cons x xs ih =>
    rw [List.mapM_cons] at h
    obtain ⟨y, hy, h⟩ := bind_eq_ok.mp h
    obtain ⟨zs, hzs, -⟩ := bind_eq_ok.mp h
    exact List.forall_mem_cons.mpr ⟨⟨y, hy⟩, ih hzs⟩

end Wormholes.Lib
