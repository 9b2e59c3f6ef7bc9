import Wormholes.State.Account

/-!
# Core.Result — the outcome of a fallible call

A Go call that returns an error leaves the state as it was when the error arose; a panic ends the
node. Every error path of the modelled calls comes before their first write, so an error carries
no state.
-/

namespace Wormholes

/-- A value, an error with its text, or a panic. -/
inductive Res (α : Type) where
  | ok (a : α)
  | err (msg : String)
  | panic
deriving DecidableEq

namespace Res

variable {α β : Type}

def bind (x : Res α) (f : α → Res β) : Res β :=
  match x with
  | ok a => f a
  | err msg => err msg
  | panic => panic

instance : Monad Res where
  pure := ok
  bind := bind

/-- Fails with `msg` unless the condition holds. -/
def require (c : Prop) [Decidable c] (msg : String) : Res Unit := if c then ok () else err msg

/-- A panic where there is no value. -/
def ofOption (x : Option α) : Res α :=
  match x with
  | some a => ok a
  | none => panic

/-- Whether there is a value. -/
def isOk : Res α → Bool
  | ok _ => true
  | _ => false

/-! ## Inversion -/

variable {x : Res α} {f : α → Res β} {c : Prop} {msg : String} {a : α}

theorem exists_of_isOk (h : x.isOk = true) : ∃ a, x = ok a := by
  cases x with
  | ok a => exact ⟨a, rfl⟩
  | err => cases h
  | panic => cases h

theorem bind_eq_ok {b : β} : (x >>= f) = ok b ↔ ∃ a, x = ok a ∧ f a = ok b := by
  cases x with
  | ok a =>
    refine ⟨fun h => ⟨a, rfl, h⟩, ?_⟩
    rintro ⟨_, ha, h⟩
    cases ha
    exact h
  | err msg =>
    refine ⟨fun h => (by cases h), ?_⟩
    rintro ⟨_, ha, _⟩
    cases ha
  | panic =>
    refine ⟨fun h => (by cases h), ?_⟩
    rintro ⟨_, ha, _⟩
    cases ha

theorem require_eq_ok [Decidable c] {u : Unit} : require c msg = ok u ↔ c := by
  unfold require
  split
  next h => exact ⟨fun _ => h, fun _ => rfl⟩
  next h => exact ⟨fun h' => (by cases h'), fun h' => absurd h' h⟩

theorem ofOption_eq_ok {x : Option α} : ofOption x = ok a ↔ x = some a := by
  cases x with
  | some b => exact ⟨fun h => congrArg some (Res.ok.inj h), fun h => congrArg ok (Option.some.inj h)⟩
  | none => exact ⟨fun h => (by cases h), fun h => (by cases h)⟩

theorem ok_bind : (ok a >>= f) = f a := rfl

theorem err_bind : (err msg >>= f) = err msg := rfl

theorem bind_assoc {γ : Type} {g : β → Res γ} : ((x >>= f) >>= g) = (x >>= fun a => f a >>= g) := by
  cases x <;> rfl

theorem bind_eq_panic : (x >>= f) = panic ↔ x = panic ∨ ∃ a, x = ok a ∧ f a = panic := by
  cases x with
  | ok a =>
    refine ⟨fun h => Or.inr ⟨a, rfl, h⟩, ?_⟩
    rintro (h | ⟨_, ha, h⟩)
    · cases h
    · cases ha
      exact h
  | err msg =>
    refine ⟨fun h => (by cases h), ?_⟩
    rintro (h | ⟨_, ha, -⟩)
    · cases h
    · cases ha
  | panic => exact ⟨fun _ => Or.inl rfl, fun _ => rfl⟩

@[simp] theorem require_ne_panic [Decidable c] :
    require c msg ≠ panic := by
  unfold require
  split <;> simp

theorem ofOption_eq_panic {x : Option α} : ofOption x = panic ↔ x = none := by
  cases x with
  | some a => exact ⟨fun h => (by cases h), fun h => (by cases h)⟩
  | none => exact ⟨fun _ => rfl, fun _ => rfl⟩

end Res

end Wormholes
