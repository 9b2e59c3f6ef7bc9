import Mathlib.Data.List.Basic

/-!
# Lib.Cuts — where a concatenation can be cut

A text is tagged when its second letter is a mark, its first is none, and no later one is. Two
concatenations of equal text whose first parts are tagged and whose second parts begin like a
tagged text are cut at the same place, and so are two whose second parts are tagged. Nothing here
names a program.
-/

namespace Wormholes.Lib

variable {α : Type}

/-- The text begins with a letter that is no mark and a mark. -/
def StartsTagged (mark : α → Prop) (l : List α) : Prop :=
  ∃ a m ds, l = a :: m :: ds ∧ ¬ mark a ∧ mark m

/-- The text begins so and has no other mark. -/
def Tagged (mark : α → Prop) (l : List α) : Prop :=
  ∃ a m ds, l = a :: m :: ds ∧ ¬ mark a ∧ mark m ∧ ∀ c ∈ ds, ¬ mark c

variable {mark : α → Prop} {l l' r r' : List α}

theorem Tagged.starts (h : Tagged mark l) : StartsTagged mark l := by
  obtain ⟨a, m, ds, rfl, ha, hm, -⟩ := h
  exact ⟨a, m, ds, rfl, ha, hm⟩

/-- A tagged text is no tagged text with the beginning of another appended. -/
theorem Tagged.not_append_starts {z : List α} (hl : Tagged mark l) (hlz : Tagged mark (l ++ z))
    (hr : StartsTagged mark (z ++ r')) (hr' : StartsTagged mark r') : z = [] := by
  obtain ⟨a, m, ds, rfl, -, -, -⟩ := hl
  obtain ⟨a', m', ds', heq, -, -, hds'⟩ := hlz
  simp only [List.cons_append, List.cons.injEq] at heq
  obtain ⟨-, -, rfl⟩ := heq
  obtain ⟨b, k, es, hz, -, hk⟩ := hr
  cases z with
  | nil => rfl
  | cons c z =>
    simp only [List.cons_append, List.cons.injEq] at hz
    cases z with
    | nil =>
      -- one letter was moved: the rest then begins with the mark
      obtain ⟨b', k', es', rfl, hb', -⟩ := hr'
      simp only [List.nil_append, List.cons.injEq] at hz
      exact absurd (hz.2.1 ▸ hk) hb'
    | cons c' z =>
      simp only [List.cons_append, List.cons.injEq] at hz
      exact absurd (hz.2.1 ▸ hk) (hds' c' (by simp))

/-- First parts that are tagged are cut off at one place. -/
theorem Tagged.append_left_inj (hl : Tagged mark l) (hl' : Tagged mark l')
    (hr : StartsTagged mark r) (hr' : StartsTagged mark r') (h : l ++ r = l' ++ r') :
    l = l' ∧ r = r' := by
  rcases List.append_eq_append_iff.mp h with ⟨z, rfl, rfl⟩ | ⟨z, rfl, rfl⟩
  · obtain rfl := hl.not_append_starts hl' hr hr'
    simp
  · obtain rfl := hl'.not_append_starts hl hr' hr
    simp

/-- Second parts that are tagged are cut off at one place. -/
theorem Tagged.append_right_inj (hr : Tagged mark r) (hr' : Tagged mark r') (h : l ++ r = l' ++ r') :
    l = l' ∧ r = r' := by
  -- a tagged text is not the end of a longer one: its mark would stand too late there
  have hnot : ∀ {z r : List α}, Tagged mark r → Tagged mark (z ++ r) → z = [] := by
    rintro z r ⟨a, m, ds, rfl, ha, hm, -⟩ ⟨a', m', ds', heq, -, hm', hds'⟩
    match z, heq with
    | [], _ => rfl
    | [c], heq =>
      simp only [List.cons_append, List.nil_append, List.cons.injEq] at heq
      exact absurd (heq.2.1 ▸ hm') ha
    | c :: c' :: z, heq =>
      simp only [List.cons_append, List.cons.injEq] at heq
      exact absurd hm (hds' m (by simp [← heq.2.2]))
  rcases List.append_eq_append_iff.mp h with ⟨z, rfl, rfl⟩ | ⟨z, rfl, rfl⟩
  · obtain rfl := hnot hr' hr
    simp
  · obtain rfl := hnot hr hr'
    simp

end Wormholes.Lib
