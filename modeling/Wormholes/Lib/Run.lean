import Mathlib.Logic.Basic

/-!
# Lib.Run — guarded runs of a transition system, and undo logs

Two patterns a stateful program's proofs rest on. `Run step ok` is the finite runs of a partial
step function whose every step meets a condition on the state before it; `Run.invariant` is its
induction principle. `Logged` relates two states of a program that keeps an undo log: the later
log extends the earlier one, and undoing the new entries from the later state gives back the
earlier one, up to an equivalence the undo respects. Nothing here names a program.
-/

namespace Wormholes.Lib

/-! ## Guarded runs -/

section Run

variable {σ ε : Type}

/-- The events `es` lead from the first state to the last, and `ok` holds at each of them in the
state it meets. -/
inductive Run (step : ε → σ → Option σ) (ok : σ → ε → Prop) : σ → List ε → σ → Prop
  | nil (s : σ) : Run step ok s [] s
  | snoc {s t u : σ} {es : List ε} {e : ε} (run : Run step ok s es t) (hok : ok t e)
      (hstep : step e t = some u) : Run step ok s (es ++ [e]) u

variable {step : ε → σ → Option σ} {ok : σ → ε → Prop} {s t : σ} {es : List ε}

/-- What holds at the start and survives every step that meets the condition holds at the end. -/
theorem Run.invariant {P : σ → Prop} (run : Run step ok s es t) (hinit : P s)
    (hstep : ∀ {u v : σ} {e : ε}, P u → ok u e → step e u = some v → P v) : P t := by
  induction run with
  | nil => exact hinit
  | snoc _ hok hs ih => exact hstep ih hok hs

/-- Runs events in order. -/
def runAll (step : ε → σ → Option σ) : List ε → σ → Option σ
  | [], s => some s
  | e :: es, s => (step e s).bind (runAll step es)

theorem runAll_append (es es' : List ε) (s : σ) :
    runAll step (es ++ es') s = (runAll step es s).bind (runAll step es') := by
  induction es generalizing s with
  | nil => rfl
  | cons e es ih =>
    simp only [List.cons_append, runAll, Option.bind_assoc]
    congr 1
    funext t
    exact ih t

theorem Run.cons {s t u : σ} {e : ε} (hok : ok s e) (hstep : step e s = some t)
    (run : Run step ok t es u) : Run step ok s (e :: es) u := by
  induction run with
  | nil =>
    have hone : Run step ok s ([] ++ [e]) _ := .snoc (.nil s) hok hstep
    exact hone
  | @snoc _ _ es e' _ hok' hstep' ih =>
    have hmore : Run step ok s ((e :: es) ++ [e']) _ := .snoc ih hok' hstep'
    exact hmore

/-- Events that lead to a state, and meet the condition in whatever state, are a run. -/
theorem Run.of_runAll (hok : ∀ u, ∀ e ∈ es, ok u e) (h : runAll step es s = some t) :
    Run step ok s es t := by
  induction es generalizing s with
  | nil =>
    cases h
    exact .nil _
  | cons e es ih =>
    obtain ⟨u, hu, hrest⟩ := Option.bind_eq_some_iff.mp h
    exact .cons (hok _ e List.mem_cons_self) hu
      (ih (fun v e' he' => hok v e' (List.mem_cons_of_mem e he')) hrest)

/-- Events that lead to a state, and pass a test in each state they meet, are a run. -/
theorem Run.of_tested {test : σ → ε → Bool} (hok : ∀ {u e}, test u e = true → ok u e)
    (h : runAll (fun e u => if test u e then step e u else none) es s = some t) :
    Run step ok s es t := by
  induction es generalizing s with
  | nil =>
    cases h
    exact .nil _
  | cons e es ih =>
    obtain ⟨u, hu, hrest⟩ := Option.bind_eq_some_iff.mp h
    dsimp only at hu
    by_cases htest : test s e = true
    · rw [if_pos htest] at hu
      exact .cons (hok htest) hu (ih hrest)
    · rw [if_neg htest] at hu
      cases hu

/-! ### What is seen of a run -/

variable {β : Type} {see : σ → ε → Option β}

/-- What is seen of events that are run in order, each in the state it meets. -/
def observed (step : ε → σ → Option σ) (see : σ → ε → Option β) : List ε → σ → List β
  | [], _ => []
  | e :: es, s =>
    (see s e).toList ++ ((step e s).map (observed step see es)).getD []

end Run

/-! ## Undo logs -/

section Log

variable {σ ε : Type} (undo : ε → σ → Option σ) (R : σ → σ → Prop)

/-- Undoes entries in order. -/
def undoAll : List ε → σ → Option σ
  | [], s => some s
  | e :: es, s => (undo e s).bind (undoAll es)

/-- Undoing `es` from any state like `t` gives a state like `s`. -/
def Undoes (es : List ε) (t s : σ) : Prop :=
  ∀ t', R t' t → ∃ s', undoAll undo es t' = some s' ∧ R s' s

variable {undo R}

theorem undoAll_append (es fs : List ε) (s : σ) :
    undoAll undo (es ++ fs) s = (undoAll undo es s).bind (undoAll undo fs) := by
  induction es generalizing s with
  | nil => rfl
  | cons e es ih =>
    simp only [List.cons_append, undoAll]
    cases undo e s with
    | none => rfl
    | some s' => exact ih s'

theorem Undoes.nil (s : σ) : Undoes undo R [] s s := fun s' h => ⟨s', rfl, h⟩

theorem Undoes.append {es fs : List ε} {s t u : σ} (h : Undoes undo R es u t)
    (h' : Undoes undo R fs t s) : Undoes undo R (es ++ fs) u s := by
  intro u' hu
  obtain ⟨t', ht, hRt⟩ := h u' hu
  obtain ⟨s', hs, hRs⟩ := h' t' hRt
  exact ⟨s', by rw [undoAll_append, ht]; exact hs, hRs⟩

/-- The log grew from `log` to `log'` while the state went from `s` to `t`, and the new entries
undo that. The log is kept newest first. -/
def Logged (undo : ε → σ → Option σ) (R : σ → σ → Prop) (s : σ) (log : List ε) (t : σ)
    (log' : List ε) : Prop :=
  ∃ es, log' = es ++ log ∧ Undoes undo R es t s

theorem Logged.refl (s : σ) (log : List ε) : Logged undo R s log s log :=
  ⟨[], rfl, Undoes.nil s⟩

theorem Logged.trans {s t u : σ} {l m n : List ε} (h : Logged undo R s l t m)
    (h' : Logged undo R t m u n) : Logged undo R s l u n := by
  obtain ⟨es, rfl, hes⟩ := h
  obtain ⟨fs, rfl, hfs⟩ := h'
  exact ⟨fs ++ es, (List.append_assoc fs es l).symm, hfs.append hes⟩

/-- Undoing the log down to its earlier length gives back a state like the earlier one. -/
theorem Logged.undo_take {s t : σ} {l l' : List ε} (h : Logged undo R s l t l') (hR : R t t) :
    ∃ s', undoAll undo (l'.take (l'.length - l.length)) t = some s' ∧ R s' s ∧
      l'.drop (l'.length - l.length) = l := by
  obtain ⟨es, rfl, hes⟩ := h
  obtain ⟨s', hs, hRs⟩ := hes t hR
  have hlen : (es ++ l).length - l.length = es.length := by simp
  refine ⟨s', ?_, hRs, ?_⟩
  · rw [hlen, List.take_left' rfl]
    exact hs
  · rw [hlen, List.drop_left' rfl]

end Log

end Wormholes.Lib
