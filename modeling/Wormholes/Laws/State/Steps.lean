import Wormholes.Chain.Machine

/-!
# Laws.State.Steps — what a state function can do to the accounts

Every function of the state database changes accounts in three ways only: it makes a fresh account
where there is none, it writes a fresh account over an old one and keeps the balance, or it
rewrites an existing account under a journal entry that can undo the rewriting. `Steps P s t` says
that `t` comes from `s` by such changes, each rewriting allowed by `P`. From it follow, once for
all functions: the journal undoes them (`Steps.journaled`), a field that `P` leaves alone keeps
its value everywhere (`Steps.view_eq`), and accounts stay (`Steps.exist`).

Undoing does not tell an absent balance from a zero one: a setter replaces an absent old balance
by zero before it journals it. `StateObject.normal` is what undoing restores.
-/

namespace Wormholes

open Lib

variable {m m' : Accounts} {a b : Address} {β : Type}
variable {o o' : Option StateObject} {f : StateObject → β}

/-! ## Accounts up to absent balances -/

namespace StateObject

/-- The account with absent balances read as zero. -/
def normal (o : StateObject) : StateObject :=
  { o with
    pledgedBalance := some (o.pledgedBalance.getD 0)
    exchangerBalance := some (o.exchangerBalance.getD 0)
    voteWeight := some (o.voteWeight.getD 0) }

end StateObject

namespace Accounts

/-- The same accounts, up to absent balances. -/
def Equiv (m m' : Accounts) : Prop := ∀ a, (m a).map StateObject.normal = (m' a).map StateObject.normal

theorem Equiv.refl (m : Accounts) : m.Equiv m := fun _ => rfl

theorem Equiv.trans {m'' : Accounts} (h : m.Equiv m') (h' : m'.Equiv m'') : m.Equiv m'' :=
  fun a => (h a).trans (h' a)

@[simp] theorem set_self (m : Accounts) (a : Address) (o : Option StateObject) : m.set a o a = o := by
  simp [Accounts.set]

theorem set_of_ne (m : Accounts) (o : Option StateObject) (h : b ≠ a) : m.set a o b = m b := by
  simp [Accounts.set, h]

/-- Two account maps agree after a write if the written accounts do and the rest did. -/
theorem Equiv.set (ho : o.map StateObject.normal = o'.map StateObject.normal)
    (h : ∀ b, b ≠ a → (m b).map StateObject.normal = (m' b).map StateObject.normal) :
    (m.set a o).Equiv (m'.set a o') := by
  intro b
  by_cases hb : b = a
  · subst hb
    simpa using ho
  · rw [set_of_ne m o hb, set_of_ne m' o' hb]
    exact h b hb

theorem set_set (m : Accounts) (a : Address) (o o' : Option StateObject) :
    (m.set a o).set a o' = m.set a o' := by
  funext b
  by_cases hb : b = a
  · rw [hb, set_self, set_self]
  · rw [set_of_ne _ _ hb, set_of_ne _ _ hb, set_of_ne _ _ hb]

theorem set_eq_self (h : m a = o) : m.set a o = m := by
  funext b
  by_cases hb : b = a
  · subst hb
    rw [set_self, h]
  · exact set_of_ne m o hb

end Accounts

/-! ## Entries that undo a rewriting -/

/-- Undoing `e` on an account like `o'` gives one like `o`. -/
def JournalEntry.Restores (e : JournalEntry) (a : Address) (o o' : StateObject) : Prop :=
  ∃ f : StateObject → StateObject,
    (∀ (m : Accounts) (x : StateObject), m a = some x → e.revert m = some (m.set a (some (f x)))) ∧
      ∀ x : StateObject, x.normal = o'.normal → (f x).normal = o.normal

namespace StateDB

/-- `t` comes from `s` by making accounts, writing accounts anew and rewritings `P` allows. -/
inductive Steps (P : Address → StateObject → StateObject → Prop) : StateDB → StateDB → Prop
  | refl (s : StateDB) : Steps P s s
  | create {s t : StateDB} {a : Address} (h : Steps P s t) (hnone : t.accounts a = none) :
      Steps P s (t.change (.createObjectChange a) a .fresh)
  | reset {s t : StateDB} {a : Address} {o : StateObject} (h : Steps P s t)
      (hsome : t.accounts a = some o) (hP : P a o { StateObject.fresh with balance := o.balance }) :
      Steps P s (t.change (.resetObjectChange a o) a { StateObject.fresh with balance := o.balance })
  | rewrite {s t : StateDB} {a : Address} {o o' : StateObject} {e : JournalEntry} (h : Steps P s t)
      (hsome : t.accounts a = some o) (he : e.Restores a o o') (hP : P a o o') :
      Steps P s (t.change e a o')
  | touch {s t : StateDB} (a : Address) (h : Steps P s t) : Steps P s (t.append (.touchChange a))
  | pools {s t : StateDB} (p : Pools) (h : Steps P s t) : Steps P s { t with pools := p }

/-- The journal grew by entries that undo what happened, and no snapshot was taken or lost. -/
structure Journaled (s t : StateDB) : Prop where
  logged : Logged JournalEntry.revert Accounts.Equiv s.accounts s.journal t.accounts t.journal
  revisions : t.validRevisions = s.validRevisions
  nextId : t.nextRevisionId = s.nextRevisionId

theorem Journaled.refl (s : StateDB) : Journaled s s := ⟨Logged.refl _ _, rfl, rfl⟩

theorem Journaled.trans {s t u : StateDB} (h : Journaled s t) (h' : Journaled t u) :
    Journaled s u :=
  ⟨h.logged.trans h'.logged, h'.revisions.trans h.revisions, h'.nextId.trans h.nextId⟩

/-- One journaled write is undone by its entry. -/
theorem journaled_change {t : StateDB} {e : JournalEntry} {o' : StateObject}
    (h : ∀ m : Accounts, m.Equiv (t.accounts.set a (some o')) →
      ∃ m', e.revert m = some m' ∧ m'.Equiv t.accounts) : Journaled t (t.change e a o') := by
  refine ⟨⟨[e], rfl, fun m hm => ?_⟩, rfl, rfl⟩
  obtain ⟨m', hrev, heq⟩ := h m hm
  exact ⟨m', by simp [undoAll, hrev], heq⟩

/-- The account found where a write put one. -/
theorem exists_of_equiv_set {o' : StateObject} (hm : m.Equiv (m'.set a (some o'))) :
    ∃ x, m a = some x ∧ x.normal = o'.normal := by
  have h := hm a
  rw [Accounts.set_self, Option.map_some] at h
  exact Option.map_eq_some_iff.mp h

theorem equiv_off_set (hm : m.Equiv (m'.set a o')) (hb : b ≠ a) :
    (m b).map StateObject.normal = (m' b).map StateObject.normal := by
  have h := hm b
  rwa [Accounts.set_of_ne _ _ hb] at h

section Steps

variable {P Q : Address → StateObject → StateObject → Prop} {s t u : StateDB}

theorem Steps.trans (h : Steps P s t) (h' : Steps P t u) : Steps P s u := by
  induction h' with
  | refl => exact h
  | create _ hnone ih => exact .create ih hnone
  | reset _ hsome hP ih => exact .reset ih hsome hP
  | rewrite _ hsome he hP ih => exact .rewrite ih hsome he hP
  | touch a _ ih => exact .touch a ih
  | pools p _ ih => exact .pools p ih

theorem Steps.mono (h : Steps P s t) (hPQ : ∀ {a o o'}, P a o o' → Q a o o') : Steps Q s t := by
  induction h with
  | refl => exact .refl _
  | create _ hnone ih => exact .create ih hnone
  | reset _ hsome hP ih => exact .reset ih hsome (hPQ hP)
  | rewrite _ hsome he hP ih => exact .rewrite ih hsome he (hPQ hP)
  | touch a _ ih => exact .touch a ih
  | pools p _ ih => exact .pools p ih

/-- The journal undoes whatever a state function did. -/
theorem Steps.journaled (h : Steps P s t) : Journaled s t := by
  induction h with
  | refl => exact .refl _
  | @create t a _ hnone ih =>
    refine ih.trans (journaled_change fun m hm => ⟨_, rfl, ?_⟩)
    rw [← Accounts.set_eq_self hnone]
    exact Accounts.Equiv.set rfl fun b hb => equiv_off_set hm hb
  | @reset t a o _ hsome _ ih =>
    refine ih.trans (journaled_change fun m hm => ⟨_, rfl, ?_⟩)
    rw [← Accounts.set_eq_self hsome]
    exact Accounts.Equiv.set rfl fun b hb => equiv_off_set hm hb
  | @rewrite t a o o' e _ hsome he _ ih =>
    obtain ⟨f, hrev, hback⟩ := he
    refine ih.trans (journaled_change fun m hm => ?_)
    obtain ⟨x, hx, hnormal⟩ := exists_of_equiv_set hm
    refine ⟨_, hrev m x hx, ?_⟩
    rw [← Accounts.set_eq_self hsome]
    exact Accounts.Equiv.set (congrArg some (hback x hnormal)) fun b hb => equiv_off_set hm hb
  | @touch t a _ ih =>
    exact ih.trans ⟨⟨[_], rfl, fun m hm => ⟨m, rfl, hm⟩⟩, rfl, rfl⟩
  | @pools t p _ ih => exact ⟨ih.logged, ih.revisions, ih.nextId⟩

theorem Steps.exist (h : Steps P s t) (ha : (s.accounts a).isSome) : (t.accounts a).isSome := by
  induction h with
  | refl => exact ha
  | @create t b _ _ ih | @reset t b o _ _ _ ih | @rewrite t b o o' e _ _ _ _ ih =>
    by_cases hab : a = b
    · subst hab; simp [change]
    · simpa [change, Accounts.set, hab] using ih
  | touch _ _ ih => exact ih
  | pools _ _ ih => exact ih

/-! ## Fields -/

/-- A field of the account at an address; an absent account has the fresh one's. -/
def view {β : Type} (f : StateObject → β) (s : StateDB) (a : Address) : β :=
  match s.accounts a with
  | some o => f o
  | none => f .fresh

theorem view_change_self (f : StateObject → β) (s : StateDB) (e : JournalEntry) (a : Address)
    (o : StateObject) : view f (s.change e a o) a = f o := by
  simp [view, change]

theorem view_change_of_ne (f : StateObject → β) (s : StateDB) (e : JournalEntry) (o : StateObject)
    (h : b ≠ a) : view f (s.change e a o) b = view f s b := by
  simp [view, change, Accounts.set, h]

theorem view_of_some (f : StateObject → β) {s : StateDB} {o : StateObject}
    (h : s.accounts a = some o) : view f s a = f o := by
  simp [view, h]

theorem view_of_none (f : StateObject → β) {s : StateDB} (h : s.accounts a = none) :
    view f s a = f .fresh := by
  simp [view, h]

/-- A field no rewriting at an address changes keeps its value there. -/
theorem Steps.view_eq_at (h : Steps P s t) (hP : ∀ {o o'}, P a o o' → f o' = f o) :
    view f t a = view f s a := by
  induction h with
  | refl => rfl
  | @create t b _ hnone ih =>
    by_cases hab : a = b
    · subst hab; rw [view_change_self, ← ih, view_of_none f hnone]
    · rw [view_change_of_ne f t _ _ hab, ih]
  | @reset t b o _ hsome hPo ih =>
    by_cases hab : a = b
    · subst hab; rw [view_change_self, ← ih, view_of_some f hsome, hP hPo]
    · rw [view_change_of_ne f t _ _ hab, ih]
  | @rewrite t b o o' e _ hsome _ hPo ih =>
    by_cases hab : a = b
    · subst hab; rw [view_change_self, ← ih, view_of_some f hsome, hP hPo]
    · rw [view_change_of_ne f t _ _ hab, ih]
  | touch _ _ ih => exact ih
  | pools _ _ ih => exact ih

theorem Steps.view_eq (h : Steps P s t) (hP : ∀ {a o o'}, P a o o' → f o' = f o) (a : Address) :
    view f t a = view f s a :=
  h.view_eq_at hP

/-- What every fresh account has and every rewriting keeps, every account keeps. -/
theorem Steps.forall_accounts {I : Address → StateObject → Prop} (h : Steps P s t)
    (hfresh : ∀ a, I a .fresh) (hP : ∀ {a o o'}, P a o o' → I a o → I a o')
    (hs : ∀ a o, s.accounts a = some o → I a o) : ∀ a o, t.accounts a = some o → I a o := by
  induction h with
  | refl => exact hs
  | @create t b _ hnone ih =>
    intro a o ha
    by_cases hab : a = b
    · subst hab
      simp only [change, Accounts.set_self, Option.some.injEq] at ha
      exact ha ▸ hfresh a
    · exact ih a o (by simpa [change, Accounts.set, hab] using ha)
  | @reset t b o' _ hsome hPo ih =>
    intro a o ha
    by_cases hab : a = b
    · subst hab
      simp only [change, Accounts.set_self, Option.some.injEq] at ha
      exact ha ▸ hP hPo (ih a o' hsome)
    · exact ih a o (by simpa [change, Accounts.set, hab] using ha)
  | @rewrite t b o' o'' e _ hsome _ hPo ih =>
    intro a o ha
    by_cases hab : a = b
    · subst hab
      simp only [change, Accounts.set_self, Option.some.injEq] at ha
      exact ha ▸ hP hPo (ih a o' hsome)
    · exact ih a o (by simpa [change, Accounts.set, hab] using ha)
  | touch _ _ ih => exact ih
  | pools _ _ ih => exact ih

end Steps

end StateDB

end Wormholes
