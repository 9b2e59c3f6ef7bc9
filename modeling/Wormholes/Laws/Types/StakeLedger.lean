import Wormholes.Laws.Types.Stake

/-!
# Laws.Types.StakeLedger — the stake lists refine one ledger

`StakerList` and `ValidatorList` are written apart: one sorts after every change, the other does not
after a removal, and they compare a balance with the removed amount differently. The ledger is what
both are for: per account, nothing or a balance, and a removal of at least the balance leaves nothing.
`Refines l m` says that a list holds the balances of the ledger `m`, strictly increasing by address.
One operation keeps it (`Refines.add`, `Refines.remove`), and on such a list both removals are the
same, so a run of operations leaves both lists equal and refining the ledger of the run.
-/

namespace Wormholes

variable (tokens : List PledgedToken)

namespace StakedList

variable {l : List Staked} {a b : Address}

/-- Strictly increasing by address. -/
def Ordered (l : List Staked) : Prop := l.Pairwise fun u v => u.addr.toNat < v.addr.toNat

/-- The balance of the first entry of an address, if there is one. -/
def held (l : List Staked) (a : Address) : Option ℤ :=
  (l.find? fun v => v.addr = a).map Staked.balance

/-! ## Order -/

theorem Ordered.once (h : Ordered l) : Once l := by
  refine List.pairwise_map.mpr (h.imp fun hlt heq => ?_)
  rw [heq] at hlt
  exact lt_irrefl _ hlt

theorem ordered_sorted (hl : Once l) : Ordered (sorted l) := by
  have htotal : Std.Total fun u v : Staked => u.addr.toNat ≤ v.addr.toNat :=
    ⟨fun u v => le_total u.addr.toNat v.addr.toNat⟩
  have htrans : IsTrans Staked fun u v => u.addr.toNat ≤ v.addr.toNat :=
    ⟨fun _ _ _ huv hvw => huv.trans hvw⟩
  have hle : (sorted l).Pairwise fun u v => u.addr.toNat ≤ v.addr.toNat :=
    List.pairwise_insertionSort _ l
  have hne : (sorted l).Pairwise fun u v => u.addr ≠ v.addr :=
    List.pairwise_map.mp (once_sorted hl)
  refine (hle.and hne).imp fun h => ?_
  exact lt_of_le_of_ne h.1 fun heq => h.2 (BitVec.toNat_inj.mp heq)

theorem Ordered.sorted_eq (h : Ordered l) : sorted l = l := by
  refine List.Perm.eq_of_pairwise ?_ (ordered_sorted h.once) h (sorted_perm l)
  intro u v _ _ huv hvu
  exact absurd huv (Nat.lt_asymm hvu)

theorem Ordered.removeFirst (h : Ordered l) (a : Address) :
    Ordered (updateFirst l a fun _ => none) :=
  h.sublist (removeFirst_sublist l a)

/-! ## Balances -/

theorem held_cons (v : Staked) (rest : List Staked) (a : Address) :
    held (v :: rest) a = if v.addr = a then some v.balance else held rest a := by
  by_cases hv : v.addr = a
  · simp [held, hv]
  · simp [held, hv]

theorem held_eq_some_iff (hl : Once l) {x : ℤ} : held l a = some x ↔ (⟨a, x⟩ : Staked) ∈ l := by
  induction l with
  | nil => simp [held]
  | cons v rest ih =>
    obtain ⟨hv, hrest⟩ := List.nodup_cons.mp hl
    rw [held_cons]
    split
    next hva =>
      subst hva
      constructor
      · intro h
        cases h
        exact List.mem_cons_self
      · intro h
        rcases List.mem_cons.mp h with heq | hmem
        · rw [← heq]
        · exact absurd (List.mem_map_of_mem hmem) hv
    next hva =>
      rw [ih hrest, List.mem_cons]
      refine ⟨Or.inr, fun h => h.resolve_left fun heq => ?_⟩
      exact hva (congrArg Staked.addr heq).symm

theorem held_eq_none_iff : held l a = none ↔ exist l a = false := by
  simp [held, exist]

theorem held_perm {l' : List Staked} (hl : Once l) (h : l'.Perm l) : held l' a = held l a := by
  ext x
  rw [held_eq_some_iff (hl.perm h), held_eq_some_iff hl, h.mem_iff]

theorem held_updateFirst (f : ℤ → ℤ) :
    held (updateFirst l a fun v => some { v with balance := f v.balance }) b =
      if b = a then (held l a).map f else held l b := by
  induction l with
  | nil => simp [updateFirst, held]
  | cons v rest ih =>
    rw [updateFirst]
    by_cases hva : v.addr = a
    · subst hva
      by_cases hb : b = v.addr
      · subst hb
        simp [held_cons]
      · simp [held_cons, hb, Ne.symm hb]
    · rw [if_neg hva, held_cons, ih, held_cons, held_cons, if_neg hva]
      by_cases hb : b = a
      · subst hb
        simp [hva]
      · simp [hb]

theorem held_removeFirst (hl : Once l) :
    held (updateFirst l a fun _ => none) b = if b = a then none else held l b := by
  induction l with
  | nil => simp [updateFirst, held]
  | cons v rest ih =>
    obtain ⟨hv, hrest⟩ := List.nodup_cons.mp hl
    rw [updateFirst]
    by_cases hva : v.addr = a
    · subst hva
      have hgone : held rest v.addr = none := by
        rw [held_eq_none_iff, Bool.eq_false_iff]
        exact fun hexist => hv (exist_iff.mp hexist)
      by_cases hb : b = v.addr
      · subst hb
        simpa using hgone
      · simp [held_cons, hb, Ne.symm hb]
    · rw [if_neg hva, held_cons, ih hrest, held_cons]
      by_cases hb : b = a
      · subst hb
        simp [hva]
      · simp [hb]

theorem held_append_new (hnew : exist l a = false) (x : ℤ) :
    held (l ++ [⟨a, x⟩]) b = if b = a then some x else held l b := by
  by_cases hb : b = a
  · subst hb
    have hnone : l.find? (fun v => decide (v.addr = b)) = none :=
      Option.map_eq_none_iff.mp (held_eq_none_iff.mpr hnew)
    simp [held, List.find?_append, hnone]
  · simp [held, List.find?_append, hb, Ne.symm hb]

/-! ## Operations -/

theorem once_updateBalance (hl : Once l) (f : ℤ → ℤ) :
    Once (updateFirst l a fun v => some { v with balance := f v.balance }) := by
  unfold Once
  rw [map_addr_updateFirst f]
  exact hl

theorem ordered_add (h : Ordered l) (a : Address) (x : ℤ) : Ordered (add l a x) := by
  unfold add
  split
  · exact ordered_sorted (once_updateBalance h.once fun y => y + x)
  next hnew =>
    refine ordered_sorted ?_
    have honce := once_add h.once a x
    rw [add, if_neg hnew] at honce
    exact honce.perm (sorted_perm _).symm

theorem held_add (hl : Once l) (a : Address) (x : ℤ) (b : Address) :
    held (add l a x) b = if b = a then some ((held l a).getD 0 + x) else held l b := by
  have honce := once_add hl a x
  unfold add at honce ⊢
  split
  next hold =>
    have hupdated := once_updateBalance (a := a) hl fun y => y + x
    obtain ⟨y, hy⟩ : ∃ y, held l a = some y := by
      refine Option.ne_none_iff_exists'.mp fun hnone => ?_
      rw [held_eq_none_iff, hold] at hnone
      cases hnone
    rw [held_perm hupdated (sorted_perm _), held_updateFirst fun y => y + x, hy]
    rfl
  next hnew =>
    have hfresh : exist l a = false := Bool.eq_false_iff.mpr hnew
    rw [if_neg hnew] at honce
    rw [held_perm (honce.perm (sorted_perm _).symm) (sorted_perm _), held_append_new hfresh,
      held_eq_none_iff.mpr hfresh]
    simp

/-- On an ordered list the two removals are one. -/
theorem Ordered.removeValidator_eq (h : Ordered l) (a : Address) (x : ℤ) :
    removeValidator l a x = removeStaker l a x := by
  unfold removeValidator removeStaker
  split
  · rfl
  · split
    · rfl
    · exact (h.removeFirst a).sorted_eq.symm

theorem ordered_removeStaker (h : Ordered l) (a : Address) (x : ℤ) :
    Ordered (removeStaker l a x) := by
  unfold removeStaker
  split
  · exact h
  · split
    · exact ordered_sorted (once_updateBalance h.once fun y => y - x)
    · exact ordered_sorted (h.removeFirst a).once

theorem held_removeStaker (hl : Once l) (a : Address) (x : ℤ) (b : Address) :
    held (removeStaker l a x) b =
      if b = a then (held l a).bind fun y => if x < y then some (y - x) else none
      else held l b := by
  unfold removeStaker
  split
  next hnone =>
    have hheld : held l a = none := Option.map_eq_none_iff.mpr hnone
    by_cases hb : b = a
    · rw [if_pos hb, hb, hheld]
      rfl
    · rw [if_neg hb]
  next v hv =>
    have hheld : held l a = some v.balance := Option.map_eq_some_iff.mpr ⟨v, hv, rfl⟩
    rw [hheld, Option.bind_some]
    by_cases hmore : x < v.balance
    · rw [if_pos hmore, if_pos hmore, held_perm (once_updateBalance hl fun y => y - x) (sorted_perm _),
        held_updateFirst fun y => y - x, hheld]
      rfl
    · rw [if_neg hmore, if_neg hmore, held_perm (once_removeFirst hl) (sorted_perm _),
        held_removeFirst hl]

end StakedList

/-! ## The ledger -/

open StakedList

/-- What an operation makes of the balance of the account `a`. -/
def settle (a : Address) (balance : Option ℤ) (t : PledgedToken) : Option ℤ :=
  if a ≠ t.address then balance
  else if t.flag then some (balance.getD 0 + t.amount)
  else balance.bind fun y => if t.amount < y then some (y - t.amount) else none

/-- Where the balance after an operation comes from. -/
theorem settle_eq_some {a : Address} {balance : Option ℤ} {t : PledgedToken} {x : ℤ}
    (h : settle a balance t = some x) :
    balance = some x ∨ (t.flag = true ∧ x = balance.getD 0 + t.amount) ∨
      ∃ y, balance = some y ∧ t.amount < y ∧ x = y - t.amount := by
  unfold settle at h
  split at h
  · exact Or.inl h
  · split at h
    next hflag =>
      cases h
      exact Or.inr (Or.inl ⟨hflag, rfl⟩)
    · obtain ⟨y, hbalance, hy⟩ := Option.bind_eq_some_iff.mp h
      split at hy
      next hlt =>
        cases hy
        exact Or.inr (Or.inr ⟨y, hbalance, hlt, rfl⟩)
      · cases hy

/-- The balances a sequence of operations leaves, from none on. -/
def ledger (a : Address) : Option ℤ := tokens.foldl (settle a) none

theorem ledger_append (t : PledgedToken) (a : Address) :
    ledger (tokens ++ [t]) a = settle a (ledger tokens a) t := by
  simp [ledger]

/-- The list holds the balances of the ledger, strictly increasing by address. -/
structure Refines (l : List Staked) (m : Address → Option ℤ) : Prop where
  ordered : Ordered l
  held : ∀ a, held l a = m a

variable {l : List Staked} {m : Address → Option ℤ}

theorem refines_nil : Refines [] fun _ => none := ⟨List.Pairwise.nil, fun _ => rfl⟩

/-- The stakers' list after one operation. -/
theorem Refines.step (h : Refines l m) (t : PledgedToken) :
    Refines (if t.flag then add l t.address t.amount else removeStaker l t.address t.amount)
      fun a => settle a (m a) t := by
  constructor
  · split
    · exact ordered_add h.ordered _ _
    · exact ordered_removeStaker h.ordered _ _
  · intro a
    have hrest : a ≠ t.address → settle a (m a) t = StakedList.held l a := fun ha => by
      rw [settle, if_pos ha, h.held]
    split
    next hflag =>
      rw [held_add h.ordered.once]
      by_cases ha : a = t.address
      · rw [if_pos ha, settle, if_neg (not_not_intro ha), if_pos hflag, h.held, ha]
      · rw [if_neg ha, hrest ha]
    next hflag =>
      rw [held_removeStaker h.ordered.once]
      by_cases ha : a = t.address
      · rw [if_pos ha, settle, if_neg (not_not_intro ha), if_neg hflag, h.held, ha]
      · rw [if_neg ha, hrest ha]

/-- The stakers' list after a run of operations is the run's ledger. -/
theorem foldStakers_refines : Refines (foldStakers [] tokens) (ledger tokens) := by
  induction tokens using List.reverseRecOn with
  | nil => exact refines_nil
  | append_singleton tokens t ih =>
    have hledger : ledger (tokens ++ [t]) = fun a => settle a (ledger tokens a) t :=
      funext fun a => ledger_append tokens t a
    rw [foldStakers_append, hledger]
    exact ih.step t

theorem foldValidators_eq : foldValidators [] tokens = foldStakers [] tokens := by
  induction tokens using List.reverseRecOn with
  | nil => rfl
  | append_singleton tokens t ih =>
    rw [foldValidators_append, foldStakers_append, ih,
      (foldStakers_refines tokens).ordered.removeValidator_eq]

/-- Amounts that are not negative leave no negative balance, and positive ones leave positive
balances. -/
theorem ledger_ge {tokens : List PledgedToken} {c : ℤ} (hc : 0 ≤ c) (hone : c ≤ 1)
    (hge : ∀ t ∈ tokens, c ≤ t.amount) {a : Address} {x : ℤ} (h : ledger tokens a = some x) :
    c ≤ x := by
  induction tokens using List.reverseRecOn generalizing x with
  | nil => cases h
  | append_singleton tokens t ih =>
    have ih' : ∀ {y}, ledger tokens a = some y → c ≤ y :=
      ih fun t ht => hge t (List.mem_append_left _ ht)
    have ht : c ≤ t.amount := hge t (List.mem_append_right _ List.mem_cons_self)
    rcases settle_eq_some (ledger_append tokens t a ▸ h) with hsame | ⟨-, rfl⟩ | ⟨y, -, hlt, rfl⟩
    · exact ih' hsame
    · cases hbefore : ledger tokens a with
      | none => simpa using ht
      | some y =>
        have hy := ih' hbefore
        simp only [Option.getD_some]
        omega
    · omega

/-- Both lists hold the ledger of the operations, strictly increasing by address and with positive
balances only. -/
theorem stake_lists_hold_ledger {tokens : List PledgedToken} (hpos : ∀ t ∈ tokens, 0 < t.amount) :
    Ordered (foldStakers [] tokens) ∧ Ordered (foldValidators [] tokens) ∧
      (∀ v, v ∈ foldStakers [] tokens ↔ v ∈ foldValidators [] tokens) ∧
      (∀ v ∈ foldStakers [] tokens, 0 < v.balance) ∧
      ∀ a x, (⟨a, x⟩ : Staked) ∈ foldStakers [] tokens ↔ ledger tokens a = some x := by
  have hrefines := foldStakers_refines tokens
  have hmem : ∀ a x, (⟨a, x⟩ : Staked) ∈ foldStakers [] tokens ↔ ledger tokens a = some x := by
    intro a x
    rw [← held_eq_some_iff hrefines.ordered.once, hrefines.held]
  rw [foldValidators_eq]
  refine ⟨hrefines.ordered, hrefines.ordered, fun _ => Iff.rfl, fun v hv => ?_, hmem⟩
  exact ledger_ge (by decide) le_rfl hpos ((hmem v.addr v.balance).mp hv)

/-- Two accounts stake, one of them removes more than it has. -/
theorem stake_lists_hold_ledger_pair :
    foldStakers [] [⟨2, 5, true⟩, ⟨1, 3, true⟩, ⟨2, 7, false⟩] = [⟨1, 3⟩] ∧
      ledger [⟨2, 5, true⟩, ⟨1, 3, true⟩, ⟨2, 7, false⟩] 1 = some 3 := by
  have hpos : ∀ t ∈ ([⟨2, 5, true⟩, ⟨1, 3, true⟩, ⟨2, 7, false⟩] : List PledgedToken),
      0 < t.amount := by
    simp
  have hlist : foldStakers [] [⟨2, 5, true⟩, ⟨1, 3, true⟩, ⟨2, 7, false⟩] = [⟨1, 3⟩] := by
    decide +kernel
  refine ⟨hlist, ((stake_lists_hold_ledger hpos).2.2.2.2 1 3).mp ?_⟩
  rw [hlist]
  exact List.mem_cons_self

end Wormholes
