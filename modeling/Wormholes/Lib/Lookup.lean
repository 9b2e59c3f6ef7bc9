import Wormholes.Lib.Blocks

/-!
# Lib.Lookup — the first block above a position

A position is looked up in a forest by walking from its own block start to those of the levels above,
up to a top level. The walk ends at the first recorded block that holds the position, and goes on only
while the block starts it visits are live. The forests here need not be well formed: blocks may overlap,
and the lower one is found. `Finds` is the result of the walk; the laws say what recording a block,
joining blocks and carving a block out of another do to it.
-/

namespace Wormholes.Lib.Forest

variable {O : Type} {b top : ℕ} {live live' : ℕ → Prop} {f f' : Forest O} {x k : ℕ} {o : O}
variable {A j e : ℕ} {o' : O}

/-! ## Walks -/

/-- The walk from `x` comes to level `k`. -/
structure Passes (b : ℕ) (live : ℕ → Prop) (f : Forest O) (x k : ℕ) : Prop where
  live : ∀ e ≤ k, live (blockStart b e x)
  free : ∀ e < k, ∀ o, ¬ Covers b f x e o

/-- The walk from `x` ends at a block of level `k` and owner `o`. -/
structure Finds (b top : ℕ) (live : ℕ → Prop) (f : Forest O) (x k : ℕ) (o : O) : Prop where
  depth : k ≤ top
  passes : Passes b live f x k
  covers : Covers b f x k o

theorem Covers.unique (h : Covers b f x k o) (h' : Covers b f x k o') : o = o' := by
  unfold Covers at h h'
  rw [h] at h'
  exact congrArg Prod.snd (Option.some.inj h')

theorem Passes.mono (h : Passes b live f x k) (hj : j ≤ k) : Passes b live f x j where
  live e he := h.live e (Nat.le_trans he hj)
  free e he := h.free e (Nat.lt_of_lt_of_le he hj)

theorem Passes.grow (h : Passes b live f x k) (hlive : ∀ n, live n → live' n) :
    Passes b live' f x k where
  live e he := hlive _ (h.live e he)
  free := h.free

/-- What a walk sees below a level decides whether it comes there. -/
theorem Passes.congr (hlive : ∀ e ≤ k, live' (blockStart b e x) ↔ live (blockStart b e x))
    (hcovers : ∀ e < k, ∀ p, Covers b f' x e p ↔ Covers b f x e p) :
    Passes b live' f' x k ↔ Passes b live f x k := by
  constructor
  · intro h
    exact ⟨fun e he => (hlive e he).mp (h.live e he),
      fun e he p hp => h.free e he p ((hcovers e he p).mpr hp)⟩
  · intro h
    exact ⟨fun e he => (hlive e he).mpr (h.live e he),
      fun e he p hp => h.free e he p ((hcovers e he p).mp hp)⟩

/-- A walk does not pass a block. -/
theorem Finds.le_of_covers (h : Finds b top live f x k o) (hj : Covers b f x j o') : k ≤ j := by
  by_contra hlt
  exact h.passes.free j (by omega) o' hj

theorem Finds.unique {k' : ℕ} (h : Finds b top live f x k o) (h' : Finds b top live f x k' o') :
    k = k' ∧ o = o' := by
  obtain rfl : k = k' := Nat.le_antisymm (h.le_of_covers h'.covers) (h'.le_of_covers h.covers)
  exact ⟨rfl, h.covers.unique h'.covers⟩

theorem Finds.grow (h : Finds b top live f x k o) (hlive : ∀ n, live n → live' n) :
    Finds b top live' f x k o :=
  ⟨h.depth, h.passes.grow hlive, h.covers⟩

/-- What a walk sees up to a level decides whether it ends there. -/
theorem Finds.congr_below (hlive : ∀ e ≤ j, live' (blockStart b e x) ↔ live (blockStart b e x))
    (hcovers : ∀ e ≤ j, ∀ p, Covers b f' x e p ↔ Covers b f x e p) (hk : k ≤ j) :
    Finds b top live' f' x k o ↔ Finds b top live f x k o := by
  have hpasses : Passes b live' f' x k ↔ Passes b live f x k :=
    Passes.congr (fun e he => hlive e (by omega)) fun e he => hcovers e (by omega)
  constructor
  · intro h
    exact ⟨h.depth, hpasses.mp h.passes, (hcovers k hk o).mp h.covers⟩
  · intro h
    exact ⟨h.depth, hpasses.mpr h.passes, (hcovers k hk o).mpr h.covers⟩

theorem Finds.congr (hlive : ∀ e ≤ top, live' (blockStart b e x) ↔ live (blockStart b e x))
    (hcovers : ∀ e ≤ top, ∀ p, Covers b f' x e p ↔ Covers b f x e p) :
    Finds b top live' f' x k o ↔ Finds b top live f x k o := by
  by_cases hk : k ≤ top
  · exact Finds.congr_below hlive hcovers hk
  · exact iff_of_false (fun h => hk h.depth) fun h => hk h.depth

/-! ## Recording a block -/

/-- The walk from `x` comes to the start `A` at level `j`. -/
def Reaches (b top : ℕ) (live : ℕ → Prop) (f : Forest O) (A j x : ℕ) : Prop :=
  j ≤ top ∧ Passes b live f x j ∧ blockStart b j x = A

theorem covers_update {N p : O} :
    Covers b (Function.update f A (some (j, N))) x e p ↔
      (blockStart b e x = A ∧ e = j ∧ p = N) ∨ (blockStart b e x ≠ A ∧ Covers b f x e p) := by
  unfold Covers
  by_cases hA : blockStart b e x = A
  · rw [hA, Function.update_self]
    constructor
    · intro h
      cases h
      exact Or.inl ⟨rfl, rfl, rfl⟩
    · intro h
      rcases h with ⟨-, rfl, rfl⟩ | ⟨hne, -⟩
      · rfl
      · exact absurd rfl hne
  · rw [Function.update_of_ne hA]
    constructor
    · intro h
      exact Or.inr ⟨hA, h⟩
    · intro h
      rcases h with ⟨heq, -⟩ | ⟨-, h⟩
      · exact absurd heq hA
      · exact h

section Record

variable {A j : ℕ} {N : O} (hA : ∀ l p, f A = some (l, p) → l = j)
include hA

/-- Whoever comes to the start finds the recorded block. -/
theorem Reaches.finds_update (h : Reaches b top live f A j x) :
    Finds b top live (Function.update f A (some (j, N))) x j N := by
  obtain ⟨hj, hpasses, hstart⟩ := h
  refine ⟨hj, ⟨hpasses.live, fun e he p hp => ?_⟩, covers_update.mpr (Or.inl ⟨hstart, rfl, rfl⟩)⟩
  rcases covers_update.mp hp with ⟨-, rfl, -⟩ | ⟨-, hp⟩
  · omega
  · exact hpasses.free e he p hp

/-- Nobody else notices. -/
theorem finds_update_iff (h : ¬ Reaches b top live f A j x) :
    Finds b top live (Function.update f A (some (j, N))) x k o ↔ Finds b top live f x k o := by
  constructor
  · intro hfinds
    have hpasses : Passes b live f x k := by
      refine ⟨hfinds.passes.live, fun e he p hp => ?_⟩
      by_cases hstart : blockStart b e x = A
      · obtain rfl : e = j := hA e p (hstart ▸ hp)
        exact hfinds.passes.free e he N (covers_update.mpr (Or.inl ⟨hstart, rfl, rfl⟩))
      · exact hfinds.passes.free e he p (covers_update.mpr (Or.inr ⟨hstart, hp⟩))
    rcases covers_update.mp hfinds.covers with ⟨hstart, rfl, -⟩ | ⟨-, hcovers⟩
    · exact absurd ⟨hfinds.depth, hpasses, hstart⟩ h
    · exact ⟨hfinds.depth, hpasses, hcovers⟩
  · intro hfinds
    have hne : ∀ e ≤ k, e = j → blockStart b e x ≠ A := by
      rintro e he rfl hstart
      exact h ⟨Nat.le_trans he hfinds.depth, hfinds.passes.mono he, hstart⟩
    refine ⟨hfinds.depth, ⟨hfinds.passes.live, fun e he p hp => ?_⟩, ?_⟩
    · rcases covers_update.mp hp with ⟨hstart, hej, -⟩ | ⟨-, hp⟩
      · exact hne e (by omega) hej hstart
      · exact hfinds.passes.free e he p hp
    · refine covers_update.mpr (Or.inr ⟨fun hstart => ?_, hfinds.covers⟩)
      exact hne k le_rfl (hA k o (hstart ▸ hfinds.covers)) hstart

/-- The same walks come to the start. -/
theorem reaches_update_iff :
    Reaches b top live (Function.update f A (some (j, N))) A j x ↔ Reaches b top live f A j x := by
  refine and_congr_right fun _ => and_congr_left fun _ =>
    Passes.congr (fun _ _ => Iff.rfl) fun e he p => ?_
  rw [covers_update, or_iff_right (fun h => by have := h.2.1; omega)]
  refine and_iff_right_of_imp fun hp hstart => ?_
  have hej : e = j := hA e p (hstart ▸ hp)
  omega

end Record

/-- Recording a block does not complete its own siblings. -/
theorem completes_update_iff {n : ℕ} {v : Option (ℕ × O)} {w : O} (hb : 0 < b) :
    Completes b (Function.update f A v) A j w n ↔ Completes b f A j w n := by
  have hne : ∀ d i, i < b → blockStart b (d + 1) A + i * b ^ d ≠ blockStart b d A →
      blockStart b (d + 1) A + i * b ^ d ≠ A := by
    intro d i hi hchild heq
    have haligned : b ^ d ∣ A := heq ▸ dvd_child (dvd_blockStart b (d + 1) A) i
    exact hchild (heq.trans (blockStart_self hb haligned).symm)
  constructor
  · intro h d hd hlt i hi hchild
    have hentry := h d hd hlt i hi hchild
    rwa [Function.update_of_ne (hne d i hi hchild)] at hentry
  · intro h d hd hlt i hi hchild
    rw [Function.update_of_ne (hne d i hi hchild)]
    exact h d hd hlt i hi hchild

/-- The walk from `x` ends at a block of `o`. -/
def Yields (b top : ℕ) (live : ℕ → Prop) (f : Forest O) (x : ℕ) (o : O) : Prop :=
  ∃ k, Finds b top live f x k o

theorem Yields.unique (h : Yields b top live f x o) (h' : Yields b top live f x o') : o = o' := by
  obtain ⟨k, hk⟩ := h
  obtain ⟨k', hk'⟩ := h'
  exact (hk.unique hk').2

theorem Yields.grow (h : Yields b top live f x o) (hlive : ∀ n, live n → live' n) :
    Yields b top live' f x o := by
  obtain ⟨k, hk⟩ := h
  exact ⟨k, hk.grow hlive⟩

/-- Recording a block: whoever comes to its start is its owner's, and for the others nothing
changes. -/
theorem yields_update_iff {N : O} (hA : ∀ l p, f A = some (l, p) → l = j) :
    Yields b top live (Function.update f A (some (j, N))) x o ↔
      (Reaches b top live f A j x ∧ o = N) ∨
        (¬ Reaches b top live f A j x ∧ Yields b top live f x o) := by
  by_cases hreaches : Reaches b top live f A j x
  · have hfinds := hreaches.finds_update (N := N) hA
    constructor
    · intro h
      exact Or.inl ⟨hreaches, h.unique ⟨j, hfinds⟩⟩
    · intro h
      rcases h with ⟨-, rfl⟩ | ⟨hnot, -⟩
      · exact ⟨j, hfinds⟩
      · exact absurd hreaches hnot
  · constructor
    · intro h
      obtain ⟨k, hk⟩ := h
      exact Or.inr ⟨hreaches, k, (finds_update_iff hA hreaches).mp hk⟩
    · intro h
      rcases h with ⟨hyes, -⟩ | ⟨-, k, hk⟩
      · exact absurd hyes hreaches
      · exact ⟨k, (finds_update_iff hA hreaches).mpr hk⟩

/-- The owner of the smallest block around a position. -/
def ownerAt (b top : ℕ) (f : Forest O) (x : ℕ) : Option O :=
  ((List.range (top + 1)).find? fun k => (f (blockStart b k x)).map Prod.fst = some k).bind fun k =>
    (f (blockStart b k x)).map Prod.snd

/-- It is who a walk finds that nothing but a block stops. -/
theorem ownerAt_eq_some_iff : ownerAt b top f x = some o ↔ Yields b top (fun _ => True) f x o := by
  have hlevel : ∀ k, (f (blockStart b k x)).map Prod.fst = some k ↔ ∃ p, Covers b f x k p := by
    intro k
    simp [Covers, Option.map_eq_some_iff]
  rw [ownerAt, Option.bind_eq_some_iff]
  refine exists_congr fun k => ?_
  rw [List.find?_range_eq_some]
  simp only [decide_eq_true_eq, Bool.not_eq_true', decide_eq_false_iff_not, hlevel, List.mem_range]
  constructor
  · rintro ⟨⟨⟨p, hp⟩, hk, hfree⟩, ho⟩
    refine ⟨by omega, ⟨fun _ _ => trivial, fun e he q hq => hfree e he ⟨q, hq⟩⟩, ?_⟩
    rw [hp] at ho
    cases ho
    exact hp
  · rintro ⟨hk, hpasses, hcovers⟩
    refine ⟨⟨⟨o, hcovers⟩, by omega, fun e he hex => ?_⟩, ?_⟩
    · obtain ⟨q, hq⟩ := hex
      exact hpasses.free e he q hq
    · rw [hcovers]
      rfl

/-! ## Joining blocks -/

section Join

variable {P l e : ℕ} {w p : O} (hb : 0 < b) (hP : b ^ (l + 1) ∣ P)
  (hall : ∀ i < b, f (P + i * b ^ l) = some (l, w))

include hb hall in
/-- A join is noticed at its own two levels only. -/
theorem covers_join_of_ne (hl : e ≠ l) (hl' : e ≠ l + 1) :
    Covers b (join b P l w f) x e p ↔ Covers b f x e p := by
  have hstart : f P = some (l, w) := by simpa using hall 0 hb
  unfold Covers join
  split_ifs with h₁ h₂
  · rw [h₁, hstart]
    constructor
    · intro h
      cases h
      exact absurd rfl hl'
    · intro h
      cases h
      exact absurd rfl hl
  · obtain ⟨i, hi, hchild⟩ := h₂
    rw [hchild, hall i hi]
    constructor
    · intro h
      cases h
    · intro h
      cases h
      exact absurd rfl hl
  · exact Iff.rfl

include hb hP in
/-- Outside the joined block no walk comes by one of its parts. -/
theorem covers_join_outside (hx : blockStart b (l + 1) x ≠ P) (he : e ≤ l + 1) :
    Covers b (join b P l w f) x e p ↔ Covers b f x e p := by
  have hne : ∀ i < b, blockStart b e x ≠ P + i * b ^ l := by
    intro i hi heq
    rw [← blockStart_blockStart hb he, heq, blockStart_child hb hP hi] at hx
    exact hx rfl
  unfold Covers join
  rw [if_neg (fun h => hne 0 hb (by simpa using h)), if_neg ?_]
  rintro ⟨i, hi, h⟩
  exact hne i hi h

include hb hall in
theorem covers_part (hx : blockStart b (l + 1) x = P) : Covers b f x l w := by
  obtain ⟨i, hi, hchild⟩ := blockStart_mem_children hb hx
  unfold Covers
  rw [hchild]
  exact hall i hi

theorem covers_join (hx : blockStart b (l + 1) x = P) :
    Covers b (join b P l w f) x (l + 1) w := by
  unfold Covers join
  rw [if_pos hx]

include hb in
theorem not_covers_join (hx : blockStart b (l + 1) x = P) : ¬ Covers b (join b P l w f) x l p := by
  obtain ⟨i, hi, hchild⟩ := blockStart_mem_children hb hx
  unfold Covers join
  split_ifs with h₁ h₂
  · intro h
    cases h
  · intro h
    cases h
  · exact absurd ⟨i, hi, hchild⟩ h₂

include hb hall in
/-- Below the joined blocks every walk ends where it ended. -/
theorem finds_join_below (hk : k < l) :
    Finds b top live (join b P l w f) x k o ↔ Finds b top live f x k o :=
  Finds.congr_below (fun _ _ => Iff.rfl)
    (fun _ he _ => covers_join_of_ne hb hall (by omega) (by omega)) (Nat.le_refl k)

include hb hP hall in
/-- A join up to the top level changes no owner. -/
theorem yields_join_iff (hl : l + 1 ≤ top) (hlive : live P) :
    Yields b top live (join b P l w f) x o ↔ Yields b top live f x o := by
  by_cases hx : blockStart b (l + 1) x = P
  · have hpart := covers_part hb hall hx
    constructor
    · rintro ⟨k, hk⟩
      have hle : k ≤ l + 1 := hk.le_of_covers (covers_join hx)
      rcases Nat.lt_trichotomy k l with hlt | rfl | hgt
      · exact ⟨k, (finds_join_below hb hall hlt).mp hk⟩
      · exact absurd hk.covers (not_covers_join hb hx)
      · obtain rfl : k = l + 1 := by omega
        obtain rfl : o = w := hk.covers.unique (covers_join hx)
        refine ⟨l, by omega, ⟨fun e he => hk.passes.live e (by omega), fun e he p hp => ?_⟩, hpart⟩
        exact hk.passes.free e (by omega) p
          ((covers_join_of_ne hb hall (by omega) (by omega)).mpr hp)
    · rintro ⟨k, hk⟩
      have hle : k ≤ l := hk.le_of_covers hpart
      rcases Nat.lt_or_eq_of_le hle with hlt | rfl
      · exact ⟨k, (finds_join_below hb hall hlt).mpr hk⟩
      · obtain rfl : o = w := hk.covers.unique hpart
        refine ⟨k + 1, hl, ⟨fun e he => ?_, fun e he p hp => ?_⟩, covers_join hx⟩
        · rcases Nat.lt_or_eq_of_le he with hlt | rfl
          · exact hk.passes.live e (by omega)
          · rwa [hx]
        · rcases Nat.lt_or_eq_of_le (Nat.le_of_lt_succ he) with hlt | rfl
          · exact hk.passes.free e hlt p
              ((covers_join_of_ne hb hall (by omega) (by omega)).mp hp)
          · exact not_covers_join hb hx hp
  · refine exists_congr fun k => Finds.congr (fun _ _ => Iff.rfl) fun e _ p => ?_
    by_cases he : e ≤ l + 1
    · exact covers_join_outside hb hP hx he
    · exact covers_join_of_ne hb hall (by omega) (by omega)

include hb hall in
/-- Blocks above the top level are not looked at. -/
theorem yields_join_above (hl : top < l) :
    Yields b top live (join b P l w f) x o ↔ Yields b top live f x o :=
  exists_congr fun _ => Finds.congr (fun _ _ => Iff.rfl)
    fun _ _ _ => covers_join_of_ne hb hall (by omega) (by omega)

include hb hP hall in
/-- A join beyond the top level takes nobody's position to anybody else. -/
theorem Yields.of_join (h : Yields b top live (join b P l w f) x o) (hlive : live P) :
    Yields b top live f x o := by
  by_cases hl : l + 1 ≤ top
  · exact (yields_join_iff hb hP hall hl hlive).mp h
  · by_cases hl' : top < l
    · exact (yields_join_above hb hall hl').mp h
    · obtain ⟨k, hk⟩ := h
      by_cases hx : blockStart b (l + 1) x = P
      · have hne : k ≠ l := by
          rintro rfl
          exact not_covers_join hb hx hk.covers
        exact ⟨k, (finds_join_below hb hall (by have := hk.depth; omega)).mp hk⟩
      · exact ⟨k, (Finds.congr (fun _ _ => Iff.rfl)
          fun e he p => covers_join_outside hb hP hx (by omega)).mp hk⟩

include hb hall in
/-- What is joined beyond the top level is lost. -/
theorem not_yields_join (hl : l = top) (hx : blockStart b (l + 1) x = P)
    (hfinds : Finds b top live f x l w) : ¬ Yields b top live (join b P l w f) x o := by
  rintro ⟨k, hk⟩
  have hne : k ≠ l := by
    rintro rfl
    exact not_covers_join hb hx hk.covers
  have hbelow : k < l := by
    have := hk.depth
    omega
  exact hne ((hfinds.unique ((finds_join_below hb hall hbelow).mp hk)).1).symm

include hb hall in
/-- Who comes to one of the parts comes to the joined block. -/
theorem Reaches.join (h : Reaches b top live f A l x) (hl : l + 1 ≤ top)
    (hA : blockStart b (l + 1) A = P) (hlive : live P) :
    Reaches b top live (join b P l w f) P (l + 1) x := by
  obtain ⟨-, hpasses, hstart⟩ := h
  have hx : blockStart b (l + 1) x = P := by
    rw [← blockStart_blockStart hb (Nat.le_succ l), hstart, hA]
  refine ⟨hl, ⟨fun e he => ?_, fun e he p hp => ?_⟩, hx⟩
  · rcases Nat.lt_or_eq_of_le he with hlt | rfl
    · exact hpasses.live e (by omega)
    · rwa [hx]
  · rcases Nat.lt_or_eq_of_le (Nat.le_of_lt_succ he) with hlt | rfl
    · exact hpasses.free e hlt p ((covers_join_of_ne hb hall (by omega) (by omega)).mp hp)
    · exact not_covers_join hb hx hp

end Join

/-! ## Carving a block out of another -/

/-- `c` starts one of the level-`k` parts of the block one level up around `A`. -/
def PartOf (b A k c : ℕ) : Prop := b ^ k ∣ c ∧ blockStart b (k + 1) c = blockStart b (k + 1) A

theorem partOf_iff (hb : 0 < b) {c : ℕ} :
    PartOf b A k c ↔ ∃ i < b, c = blockStart b (k + 1) A + i * b ^ k := by
  constructor
  · rintro ⟨hdvd, hparent⟩
    obtain ⟨i, hi, hchild⟩ := blockStart_mem_children hb hparent
    rw [blockStart_self hb hdvd] at hchild
    exact ⟨i, hi, hchild⟩
  · rintro ⟨i, hi, rfl⟩
    exact ⟨dvd_child (dvd_blockStart b (k + 1) A) i, blockStart_child hb (dvd_blockStart b _ A) hi⟩

/-- The blocks around `A` below level `m` are cut down to level `d`, all for the owner `w`. What is cut
at several levels is recorded with the lowest. -/
structure CutDown (b : ℕ) (f f' : Forest O) (A d m : ℕ) (w : O) : Prop where
  written : ∀ {c k : ℕ}, d ≤ k → k < m → PartOf b A k c → (∀ j, d ≤ j → j < k → ¬ PartOf b A j c) →
    f' c = some (k, w)
  kept : ∀ {c : ℕ}, (∀ k, d ≤ k → k < m → ¬ PartOf b A k c) → f' c = f c

theorem CutDown.refl (f : Forest O) (A m : ℕ) (w : O) : CutDown b f f A m m w where
  written hd hm := absurd hd (by omega)
  kept _ := rfl

/-- Cutting one level further. -/
theorem CutDown.cut {d m : ℕ} {w : O} (hb : 0 < b) (h : CutDown b f f' A (d + 1) m w) (hd : d < m) :
    CutDown b f (cut b (blockStart b (d + 1) A) d w f') A d m w where
  written {c k} hdk hk hpart hleast := by
    unfold Forest.cut
    rcases Nat.lt_or_eq_of_le hdk with hlt | rfl
    · rw [if_neg fun hchild => hleast d le_rfl hlt ((partOf_iff hb).mpr hchild)]
      exact h.written hlt hk hpart fun j hj hjk => hleast j (by omega) hjk
    · rw [if_pos ((partOf_iff hb).mp hpart)]
  kept {c} hnot := by
    unfold Forest.cut
    rw [if_neg fun hchild => hnot d le_rfl hd ((partOf_iff hb).mpr hchild)]
    exact h.kept fun k hk => hnot k (by omega)

/-- The way from `A` up and the one from `x` up meet right above level `k`. -/
structure Meets (b A d x k : ℕ) : Prop where
  above : d ≤ k
  same : blockStart b (k + 1) x = blockStart b (k + 1) A
  apart : k = d ∨ blockStart b k x ≠ blockStart b k A

theorem exists_meets {d m : ℕ} (hd : d < m) (hm : blockStart b m x = blockStart b m A) :
    ∃ k < m, Meets b A d x k := by
  classical
  have hex : ∃ k, d ≤ k ∧ blockStart b (k + 1) x = blockStart b (k + 1) A :=
    ⟨m - 1, by omega, by rwa [Nat.sub_add_cancel (by omega)]⟩
  have hspec := Nat.find_spec hex
  refine ⟨Nat.find hex, ?_, hspec.1, hspec.2, ?_⟩
  · have hle := Nat.find_min' hex ⟨(by omega : d ≤ m - 1), by rwa [Nat.sub_add_cancel (by omega)]⟩
    omega
  · by_cases hkd : Nat.find hex = d
    · exact Or.inl hkd
    · refine Or.inr fun heq => ?_
      have hlt : Nat.find hex - 1 < Nat.find hex := by omega
      exact Nat.find_min hex hlt ⟨by omega, by rwa [Nat.sub_add_cancel (by omega)]⟩

section Carve

variable {A d m j : ℕ} {w p : O} (hb : 0 < b)

include hb in
/-- Inside the part where the ways meet nothing is cut further. -/
theorem Meets.part_eq (h : Meets b A d x k) {y : ℕ} (hy : blockStart b k y = blockStart b k x)
    (hj : d ≤ j) (hpart : PartOf b A j y) : y = blockStart b k x ∧ k ≤ j := by
  have hkj : k ≤ j := by
    by_contra hlt
    have hsame : blockStart b k x = blockStart b k A := by
      rw [← hy, ← blockStart_blockStart hb (by omega : j + 1 ≤ k) y, hpart.2,
        blockStart_blockStart hb (by omega)]
    rcases h.apart with rfl | hne
    · omega
    · exact hne hsame
  refine ⟨?_, hkj⟩
  rw [← hy, blockStart_self hb (Nat.dvd_trans (Nat.pow_dvd_pow b hkj) hpart.1)]

include hb in
theorem Meets.part (h : Meets b A d x k) : PartOf b A k (blockStart b k x) :=
  ⟨dvd_blockStart b k x, by rw [blockStart_blockStart hb (Nat.le_succ k), h.same]⟩

variable (hcarved : CutDown b f f' A d m w)
  (hlive : ∀ n, live' n ↔ live n ∨ ∃ k, d ≤ k ∧ k < m ∧ PartOf b A k n)

include hb hcarved in
/-- The part where the ways meet is recorded. -/
theorem Meets.covers (h : Meets b A d x k) (hk : k < m) : Covers b f' x k w := by
  refine hcarved.written h.above hk (h.part hb) fun j hj hjk hpart => ?_
  have hself : blockStart b k (blockStart b k x) = blockStart b k x :=
    blockStart_blockStart hb le_rfl x
  have hle := (h.part_eq hb hself hj hpart).2
  omega

include hb hcarved in
/-- Below that level a walk sees what it saw, but for the start of that part. -/
theorem Meets.covers_below (h : Meets b A d x k) (hk : k < m) (he : e < k) :
    Covers b f' x e p ↔ blockStart b e x ≠ blockStart b k x ∧ Covers b f x e p := by
  by_cases hstart : blockStart b e x = blockStart b k x
  · have hat := h.covers hb hcarved hk
    unfold Covers at hat ⊢
    rw [hstart, hat]
    constructor
    · intro heq
      cases heq
      omega
    · intro hboth
      exact absurd rfl hboth.1
  · have hkept : f' (blockStart b e x) = f (blockStart b e x) := by
      refine hcarved.kept fun j hj _ hpart => hstart ?_
      exact (h.part_eq hb (blockStart_blockStart hb (Nat.le_of_lt he) x) hj hpart).1
    unfold Covers
    rw [hkept]
    exact ⟨fun heq => ⟨hstart, heq⟩, fun hboth => hboth.2⟩

include hb hlive in
theorem Meets.live_below (h : Meets b A d x k) (hk : k < m) (he : e ≤ k) :
    live' (blockStart b e x) ↔ live (blockStart b e x) ∨ blockStart b e x = blockStart b k x := by
  rw [hlive]
  refine or_congr_right ⟨?_, fun heq => ?_⟩
  · rintro ⟨j, hj, -, hpart⟩
    exact (h.part_eq hb (blockStart_blockStart hb he x) hj hpart).1
  · rw [heq]
    exact ⟨k, h.above, hk, h.part hb⟩

/-- Nothing stops a walk before the part where the ways meet. -/
def Meets.Clear (b : ℕ) (live : ℕ → Prop) (f : Forest O) (x k : ℕ) : Prop :=
  ∀ e ≤ k, blockStart b e x ≠ blockStart b k x →
    live (blockStart b e x) ∧ ∀ p, ¬ Covers b f x e p

include hb hcarved hlive in
/-- A walk that comes to that part ends there. -/
theorem Meets.finds (h : Meets b A d x k) (hk : k < m) (hm : m ≤ top)
    (hclear : Meets.Clear b live f x k) : Finds b top live' f' x k w := by
  refine ⟨by omega, ⟨fun e he => ?_, fun e he p hp => ?_⟩, h.covers hb hcarved hk⟩
  · rw [h.live_below hb hlive hk he]
    by_cases hstart : blockStart b e x = blockStart b k x
    · exact Or.inr hstart
    · exact Or.inl (hclear e he hstart).1
  · obtain ⟨hstart, hcovers⟩ := (h.covers_below hb hcarved hk he).mp hp
    exact (hclear e (by omega) hstart).2 p hcovers

include hb hcarved hlive in
/-- A walk that does not come to that part ends as before. -/
theorem Meets.yields_iff (h : Meets b A d x k) (hk : k < m) (hnot : ¬ Meets.Clear b live f x k) :
    Yields b top live' f' x o ↔ Yields b top live f x o := by
  unfold Meets.Clear at hnot
  push Not at hnot
  obtain ⟨e, hle, hstart, hstops⟩ := hnot
  have he : e < k := Nat.lt_of_le_of_ne hle fun heq => hstart (by rw [heq])
  -- up to the place where the walk ends it does not see the start of that part
  have hbelow : ∀ i ≤ e, blockStart b i x ≠ blockStart b k x := by
    intro i hi heq
    rw [← blockStart_blockStart hb hi, heq] at hstart
    exact hstart (blockStart_self hb
      (Nat.dvd_trans (Nat.pow_dvd_pow b (Nat.le_of_lt he)) (dvd_blockStart b k x)))
  refine exists_congr fun i => ?_
  by_cases hi : i ≤ e
  · refine Finds.congr_below (fun n hn => ?_) (fun n hn q => ?_) hi
    · rw [h.live_below hb hlive hk (by omega), or_iff_left (hbelow n hn)]
    · rw [h.covers_below hb hcarved hk (by omega), and_iff_right (hbelow n hn)]
  · by_cases hlive' : live (blockStart b e x)
    · obtain ⟨q, hq⟩ := hstops hlive'
      have hq' := (h.covers_below hb hcarved hk he).mpr ⟨hstart, hq⟩
      exact iff_of_false (fun hfinds => hi (hfinds.le_of_covers hq'))
        fun hfinds => hi (hfinds.le_of_covers hq)
    · refine iff_of_false (fun hfinds => hlive' ?_) fun hfinds => hlive' ?_
      · exact ((h.live_below hb hlive hk (by omega)).mp
          (hfinds.passes.live e (by omega))).resolve_right hstart
      · exact hfinds.passes.live e (by omega)

variable (hA : Finds b top live f A m w) (hd : d < m) (hdvd : b ^ d ∣ A)

include hcarved in
/-- What is cut is recorded below the level of the whole. -/
theorem CutDown.level_lt {c : ℕ} (hj : d ≤ j) (hm : j < m) (hpart : PartOf b A j c) :
    ∃ k < m, f' c = some (k, w) := by
  classical
  have hex : ∃ k, d ≤ k ∧ k < m ∧ PartOf b A k c := ⟨j, hj, hm, hpart⟩
  obtain ⟨hspec, hspec', hspec''⟩ := Nat.find_spec hex
  refine ⟨Nat.find hex, hspec', hcarved.written hspec hspec' hspec'' fun i hi hlt hpart' => ?_⟩
  exact Nat.find_min hex hlt ⟨hi, by omega, hpart'⟩

include hb hcarved hlive hA in
/-- Outside the whole nothing changes. -/
theorem CutDown.yields_outside (hx : blockStart b m x ≠ blockStart b m A) :
    Yields b top live' f' x o ↔ Yields b top live f x o := by
  have hinside : ∀ {j y : ℕ}, j < m → PartOf b A j y → blockStart b m y = blockStart b m A := by
    intro j y hj hpart
    rw [← blockStart_blockStart hb (by omega : j + 1 ≤ m), hpart.2, blockStart_blockStart hb hj]
  have hnot : ∀ {e : ℕ}, e ≤ m → ∀ j, d ≤ j → j < m → ¬ PartOf b A j (blockStart b e x) := by
    intro e he j _ hj hpart
    have hsame := hinside hj hpart
    rw [blockStart_blockStart hb he] at hsame
    exact hx hsame
  have hwhole : ∀ {e j : ℕ}, m < e → j < m → PartOf b A j (blockStart b e x) →
      blockStart b e x = blockStart b m A := by
    intro e j he hj hpart
    rw [← hinside hj hpart, blockStart_self hb
      (Nat.dvd_trans (Nat.pow_dvd_pow b (Nat.le_of_lt he)) (dvd_blockStart b e x))]
  refine exists_congr fun i => Finds.congr (fun e _ => ?_) fun e _ q => ?_
  · rw [hlive]
    refine or_iff_left_of_imp ?_
    rintro ⟨j, hj, hjm, hpart⟩
    by_cases he : e ≤ m
    · exact absurd hpart (hnot he j hj hjm)
    · rw [hwhole (by omega) hjm hpart]
      exact hA.passes.live m le_rfl
  · by_cases hcut : ∃ j, d ≤ j ∧ j < m ∧ PartOf b A j (blockStart b e x)
    · obtain ⟨j, hj, hjm, hpart⟩ := hcut
      have he : m < e := by
        by_contra hle
        exact hnot (by omega) j hj hjm hpart
      obtain ⟨l, hl, hrecord⟩ := hcarved.level_lt hj hjm hpart
      have hbefore : f (blockStart b e x) = some (m, w) := by
        rw [hwhole he hjm hpart]
        exact hA.covers
      unfold Covers
      rw [hrecord, hbefore]
      refine iff_of_false (fun heq => ?_) fun heq => ?_
      · cases heq
        omega
      · cases heq
        omega
    · unfold Covers
      rw [hcarved.kept fun j hj hjm hpart => hcut ⟨j, hj, hjm, hpart⟩]

include hb hA in
/-- A walk that comes by the part where the ways meet finds the whole. -/
theorem Meets.finds_whole (h : Meets b A d x k) (hk : k < m) (hpasses : Passes b live f x k)
    (hnot : ∀ p, ¬ Covers b f x k p) : Finds b top live f x m w := by
  have hway : ∀ e, k < e → e ≤ m → blockStart b e x = blockStart b e A := by
    intro e he _
    rw [← blockStart_blockStart hb (by omega : k + 1 ≤ e), h.same, blockStart_blockStart hb he]
  have hsame : ∀ e p, k < e → e ≤ m → (Covers b f x e p ↔ Covers b f A e p) := by
    intro e p he hem
    unfold Covers
    rw [hway e he hem]
  refine ⟨hA.depth, ⟨fun e he => ?_, fun e he p hp => ?_⟩, (hsame m w hk le_rfl).mpr hA.covers⟩
  · by_cases hek : e ≤ k
    · exact hpasses.live e hek
    · rw [hway e (by omega) he]
      exact hA.passes.live e he
  · rcases Nat.lt_trichotomy e k with hlt | rfl | hgt
    · exact hpasses.free e hlt p hp
    · exact hnot p hp
    · exact hA.passes.free e he p ((hsame e p hgt (by omega)).mp hp)

include hb hA hdvd in
/-- Where the way to `A` itself is cut, nothing was recorded in between. -/
theorem CutDown.not_covers_self (hd : d < m) (he : e ≤ d) : f A ≠ some (e, p) := by
  intro hrecord
  refine hA.passes.free e (by omega) p ?_
  unfold Covers
  rw [blockStart_self hb (Nat.dvd_trans (Nat.pow_dvd_pow b he) hdvd)]
  exact hrecord

variable (hrecorded : ∀ n v, f n = some v → live n)

include hb hcarved hlive hA hd hdvd hrecorded in
/-- Carving changes an owner only where a part is cut at a start that is not live, or that holds a
smaller block of its own. -/
theorem CutDown.yields_cases (x : ℕ) :
    (∀ o, Yields b top live' f' x o ↔ Yields b top live f x o) ∨
      (Yields b top live' f' x w ∧ ∃ k, d ≤ k ∧ k < m ∧ PartOf b A k (blockStart b k x) ∧
        blockStart b k x ≠ blockStart b k A ∧
        ((¬ live (blockStart b k x) ∧ ∀ o, ¬ Yields b top live f x o) ∨
          ∃ e p, e ≤ k ∧ f (blockStart b k x) = some (e, p) ∧ Yields b top live f x p)) := by
  by_cases hx : blockStart b m x = blockStart b m A
  · obtain ⟨k, hk, hmeets⟩ := exists_meets hd hx
    by_cases hclear : Meets.Clear b live f x k
    · have hfinds' := hmeets.finds hb hcarved hlive hk hA.depth hclear
      -- on the way to `A` the part is `A` itself
      have honway : blockStart b k x = blockStart b k A → k = d ∧ blockStart b k x = A := by
        intro heq
        obtain rfl : k = d := hmeets.apart.resolve_right fun hne => hne heq
        exact ⟨rfl, heq.trans (blockStart_self hb hdvd)⟩
      by_cases hown : ∃ e p, e ≤ k ∧ blockStart b e x = blockStart b k x ∧ Covers b f x e p
      · obtain ⟨e, p, he, hstart, hcovers⟩ := hown
        have hrecord : f (blockStart b k x) = some (e, p) := hstart ▸ hcovers
        refine Or.inr ⟨⟨k, hfinds'⟩, k, hmeets.above, hk, hmeets.part hb, fun heq => ?_,
          Or.inr ⟨e, p, he, hrecord, e, by have := hA.depth; omega, ⟨fun i hi => ?_,
            fun i hi q hq => ?_⟩, hcovers⟩⟩
        · obtain ⟨rfl, hself⟩ := honway heq
          exact CutDown.not_covers_self hb hA hdvd hd he (hself ▸ hrecord)
        · by_cases hsame : blockStart b i x = blockStart b k x
          · rw [hsame]
            exact hrecorded _ _ hrecord
          · exact (hclear i (by omega) hsame).1
        · by_cases hsame : blockStart b i x = blockStart b k x
          · unfold Covers at hq
            rw [hsame, hrecord] at hq
            cases hq
            omega
          · exact (hclear i (by omega) hsame).2 q hq
      · have hnone : ∀ e q, e ≤ k → ¬ Covers b f x e q := by
          intro e q he hq
          by_cases hsame : blockStart b e x = blockStart b k x
          · exact hown ⟨e, q, he, hsame, hq⟩
          · exact (hclear e he hsame).2 q hq
        by_cases hlives : live (blockStart b k x)
        · have hpasses : Passes b live f x k := by
            refine ⟨fun e he => ?_, fun e he q => hnone e q (by omega)⟩
            by_cases hsame : blockStart b e x = blockStart b k x
            · rwa [hsame]
            · exact (hclear e he hsame).1
          have hfinds := hmeets.finds_whole hb hA hk hpasses fun q => hnone k q le_rfl
          refine Or.inl fun o => ⟨fun h => ?_, fun h => ?_⟩
          · obtain rfl := h.unique ⟨k, hfinds'⟩
            exact ⟨m, hfinds⟩
          · obtain rfl := h.unique ⟨m, hfinds⟩
            exact ⟨k, hfinds'⟩
        · refine Or.inr ⟨⟨k, hfinds'⟩, k, hmeets.above, hk, hmeets.part hb, fun heq => hlives ?_,
            Or.inl ⟨hlives, ?_⟩⟩
          · obtain ⟨-, hself⟩ := honway heq
            have hzero := hA.passes.live 0 (Nat.zero_le m)
            rwa [blockStart_zero, ← hself] at hzero
          · rintro o ⟨i, hi⟩
            by_cases hik : i ≤ k
            · exact hnone i o hik hi.covers
            · exact hlives (hi.passes.live k (by omega))
    · exact Or.inl fun o => hmeets.yields_iff hb hcarved hlive hk hclear
  · exact Or.inl fun o => hcarved.yields_outside hb hlive hA hx

include hb hcarved hlive hA hd hdvd in
/-- The walks that come to `A` are those of before. -/
theorem CutDown.reaches_iff :
    Reaches b top live' f' A d x ↔ Reaches b top live f A d x := by
  refine and_congr_right fun _ => and_congr_left fun hx => ?_
  have hmeets : Meets b A d x d :=
    ⟨le_rfl, by rw [← blockStart_blockStart hb (Nat.le_succ d), hx], Or.inl rfl⟩
  have hself : live A := by
    have hzero := hA.passes.live 0 (Nat.zero_le m)
    rwa [blockStart_zero] at hzero
  refine Passes.congr (fun e he => ?_) fun e he q => ?_
  · rw [hmeets.live_below hb hlive hd he, hx]
    refine or_iff_left_of_imp fun heq => ?_
    rwa [heq]
  · rw [hmeets.covers_below hb hcarved hd he, hx]
    refine and_iff_right_of_imp fun hq heq => ?_
    unfold Covers at hq
    rw [heq] at hq
    exact CutDown.not_covers_self hb hA hdvd hd (Nat.le_of_lt he) hq

include hb hcarved hlive hA in
/-- A part that is cut goes to the owner of the whole. -/
theorem CutDown.yields_part {c : ℕ} (hk : d ≤ k) (hkm : k < m) (hpart : PartOf b A k c)
    (hc : c ≠ blockStart b k A) : Yields b top live' f' c w := by
  have hself : ∀ e ≤ k, blockStart b e c = c := fun e he =>
    blockStart_self hb (Nat.dvd_trans (Nat.pow_dvd_pow b he) hpart.1)
  have hmeets : Meets b A d c k := ⟨hk, hpart.2, Or.inr (by rwa [hself k le_rfl])⟩
  refine ⟨k, hmeets.finds hb hcarved hlive hkm hA.depth fun e he hne => ?_⟩
  rw [hself e (by omega), hself k le_rfl] at hne
  exact absurd rfl hne

end Carve

end Wormholes.Lib.Forest
