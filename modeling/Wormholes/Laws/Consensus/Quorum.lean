import Wormholes.Laws.Consensus.Istanbul
import Mathlib.Data.List.Perm.Subperm
import Mathlib.Order.Interval.Finset.Fin

/-!
# Laws.Consensus.Quorum — what quorums and accepted seals have in common

Two thresholds decide what a set of validators stands for. The cores wait for `QuorumSize` messages:
two thirds of the validators, rounded up, or `2F + 1` by the older formula, which is a quorum only for
`3F + 1` validators. A header is accepted with more than `F` seals, far fewer than a quorum, so two
accepted headers of one height need not share a sealer.
-/

namespace Wormholes.Consensus

open Lib Common Core

variable {h : Header} {committers : List Address} {number : ℕ}

/-! ## Quorums of the cores -/

section Quorum

variable {n : ℕ}

/-- Two sets of positions share what their sizes exceed the number of positions by. -/
theorem card_add_card_le (A B : Finset (Fin n)) : A.card + B.card ≤ n + (A ∩ B).card := by
  have hunion : (A ∪ B).card ≤ n := by
    have hle := Finset.card_le_univ (A ∪ B)
    rwa [Fintype.card_fin] at hle
  have hsum := Finset.card_union_add_card_inter A B
  omega

/-- Two sets of one size that share as little as they can: the first and the last positions. -/
theorem exists_card_inter_le {q : ℕ} (hq : q ≤ n) :
    ∃ A B : Finset (Fin n), A.card = q ∧ B.card = q ∧ (A ∩ B).card ≤ 2 * q - n := by
  obtain ⟨A, -, hA⟩ := Finset.exists_subset_card_eq
    (hq.trans_eq (Finset.card_fin n).symm)
  have hcompl : Aᶜ.card = n - q := by rw [Finset.card_compl, Fintype.card_fin, hA]
  rcases Nat.le_total q (n - q) with hle | hle
  · -- the rest is large enough for a second set
    obtain ⟨B, hB, hcard⟩ := Finset.exists_subset_card_eq (hle.trans_eq hcompl.symm)
    refine ⟨A, B, hA, hcard, ?_⟩
    have hdisj : A ∩ B = ∅ := by
      refine Finset.disjoint_iff_inter_eq_empty.mp ?_
      exact Disjoint.mono_right hB disjoint_compl_right
    rw [hdisj, Finset.card_empty]
    exact Nat.zero_le _
  · -- the second set is the rest and what it lacks, taken from the first
    obtain ⟨C, hC, hcard⟩ := Finset.exists_subset_card_eq (s := A) (n := 2 * q - n) (by omega)
    have hdisj : Disjoint Aᶜ C := Disjoint.mono_right hC disjoint_compl_left
    refine ⟨A, Aᶜ ∪ C, hA, ?_, ?_⟩
    · rw [Finset.card_union_of_disjoint hdisj, hcompl, hcard]
      omega
    · rw [Finset.inter_union_distrib_left, Finset.inter_compl, Finset.empty_union, ← hcard]
      exact Finset.card_le_card Finset.inter_subset_right

end Quorum

/-- Any two quorums share more validators than can be faulty, and the validators that are not faulty
make a quorum, exactly by the `ceil(2N/3)` formula or for a number of validators one above a multiple
of three. -/
theorem quorums_intersect_iff (ceil2Nby3Block sequence : Option ℕ) (validators : List Address)
    (hne : validators ≠ []) :
    ((∀ A B : Finset (Fin validators.length),
        quorumSize ceil2Nby3Block sequence validators ≤ A.card →
          quorumSize ceil2Nby3Block sequence validators ≤ B.card →
            faulty validators < (A ∩ B).card) ∧
      quorumSize ceil2Nby3Block sequence validators ≤ validators.length - faulty validators) ↔
      beforeCeil2Nby3 ceil2Nby3Block sequence = false ∨ validators.length % 3 = 1 := by
  have hpos := List.length_pos_iff.mpr hne
  constructor
  · rintro ⟨hinter, -⟩
    by_contra hnot
    obtain ⟨hbefore, hmod⟩ := not_or.mp hnot
    rw [Bool.not_eq_false] at hbefore
    have hquorum : quorumSize ceil2Nby3Block sequence validators =
        ((2 * ((validators.length + 2) / 3 - 1) + 1 : ℕ) : ℤ) := by
      rw [quorumSize, if_pos hbefore, faulty]
      omega
    obtain ⟨A, B, hA, hB, hcard⟩ := exists_card_inter_le (n := validators.length)
      (q := 2 * ((validators.length + 2) / 3 - 1) + 1) (by omega)
    have hmore := hinter A B (by rw [hquorum, hA]) (by rw [hquorum, hB])
    rw [faulty] at hmore
    omega
  · intro hcond
    have hquorum : validators.length + faulty validators <
        2 * quorumSize ceil2Nby3Block sequence validators ∧
        quorumSize ceil2Nby3Block sequence validators ≤ validators.length - faulty validators := by
      rw [quorumSize, faulty]
      rcases hcond with hafter | hmod
      · rw [hafter, if_neg Bool.false_ne_true]
        omega
      · split <;> omega
    refine ⟨fun A B hA hB => ?_, hquorum.2⟩
    have hsum := card_add_card_le A B
    have hlt := hquorum.1
    omega

/-- Four validators, by the older formula. -/
theorem quorums_intersect_four :
    (∀ A B : Finset (Fin [(1 : Address), 2, 3, 4].length),
        quorumSize none none [1, 2, 3, 4] ≤ A.card → quorumSize none none [1, 2, 3, 4] ≤ B.card →
          faulty [1, 2, 3, 4] < (A ∩ B).card) ∧
      quorumSize none none [1, 2, 3, 4] ≤ [(1 : Address), 2, 3, 4].length - faulty [1, 2, 3, 4] :=
  (quorums_intersect_iff none none [1, 2, 3, 4] (List.cons_ne_nil _ _)).mpr (Or.inr rfl)

/-- Two validators make two disjoint quorums by the older formula. -/
theorem quorums_disjoint_two : ∃ A B : Finset (Fin [(1 : Address), 2].length),
    quorumSize none none [1, 2] ≤ A.card ∧ quorumSize none none [1, 2] ≤ B.card ∧
      ¬ faulty [1, 2] < (A ∩ B).card :=
  ⟨{0}, {1}, by decide⟩

/-! ## Seals of accepted headers -/

/-- The accounts whose committed seals a header carries. -/
def sealSet (K : Hashes) (h : Header) : Finset Address :=
  match h.signers K with
  | .ok committers => committers.toFinset
  | _ => ∅

variable {K : Hashes} {validators : List Address}

theorem sealSet_of_signers (hsigners : h.signers K = .ok committers) :
    sealSet K h = committers.toFinset := by
  rw [sealSet, hsigners]

/-- Seals are counted when they are those of members, each for a member of its own. -/
theorem countSeals_eq_ok_iff {n : ℕ} :
    countSeals validators committers = .ok n ↔
      committers.Subperm validators ∧ n = committers.length := by
  induction committers generalizing validators n with
  | nil => simp [countSeals, List.nil_subperm, eq_comm]
  | cons a committers ih =>
    rw [countSeals]
    split
    next ha =>
      have hperm : (a :: committers).Subperm validators ↔
          committers.Subperm (validators.erase a) := by
        rw [(List.perm_cons_erase ha).subperm_left, List.subperm_cons]
      rw [hperm, Res.bind_eq_ok]
      constructor
      · rintro ⟨m, hm, heq⟩
        obtain ⟨hsub, rfl⟩ := ih.mp hm
        exact ⟨hsub, (Res.ok.inj heq).symm⟩
      · rintro ⟨hsub, rfl⟩
        exact ⟨committers.length, ih.mpr ⟨hsub, rfl⟩, rfl⟩
    next ha =>
      refine iff_of_false (fun h => by cases h) ?_
      rintro ⟨hsub, -⟩
      exact ha (hsub.subset List.mem_cons_self)

/-- What verification asks of the committed seals of a header with a number. -/
theorem verifyCommittedSeals_eq_ok (hnumber : h.number % 2 ^ 64 ≠ 0) :
    verifyCommittedSeals K h validators = .ok () ↔
      ∃ extra committers, h.extra = .ok extra ∧ extra.committedSeal ≠ [] ∧
        h.signers K = .ok committers ∧ committers.Subperm validators ∧
          faulty validators < committers.length := by
  rw [verifyCommittedSeals, if_neg hnumber]
  cases hextra : h.extra with
  | error msg =>
    refine iff_of_false (fun h => by cases h) ?_
    rintro ⟨extra, -, heq, -⟩
    cases heq
  | ok extra =>
    simp only [Res.bind_eq_ok, Res.require_eq_ok, countSeals_eq_ok_iff]
    constructor
    · rintro ⟨-, hseals, committers, hsigners, n, ⟨hsub, rfl⟩, hn⟩
      exact ⟨extra, committers, rfl, hseals, hsigners, hsub, hn⟩
    · rintro ⟨extra', committers, heq, hseals, hsigners, hsub, hn⟩
      cases heq
      exact ⟨(), hseals, committers, hsigners, committers.length, ⟨hsub, rfl⟩, hn⟩

/-- Members enough to be accepted can seal a header of any height. -/
theorem exists_accepted (hsign : K.CanSign) (hnumber : number % 2 ^ 64 ≠ 0)
    (hsub : committers.Subperm validators) (hmore : faulty validators < committers.length)
    (hne : committers ≠ []) :
    ∃ h : Header, h.number = number ∧ verifyCommittedSeals K h validators = .ok () ∧
      sealSet K h = committers.toFinset := by
  obtain ⟨extra, -, -, -, hsigners, hnil⟩ := exists_sealed_above hsign
    { rootHeader with number := number - 1 } 0 [] committers []
  have hnum : (Header.above K rootEngine { rootHeader with number := number - 1 } extra).number =
      number := by
    have hpos : number ≠ 0 := fun h0 => hnumber (by rw [h0, Nat.zero_mod])
    exact Nat.succ_pred_eq_of_ne_zero hpos
  refine ⟨_, hnum, ?_, sealSet_of_signers hsigners⟩
  refine (verifyCommittedSeals_eq_ok (by rwa [hnum])).mpr
    ⟨extra, committers, rfl, fun h => hne (hnil h), hsigners, hsub, hmore⟩

theorem faulty_nonneg (hne : validators ≠ []) : 0 ≤ faulty validators := by
  have hpos := List.length_pos_iff.mpr hne
  rw [faulty]
  omega

/-- Two different members, each with as many others as can be faulty, seal two headers. -/
theorem exists_accepted_pair (hsign : K.CanSign) (hnumber : number % 2 ^ 64 ≠ 0) {a b : Address}
    (ha : a ∈ validators) (hb : b ∈ validators) (hab : a ≠ b) :
    ∃ h h' : Header, h.number = number ∧ h'.number = number ∧
      verifyCommittedSeals K h validators = .ok () ∧ verifyCommittedSeals K h' validators = .ok () ∧
        ((sealSet K h ∩ sealSet K h').card : ℤ) ≤ faulty validators := by
  have hb' : b ∈ validators.erase a := (List.mem_erase_of_ne (Ne.symm hab)).mpr hb
  -- the others, of whom both headers take the first
  have hperm : validators.Perm (a :: b :: (validators.erase a).erase b) :=
    (List.perm_cons_erase ha).trans ((List.perm_cons_erase hb').cons a)
  have hlength : validators.length = ((validators.erase a).erase b).length + 2 := hperm.length_eq
  obtain ⟨f, hf⟩ : ∃ f : ℕ, faulty validators = f := ⟨(validators.length + 2) / 3 - 1, by
    rw [faulty]
    omega⟩
  have hle : f ≤ ((validators.erase a).erase b).length := by
    rw [faulty] at hf
    omega
  let others := ((validators.erase a).erase b).take f
  have hothers : others.length = f := List.length_take_of_le hle
  have hsubperm : others.Subperm ((validators.erase a).erase b) := (List.take_sublist _ _).subperm
  have hsub : (a :: others).Subperm validators := by
    rw [hperm.subperm_left, List.subperm_cons]
    exact hsubperm.cons_right b
  have hsub' : (b :: others).Subperm validators := by
    rw [(hperm.trans (List.Perm.swap b a _)).subperm_left, List.subperm_cons]
    exact hsubperm.cons_right a
  have hmore : faulty validators < ((a :: others).length : ℤ) := by
    rw [hf, List.length_cons, hothers]
    omega
  obtain ⟨h, hnum, haccepted, hseals⟩ :=
    exists_accepted hsign hnumber hsub hmore (List.cons_ne_nil _ _)
  obtain ⟨h', hnum', haccepted', hseals'⟩ :=
    exists_accepted hsign hnumber hsub' hmore (List.cons_ne_nil _ _)
  refine ⟨h, h', hnum, hnum', haccepted, haccepted', ?_⟩
  have hshared : sealSet K h ∩ sealSet K h' ⊆ others.toFinset := by
    intro x hx
    rw [hseals, hseals', Finset.mem_inter] at hx
    simp only [List.mem_toFinset, List.mem_cons] at hx ⊢
    rcases hx with ⟨rfl | hx, hx' | hx'⟩
    · exact absurd hx' hab
    · exact hx'
    · exact hx
    · exact hx
  have hcard := (Finset.card_le_card hshared).trans others.toFinset_card_le
  rw [hf]
  omega

/-- Accepted headers of one height share more sealers than can be faulty exactly if the height is one
whose seals are checked and the validators are one account, listed at most three times. -/
theorem accepted_seals_intersect_iff (hsign : K.CanSign) (number : ℕ) (hne : validators ≠ []) :
    (∀ h h' : Header, h.number = number → h'.number = number →
      verifyCommittedSeals K h validators = .ok () → verifyCommittedSeals K h' validators = .ok () →
        faulty validators < (sealSet K h ∩ sealSet K h').card) ↔
      number % 2 ^ 64 ≠ 0 ∧ validators.length ≤ 3 ∧ ∀ a ∈ validators, ∀ b ∈ validators, a = b := by
  have hpos := List.length_pos_iff.mpr hne
  have hnonneg := faulty_nonneg hne
  constructor
  · intro hall
    have hnumber : number % 2 ^ 64 ≠ 0 := by
      intro hzero
      -- nothing is checked, and a header without readable extra data has no sealers
      have hshared := hall { rootHeader with number := number, extra := .error "" }
        { rootHeader with number := number, extra := .error "" } rfl rfl
        (by rw [verifyCommittedSeals, if_pos hzero]) (by rw [verifyCommittedSeals, if_pos hzero])
      have hempty : sealSet K { rootHeader with number := number, extra := .error "" } = ∅ := rfl
      rw [hempty] at hshared
      simp only [Finset.inter_self, Finset.card_empty, Nat.cast_zero] at hshared
      omega
    have hsame : ∀ a ∈ validators, ∀ b ∈ validators, a = b := by
      intro a ha b hb
      by_contra hab
      obtain ⟨h, h', hnum, hnum', haccepted, haccepted', hcard⟩ :=
        exists_accepted_pair hsign hnumber ha hb hab
      have hshared := hall h h' hnum hnum' haccepted haccepted'
      omega
    refine ⟨hnumber, ?_, hsame⟩
    obtain ⟨h, hnum, haccepted, hseals⟩ :=
      exists_accepted hsign hnumber (List.Subperm.refl validators) (faulty_lt_length hne) hne
    have hshared := hall h h hnum hnum haccepted haccepted
    obtain ⟨a, ha⟩ := List.exists_mem_of_ne_nil validators hne
    have hone : validators.toFinset.card ≤ 1 := Finset.card_le_one.mpr fun x hx y hy =>
      hsame x (List.mem_toFinset.mp hx) y (List.mem_toFinset.mp hy)
    rw [hseals, Finset.inter_self, faulty] at hshared
    omega
  · rintro ⟨hnumber, hthree, hsame⟩ h h' hnum hnum' haccepted haccepted'
    obtain ⟨extra, committers, -, -, hsigners, hsub, hmore⟩ :=
      (verifyCommittedSeals_eq_ok (by rwa [hnum])).mp haccepted
    obtain ⟨extra', committers', -, -, hsigners', hsub', hmore'⟩ :=
      (verifyCommittedSeals_eq_ok (by rwa [hnum'])).mp haccepted'
    have hcommitters : committers ≠ [] := by
      rintro rfl
      simp only [List.length_nil, Nat.cast_zero] at hmore
      omega
    have hcommitters' : committers' ≠ [] := by
      rintro rfl
      simp only [List.length_nil, Nat.cast_zero] at hmore'
      omega
    obtain ⟨a, ha⟩ := List.exists_mem_of_ne_nil committers hcommitters
    obtain ⟨b, hb⟩ := List.exists_mem_of_ne_nil committers' hcommitters'
    have hab : a = b := hsame a (hsub.subset ha) b (hsub'.subset hb)
    have hmem : a ∈ sealSet K h ∩ sealSet K h' := by
      rw [sealSet_of_signers hsigners, sealSet_of_signers hsigners', Finset.mem_inter,
        List.mem_toFinset, List.mem_toFinset]
      exact ⟨ha, hab ▸ hb⟩
    have hcard := Finset.card_pos.mpr ⟨a, hmem⟩
    rw [faulty]
    omega

theorem one_mod_ne_zero : 1 % 2 ^ 64 ≠ 0 := by decide

/-- A header sealed by the one validator there is. -/
theorem accepted_seals_intersect_one :
    ∃ h : Header, h.number = 1 ∧ verifyCommittedSeals plainHashes h [1] = .ok () ∧
      faulty [1] < (sealSet plainHashes h ∩ sealSet plainHashes h).card := by
  have hne : [(1 : Address)] ≠ [] := List.cons_ne_nil _ _
  have hsame : ∀ a ∈ [(1 : Address)], ∀ b ∈ [(1 : Address)], a = b := by
    intro a ha b hb
    rw [List.mem_singleton.mp ha, List.mem_singleton.mp hb]
  obtain ⟨h, hnum, haccepted, -⟩ := exists_accepted plainHashes_canSign one_mod_ne_zero
    (List.Subperm.refl [(1 : Address)]) (faulty_lt_length hne) hne
  refine ⟨h, hnum, haccepted, ?_⟩
  exact (accepted_seals_intersect_iff plainHashes_canSign 1 hne).mpr
    ⟨by decide, by decide, hsame⟩ h h hnum hnum haccepted haccepted

/-- Two headers of one height accepted for the same four validators, without a common sealer. -/
theorem accepted_seals_disjoint :
    ∃ h h' : Header, h.number = 1 ∧ h'.number = 1 ∧
      verifyCommittedSeals plainHashes h [1, 2, 3, 4] = .ok () ∧
        verifyCommittedSeals plainHashes h' [1, 2, 3, 4] = .ok () ∧
          sealSet plainHashes h ∩ sealSet plainHashes h' = ∅ := by
  have hsub : [(1 : Address), 2].Subperm [1, 2, 3, 4] :=
    (List.take_sublist 2 [(1 : Address), 2, 3, 4]).subperm
  have hsub' : [(3 : Address), 4].Subperm [1, 2, 3, 4] :=
    (List.drop_sublist 2 [(1 : Address), 2, 3, 4]).subperm
  have hmore : faulty [1, 2, 3, 4] < ([(1 : Address), 2].length : ℤ) := by decide
  obtain ⟨h, hnum, haccepted, hseals⟩ := exists_accepted plainHashes_canSign one_mod_ne_zero hsub hmore (List.cons_ne_nil _ _)
  obtain ⟨h', hnum', haccepted', hseals'⟩ := exists_accepted plainHashes_canSign one_mod_ne_zero hsub' hmore (List.cons_ne_nil _ _)
  refine ⟨h, h', hnum, hnum', haccepted, haccepted', ?_⟩
  rw [hseals, hseals']
  decide

end Wormholes.Consensus
