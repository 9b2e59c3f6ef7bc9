import Mathlib.Logic.Relation
import Wormholes.Laws.Core.HandleNFT
import Wormholes.Laws.State.Supply

/-!
# Laws.Core.OfficialPool — the batches of the official pool

A vote fixes the index a batch will start at; the batch enters the pool at a later election, and in
between the mints drop batches from the front of the pool. The index stays right because an election
is all that moves the end of the pool, and it consumes the nomination. `MaxIndex` starts to count at
zero, which is right because a stored batch never starts below zero.
-/

namespace Wormholes.Core

open Lib Common StateDB InjectedOfficialNFT InjectedOfficialNFTList

variable {K : Crypto} {s t : StateDB}

/-- A step of the official pool: a vote, an election, a block's mints, or anything that leaves the pool
and the nomination alone. -/
inductive PoolStep (K : Crypto) (s : StateDB) : StateDB → Prop where
  | vote {t : StateDB} {bn value : ℕ} {caller addr : Address} {w : WormholesTx}
      (htype : w.type = 23 ∨ w.type = 24) (h : handleNFT K s bn caller addr w value = .ok t) :
      PoolStep K s t
  | elect {t : StateDB} (h : s.electNominatedOfficialNFT = some t) : PoolStep K s t
  | mint {t : StateDB} {owners : List Address} {bn : ℕ}
      (h : s.createNFTByOfficial16 K.toHasher owners bn = some t) : PoolStep K s t
  | other {t : StateDB} (hpool : t.pools.officialNFTPool = s.pools.officialNFTPool)
      (hnominated : t.pools.nominatedOfficialNFT = s.pools.nominatedOfficialNFT) : PoolStep K s t

/-- A pending nomination starts where the pool ends. -/
def PendingNext (s : StateDB) : Prop :=
  ∀ n, s.pools.nominatedOfficialNFT = some n → n.address ≠ 0 → n.startIndex = s.nextIndex

/-- The batches follow each other, share no index, and a pending nomination goes on behind them. -/
structure PoolWellFormed (s : StateDB) : Prop where
  consecutive : Consecutive s.pools.officialNFTPool
  separate : Separate s.pools.officialNFTPool
  pending : PendingNext s

/-- What every step keeps. -/
structure PoolInv (s : StateDB) : Prop where
  consecutive : Consecutive s.pools.officialNFTPool
  ends : EndsNonneg s.pools.officialNFTPool
  pending : PendingNext s

theorem PoolInv.wellFormed (h : PoolInv s) : PoolWellFormed s :=
  ⟨h.consecutive, h.consecutive.separate, h.pending⟩

theorem PoolInv.of_same (h : PoolInv s) (hpool : t.pools.officialNFTPool = s.pools.officialNFTPool)
    (hnominated : t.pools.nominatedOfficialNFT = s.pools.nominatedOfficialNFT) : PoolInv t := by
  refine ⟨by rw [hpool]; exact h.consecutive, by rw [hpool]; exact h.ends, ?_⟩
  intro n hn haddress
  rw [hnominated] at hn
  rw [nextIndex, hpool]
  exact h.pending n hn haddress

/-! ## Votes and elections -/

/-- A vote changes the nomination at most, and to a batch that starts where the pool ends. -/
theorem handleNFT_vote_inv {bn value : ℕ} {caller addr : Address} {w : WormholesTx}
    (htype : w.type = 23 ∨ w.type = 24) (h : handleNFT K s bn caller addr w value = .ok t) :
    t = s ∨ ∃ n : NominatedOfficialNFT, n.startIndex = s.nextIndex ∧
      t = { s with pools := { s.pools with nominatedOfficialNFT := some n } } := by
  have hvote : ∃ n : NominatedOfficialNFT, n.startIndex = s.nextIndex ∧ t = s.voteOfficialNFT n := by
    rcases htype with htype | htype
    · simp only [handleNFT, htype, Res.bind_eq_ok] at h
      obtain ⟨-, -, hok⟩ := h
      cases hok
      exact ⟨_, rfl, rfl⟩
    · simp only [handleNFT, htype, voteOfficialNFTByApprovedExchanger, Res.bind_eq_ok] at h
      obtain ⟨-, -, _, -, -, -, -, -, _, -, -, -, hok⟩ := h
      cases hok
      exact ⟨_, rfl, rfl⟩
  obtain ⟨n, hindex, rfl⟩ := hvote
  unfold voteOfficialNFT
  split
  · exact Or.inr ⟨n, hindex, rfl⟩
  · exact Or.inl rfl

theorem PoolInv.vote {n : NominatedOfficialNFT} (h : PoolInv s) (hindex : n.startIndex = s.nextIndex) :
    PoolInv { s with pools := { s.pools with nominatedOfficialNFT := some n } } := by
  refine ⟨h.consecutive, h.ends, ?_⟩
  intro m hm _
  cases hm
  exact hindex

/-- An election appends the nominated batch, or a default one behind the pool. -/
theorem electNominatedOfficialNFT_inv (h : s.electNominatedOfficialNFT = some t) :
    ∃ e, t.pools.officialNFTPool = s.pools.officialNFTPool ++ [e] ∧
      (e.startIndex = s.nextIndex ∨
        ∃ n, s.pools.nominatedOfficialNFT = some n ∧ n.address ≠ 0 ∧ e = n.toInjectedOfficialNFT) ∧
      ∀ n, t.pools.nominatedOfficialNFT = some n → n.address = 0 := by
  unfold electNominatedOfficialNFT at h
  split at h
  next hnone =>
    cases h
    refine ⟨_, rfl, Or.inl rfl, fun n hn => ?_⟩
    rw [show (s.injectOfficialNFT s.nextDefault).pools.nominatedOfficialNFT =
      s.pools.nominatedOfficialNFT from rfl, hnone] at hn
    cases hn
  next nominated hsome =>
    split at h
    next hzero =>
      cases h
      refine ⟨_, rfl, Or.inl rfl, fun n hn => ?_⟩
      rw [show (s.injectOfficialNFT s.nextDefault).pools.nominatedOfficialNFT =
        s.pools.nominatedOfficialNFT from rfl, hsome] at hn
      cases hn
      exact hzero
    next hnonzero =>
      simp only at h
      split at h
      · cases h
      · split at h
        · cases h
        next s' hsub =>
          cases h
          have hpool : s'.pools.officialNFTPool =
              s.pools.officialNFTPool ++ [nominated.toInjectedOfficialNFT] := by
            rw [addVoteWeight_pools _ _ hsub]
            rfl
          refine ⟨_, hpool, Or.inr ⟨nominated, hsome, hnonzero, rfl⟩, fun n hn => ?_⟩
          cases hn
          rfl

/-- An election keeps the pool well formed and moves its end up. -/
theorem PoolInv.elect (hs : PoolInv s) (h : s.electNominatedOfficialNFT = some t) :
    PoolInv t ∧ s.nextIndex ≤ t.nextIndex := by
  obtain ⟨e, hpool, hstart, hreset⟩ := electNominatedOfficialNFT_inv h
  have hindex : e.startIndex = maxIndex s.pools.officialNFTPool := by
    rcases hstart with hstart | ⟨n, hn, haddress, rfl⟩
    · exact hstart
    · exact hs.pending n hn haddress
  refine ⟨⟨?_, ?_, fun n hn haddress => absurd (hreset n hn) haddress⟩, ?_⟩
  · rw [hpool]
    exact hs.consecutive.append hs.ends hindex
  · rw [hpool]
    exact endsNonneg_append hindex
  · rw [nextIndex, nextIndex, hpool, maxIndex_append]
    exact le_max_left _ _

/-! ## Mints -/

/-- A round of the mint loop drops batches in front of the last one at most. -/
theorem mintRound_pool {bn : ℕ} {owner : Address} (h : MintRound K.toHasher bn owner s t) :
    (t.pools.officialNFTPool = s.pools.officialNFTPool ∨
      t.pools.officialNFTPool =
        deleteExpireElem s.pools.officialNFTPool s.pools.mintDeep.officialMint) ∧
    t.pools.nominatedOfficialNFT = s.pools.nominatedOfficialNFT := by
  obtain ⟨s₁, nftAddr, info, popped, s₂, hnext, hmint, rfl⟩ := h
  obtain ⟨queue, rfl⟩ := nextOfficial_eq hnext
  have hpools := mintOfficial_pools hmint
  cases popped with
  | true =>
    rw [if_pos rfl, hpools]
    exact ⟨Or.inl rfl, rfl⟩
  | false =>
    rw [if_neg Bool.false_ne_true, advanceOfficial, hpools]
    exact ⟨Or.inr rfl, rfl⟩

theorem PoolInv.round {bn : ℕ} {owner : Address} (hs : PoolInv s)
    (h : MintRound K.toHasher bn owner s t) : PoolInv t ∧ t.nextIndex = s.nextIndex := by
  obtain ⟨hpool, hnominated⟩ := mintRound_pool h
  rcases hpool with hsame | hdropped
  · exact ⟨hs.of_same hsame hnominated, by rw [nextIndex, nextIndex, hsame]⟩
  · have hindex : t.nextIndex = s.nextIndex := by
      rw [nextIndex, hdropped]
      exact hs.consecutive.maxIndex_deleteExpireElem _
    refine ⟨⟨?_, ?_, fun n hn haddress => ?_⟩, hindex⟩
    · rw [hdropped]
      exact List.IsChain.suffix hs.consecutive (deleteExpireElem_suffix _ _)
    · rw [hdropped]
      exact hs.ends.deleteExpireElem _
    · rw [hindex]
      exact hs.pending n (hnominated ▸ hn) haddress

theorem PoolInv.mint {bn : ℕ} {owners : List Address} (hs : PoolInv s)
    (h : s.createNFTByOfficial16 K.toHasher owners bn = some t) :
    PoolInv t ∧ s.nextIndex ≤ t.nextIndex := by
  obtain ⟨u, full, hu, hend⟩ := createNFTByOfficial16_cases h
  obtain ⟨hinv, hindex⟩ : PoolInv u ∧ u.nextIndex = s.nextIndex := by
    refine mintLoop_invariant (I := fun u => PoolInv u ∧ u.nextIndex = s.nextIndex) ?_ hu ⟨hs, rfl⟩
    intro owner v v' hround hv
    obtain ⟨hinv, hindex⟩ := hv.1.round hround
    exact ⟨hinv, hindex.trans hv.2⟩
  rcases hend with rfl | helect
  · exact ⟨hinv, hindex.ge⟩
  · obtain ⟨hinv', hle⟩ := hinv.elect helect
    exact ⟨hinv', hindex ▸ hle⟩

/-! ## Runs -/

theorem PoolInv.step (hs : PoolInv s) (h : PoolStep K s t) : PoolInv t ∧ s.nextIndex ≤ t.nextIndex := by
  cases h with
  | vote htype h =>
    rcases handleNFT_vote_inv htype h with rfl | ⟨n, hindex, rfl⟩
    · exact ⟨hs, le_rfl⟩
    · exact ⟨hs.vote hindex, le_rfl⟩
  | elect h => exact hs.elect h
  | mint h => exact hs.mint h
  | other hpool hnominated =>
    exact ⟨hs.of_same hpool hnominated, by rw [nextIndex, nextIndex, hpool]⟩

/-- So does any sequence of them. -/
theorem PoolInv.run (hs : PoolInv s) (h : Relation.ReflTransGen (PoolStep K) s t) : PoolInv t := by
  induction h with
  | refl => exact hs
  | tail _ hstep ih => exact (ih.step hstep).1

/-- From a pool of consecutive batches without negative indices and no pending nomination, every run keeps
the pool well formed and no step of it lowers the pool's end. RLP encodes no negative index, so every pool
that a block starts with is of this kind. -/
theorem officialPool_wellFormed (hpool : Consecutive s.pools.officialNFTPool)
    (hindices : ∀ e ∈ s.pools.officialNFTPool, 0 ≤ e.startIndex)
    (hnominated : ∀ n, s.pools.nominatedOfficialNFT = some n → n.address = 0)
    (h : Relation.ReflTransGen (PoolStep K) s t) :
    PoolWellFormed t ∧ ∀ u, PoolStep K t u → t.nextIndex ≤ u.nextIndex := by
  have hends : EndsNonneg s.pools.officialNFTPool := by
    intro e he
    have hstart := hindices e (List.mem_of_getLast? he)
    exact add_nonneg hstart (Int.natCast_nonneg _)
  have hinv : PoolInv s := ⟨hpool, hends, fun n hn haddress => absurd (hnominated n hn) haddress⟩
  have ht := hinv.run h
  exact ⟨ht.wellFormed, fun u hu => (ht.step hu).2⟩

/-- Two batches of one index each, an election and a block's mints: the two first indices are minted, the
first batch has expired and the elected one goes on behind the second. -/
theorem officialPool_wellFormed_elected :
    ∃ t u, (stocked [single 0 1, single 1 2]).electNominatedOfficialNFT = some t ∧
      t.createNFTByOfficial16 ⟨fun _ => []⟩ [5, 6] 7 = some u ∧
      u.pools.officialNFTPool.map (fun e => (e.startIndex, e.stop)) = [(1, 2), (2, 65538)] ∧
      PoolWellFormed u ∧
      ∀ v, PoolStep ⟨⟨fun _ => []⟩, fun _ _ => .error ""⟩ u v → u.nextIndex ≤ v.nextIndex := by
  obtain ⟨u, hu, hbatches⟩ := Option.map_eq_some_iff.mp (show
    ((stocked [single 0 1, single 1 2]).injectOfficialNFT
      (stocked [single 0 1, single 1 2]).nextDefault |>.createNFTByOfficial16 ⟨fun _ => []⟩ [5, 6] 7).map
        (fun u => u.pools.officialNFTPool.map fun e => (e.startIndex, e.stop)) =
      some [(1, 2), (2, 65538)] from by decide +kernel)
  refine ⟨_, u, rfl, hu, hbatches, ?_⟩
  refine officialPool_wellFormed (s := stocked [single 0 1, single 1 2]) ?_ ?_ ?_
    (.tail (.single (.elect rfl)) (.mint hu))
  · exact List.isChain_cons_cons.mpr ⟨rfl, List.isChain_singleton _⟩
  · intro e he
    rcases List.mem_pair.mp he with rfl | rfl <;> decide
  · intro n hn
    cases hn

end Wormholes.Core
