import Wormholes.State.Operation
import Wormholes.Laws.State.Account

/-!
# Laws.State.Operation — reverting and the pools

Reverting to a snapshot undoes the journal, and no pool write is in the journal. So the pools
after a revert are those before it, not those at the snapshot: they are the snapshot's exactly
when nothing in between changed them. An operation under its `LeavesPools` leaves them
(`apply_pools`), and a snapshot reverted after operations that all leave the pools gives the
snapshot's pools back (`revertToSnapshot_pools_of_leavesPools`).
-/

namespace Wormholes

open Lib StateDB

variable {s t : StateDB} {a : Address} {bn : ℕ}

namespace StateDB

/-- A revert does not touch the pools. -/
theorem revertToSnapshot_pools {id : ℕ} (h : s.revertToSnapshot id = some t) :
    t.pools = s.pools := by
  unfold revertToSnapshot at h
  split at h
  · cases h
  · split at h
    · obtain ⟨m, -, rfl⟩ := Option.map_eq_some_iff.mp h
      rfl
    · cases h

end StateDB

namespace Operation

variable {H : Hasher}

/-- A miner seen again at the height it was last seen at leaves the list as it was. -/
theorem addOrUpdateActiveMiner_pools {x : ℤ} {height : ℕ}
    (h : (addOrUpdateActiveMiner a x height).LeavesPools H s) :
    (s.addOrUpdateActiveMiner a x height).pools = s.pools := by
  obtain ⟨m, hfind, rfl⟩ := h
  have hmodify : ∀ l : List ActiveMiner, l.find? (fun m => decide (m.address = a)) = some m →
      ∃ k, (l.findIdx? fun m => decide (m.address = a)) = some k ∧
        (l.modify k fun m' => { m' with height := m.height }) = l := by
    intro l
    induction l with
    | nil => intro hnil; cases hnil
    | cons m' rest ih =>
      intro hcons
      by_cases hm : m'.address = a
      · -- the miner is the head, and is rewritten to itself
        simp only [List.find?_cons, hm, decide_true, Option.some.injEq] at hcons
        subst hcons hm
        exact ⟨0, by simp [List.findIdx?_cons], rfl⟩
      · simp only [List.find?_cons, hm, decide_false] at hcons
        obtain ⟨k, hidx, hrest⟩ := ih hcons
        refine ⟨k + 1, ?_, ?_⟩
        · simp [List.findIdx?_cons, hm, hidx]
        · rw [List.modify_succ_cons, hrest]
  obtain ⟨k, hidx, hsame⟩ := hmodify _ hfind
  unfold StateDB.addOrUpdateActiveMiner
  simp only [hidx, hsame]

/-- The mint of a block that mints nothing and has supply left writes nothing. -/
theorem createNFTByOfficial16_pools {owners : List Address}
    (hleaves : (createNFTByOfficial16 owners bn).LeavesPools H s)
    (h : s.createNFTByOfficial16 H owners bn = some t) : t.pools = s.pools := by
  cases owners with
  | nil =>
    have hlow : ¬ InjectedOfficialNFTList.remainderNum s.pools.officialNFTPool
        s.pools.mintDeep.officialMint ≤ 110 := Nat.not_le.mpr hleaves
    simp only [StateDB.createNFTByOfficial16, mintLoop, if_neg hlow] at h
    cases h
    rfl
  | cons owner owners =>
    have hnext : nextOfficial H s bn = none := hleaves
    simp only [StateDB.createNFTByOfficial16, mintLoop, hnext] at h
    cases h
    rfl

theorem closeExchanger_pools_of_leavesPools (hleaves : (closeExchanger a bn).LeavesPools H s)
    (h : s.closeExchanger a bn = some t) :
    t.pools = s.pools := by
  simp only [StateDB.closeExchanger] at h
  split at h
  · cases h
  next opened hopened =>
    have hat : openedAt s a = some opened := by
      have hview := field_getOrNewStateObject s a StateObject.blockNumber
      rw [hopened] at hview
      unfold openedAt getStateObject
      unfold view at hview
      cases ho : s.accounts a with
      | none =>
        rw [ho] at hview
        cases hview
      | some o =>
        rw [ho] at hview
        exact hview.symm
    rw [if_neg (Nat.not_lt.mpr (hleaves opened hat))] at h
    cases h
    exact getOrNewStateObject_pools s a

theorem apply_pools {op : Operation} (hleaves : op.LeavesPools H s) (h : op.apply H s = some t) :
    t.pools = s.pools := by
  cases op with
  | exchangeNFTToCurrency | createNFTByUser | injectOfficialNFT | electNominatedOfficialNFT
  | pledgeToken | cancelPledgedToken | openExchanger | addExchangerToken | subExchangerToken =>
    exact hleaves.elim
  | createAccount a => cases h; exact createAccount_pools s a
  | addBalance a x => cases h; exact addBalance_pools s a x
  | subBalance a x => cases h; exact subBalance_pools s a x
  | addVoteWeight a x => exact addVoteWeight_pools s a h
  | subVoteWeight a x => exact addVoteWeight_pools s a h
  | setNonce a n => cases h; exact setNonce_pools s a n
  | setCode a c => cases h; exact setCode_pools s a c
  | setState a key value => cases h; exact setState_pools s a key value
  | suicide a => cases h; exact suicide_pools s a
  | changeApproveAddress a b => cases h; exact changeApproveAddress_pools s a b
  | cancelApproveAddress a b => cases h; exact cancelApproveAddress_pools s a b
  | changeNFTApproveAddress a b => cases h; exact changeNFTApproveAddress_pools s a b
  | cancelNFTApproveAddress a b => cases h; exact cancelNFTApproveAddress_pools s a b
  | splitNFT16 a level => exact (splitNFT16_nftWrite h).pools
  | mergeNFT16 a => exact (mergeNFT16_nftWrite h).pools
  | changeNFTOwner a b level => exact (changeNFTOwner_nftWrite h).pools
  | createNFTByOfficial16 owners bn => exact createNFTByOfficial16_pools hleaves h
  | voteOfficialNFT n =>
    cases h
    show (StateDB.voteOfficialNFT s n).pools = s.pools
    simp only [StateDB.voteOfficialNFT]
    split_ifs with hweight
    · have hsame : s.pools.nominatedOfficialNFT = some n :=
        hleaves.resolve_left (not_le.mpr hweight)
      simp only [← hsame]
    · rfl
  | closeExchanger a bn => exact closeExchanger_pools_of_leavesPools hleaves h
  | addOrUpdateActiveMiner a x height => cases h; exact addOrUpdateActiveMiner_pools hleaves
  | snapshot => cases h; rfl
  | revertToSnapshot id => exact StateDB.revertToSnapshot_pools h
  | finalise => cases h; rfl

/-! ## Whole runs -/

theorem run_pools {ops : List Operation}
    (hrun : Run (apply H) (fun s op => op.LeavesPools H s) s ops t) : t.pools = s.pools :=
  hrun.invariant (P := fun u => u.pools = s.pools) rfl fun hpools hleaves hstep =>
    (apply_pools hleaves hstep).trans hpools

/-- A snapshot reverted after operations that all leave the pools, nested snapshots and reverts
among them, gives back the pools it was taken with. -/
theorem revertToSnapshot_pools_of_leavesPools {s t u : StateDB} {ops : List Operation}
    (hrun : Run (apply H) (fun s op => op.LeavesPools H s) s.snapshot ops t)
    (hrevert : t.revertToSnapshot s.nextRevisionId = some u) : u.pools = s.pools := by
  have hpools : t.pools = s.snapshot.pools := run_pools hrun
  rw [StateDB.revertToSnapshot_pools hrevert, hpools]
  rfl

/-- A state with no account and nothing in its pools. -/
def bareState : StateDB where
  accounts := fun _ => none
  journal := []
  validRevisions := []
  nextRevisionId := 0
  pools :=
    { mintDeep := ⟨1, officialMask⟩, snftExchangePool := [], pledgedTokenPool := [],
      exchangerTokenPool := [], activeMinersPool := [], officialNFTPool := [],
      nominatedOfficialNFT := none }

/-- Payments around a nested snapshot that is itself reverted. -/
theorem revertToSnapshot_pools_payments :
    ∃ t u : StateDB,
      Run (apply ⟨fun _ => []⟩) (fun s op => op.LeavesPools ⟨fun _ => []⟩ s) bareState.snapshot
          [.addBalance 1 5, .snapshot, .addBalance 2 7, .revertToSnapshot 1, .subBalance 1 2] t ∧
        t.revertToSnapshot bareState.nextRevisionId = some u ∧ u.pools = bareState.pools := by
  let s₁ := bareState.snapshot.addBalance 1 5
  let s₂ := s₁.snapshot.addBalance 2 7
  obtain ⟨s₃, hs₃⟩ : ∃ s₃, s₂.revertToSnapshot 1 = some s₃ :=
    Option.isSome_iff_exists.mp (by decide +kernel)
  have hrun : Run (apply ⟨fun _ => []⟩) (fun s op => op.LeavesPools ⟨fun _ => []⟩ s)
      bareState.snapshot
      [.addBalance 1 5, .snapshot, .addBalance 2 7, .revertToSnapshot 1, .subBalance 1 2]
      (s₃.subBalance 1 2) :=
    .snoc (.snoc (.snoc (.snoc (.snoc (.nil _) trivial rfl) trivial rfl) trivial rfl) trivial hs₃)
      trivial rfl
  obtain ⟨u, hu⟩ : ∃ u, (s₃.subBalance 1 2).revertToSnapshot bareState.nextRevisionId = some u := by
    have hsome : ((s₂.revertToSnapshot 1).bind fun s => (s.subBalance 1 2).revertToSnapshot 0).isSome := by
      decide +kernel
    rw [hs₃] at hsome
    exact Option.isSome_iff_exists.mp hsome
  exact ⟨_, u, hrun, hu, revertToSnapshot_pools_of_leavesPools hrun hu⟩

/-- A pledge made after the snapshot is still queued for the validator pool after the revert. -/
theorem revertToSnapshot_keeps_pledge :
    ∃ (s t u : StateDB) (ops : List Operation),
      Run (apply ⟨fun _ => []⟩) (fun _ _ => True) s.snapshot ops t ∧
        t.revertToSnapshot s.nextRevisionId = some u ∧ u.pools ≠ s.pools := by
  have hpledge : ((bareState.snapshot.pledgeToken 1 5).revertToSnapshot 0).map StateDB.pools =
      some { bareState.pools with pledgedTokenPool := [⟨1, 5, true⟩] } := by
    decide +kernel
  obtain ⟨u, hu, hpools⟩ := Option.map_eq_some_iff.mp hpledge
  refine ⟨bareState, _, u, [.pledgeToken 1 5], .snoc (.nil _) trivial rfl, hu, ?_⟩
  rw [hpools]
  decide

end Operation

end Wormholes
