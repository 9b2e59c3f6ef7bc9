import Wormholes.Laws.Consensus.QbftRoundChangeSet

/-!
# Laws.Consensus.QbftEvidence — what an accepted PRE-PREPARE shows

A PRE-PREPARE of a later round is meant to carry ROUND-CHANGE messages of a quorum for that round, and
PREPARE messages of a quorum for an earlier one, or none. The source verifies the signatures of the
ROUND-CHANGE messages, counts messages and compares rounds and digests of the PREPARE messages. It
asks neither whose they are nor what view they are for. `preprepare_evidence_iff` says which
part of the evidence is left to the sender.
-/

namespace Wormholes.Consensus.Qbft.Node

open Lib Common

variable {P : Type} {G : Config P} {B : Backend P} {c : Core P}

/-- The account a ROUND-CHANGE is signed by. -/
def SignedRoundChangePayload.signer (G : Config P) (p : SignedRoundChangePayload) : Option Address :=
  p.encodePayloadForSigning.bind fun payload => G.getSignatureAddress payload p.signature

/-- The account a PREPARE is signed by. -/
def Prepare.signer (G : Config P) (p : Prepare) : Option Address :=
  p.encodePayloadForSigning.bind fun payload => G.getSignatureAddress payload p.signature

namespace Core

variable (G) (c) (m : Preprepare P)

/-- The accounts that signed a ROUND-CHANGE of the justification for the core's view. -/
def roundChangeSigners : Finset Address :=
  ((m.justificationRoundChanges.filter fun p => p.view = c.currentView).filterMap fun p =>
    p.signer G).toFinset

/-- The accounts that signed a PREPARE of the justification. -/
def prepareSigners : Finset Address :=
  (m.justificationPrepares.filterMap fun p => p.signer G).toFinset

/-- The justification has ROUND-CHANGE messages of a quorum of validators for the core's view, and
its PREPARE messages, if any, are of a quorum of validators, all for the proposal and one earlier
round. -/
def Evidence : Prop :=
  c.quorum G ≤ (c.roundChangeSigners G m ∩ c.valSet.toFinset).card ∧
    (m.justificationPrepares ≠ [] →
      c.quorum G ≤ (prepareSigners G m ∩ c.valSet.toFinset).card ∧
      ∃ round < c.current.round, ∀ p ∈ m.justificationPrepares,
        (∃ a ∈ c.valSet, p.signer G = some a) ∧ p.sequence = c.current.sequence ∧
          p.round = round ∧ p.digest = G.blocks.hash m.proposal)

/-- What the source does not check: that the signers are enough once repetitions and messages for
other views are left out, and that the PREPARE messages are signed by validators, for the core's
sequence and an earlier round. In a round it takes for round zero it does not compare them. -/
def Sincere : Prop :=
  c.quorum G ≤ (c.roundChangeSigners G m).card ∧
    (m.justificationPrepares ≠ [] →
      c.quorum G ≤ (prepareSigners G m).card ∧
      (∀ p ∈ m.justificationPrepares, (∃ a ∈ c.valSet, p.signer G = some a) ∧
        p.sequence = c.current.sequence ∧ p.round < c.current.round) ∧
      (c.current.round % 2 ^ 64 = 0 → ∃ round, ∀ p ∈ m.justificationPrepares,
        p.round = round ∧ p.digest = G.blocks.hash m.proposal))

end Core

/-- The ROUND-CHANGE messages of a verified PRE-PREPARE are signed by validators. -/
theorem roundChangeSigners_subset {m : Preprepare P} {m' : Message P}
    (h : c.verifySignatures G (.preprepare m) = .ok m') :
    c.roundChangeSigners G m ⊆ c.valSet.toFinset := by
  obtain ⟨-, -, rcs, hrcs, -⟩ := verifySignatures_preprepare h
  intro a ha
  obtain ⟨p, hp, hsigner⟩ := List.mem_filterMap.mp (List.mem_toFinset.mp ha)
  obtain ⟨p', hp'⟩ := hrcs p (List.mem_of_mem_filter hp)
  obtain ⟨source, hsource, -⟩ := bind_eq_ok.mp hp'
  obtain ⟨hmem, hfound⟩ := verify_eq_ok_iff.mp hsource
  cases hsigner.symm.trans hfound
  exact List.mem_toFinset.mpr hmem

/-- What the check of a justification says of its PREPARE messages. -/
theorem common_of_isJustified {hash : Hash} {rcs : List SignedRoundChangePayload}
    {prepares : List Prepare} {quorumSize : ℤ} (hquorum : 1 ≤ quorumSize)
    (h : isJustified hash rcs prepares quorumSize = .ok ()) (hne : prepares ≠ []) :
    ∃ round, ∀ p ∈ prepares, p.round = round ∧ p.digest = hash := by
  rcases ((isJustified_eq_ok_iff hquorum).mp h).2 with ⟨hnil, -⟩ | ⟨-, round, hprepared⟩
  · exact absurd hnil hne
  · exact ⟨round, hprepared.1⟩

theorem justifies_of_handlePreprepareMsg {m : Preprepare P}
    (h : (c.handlePreprepareMsg G B m).err = none) : c.justifies G m = true := by
  by_contra hnot
  unfold Core.handlePreprepareMsg at h
  split at h
  · cases h
  · rw [if_pos (by simpa using hnot)] at h
    cases h

/-- The evidence of an accepted PRE-PREPARE is complete exactly when its sender took care of what the
source does not check. -/
theorem preprepare_evidence_iff (G : Config P) (B : Backend P) (c : Core P) (m m' : Preprepare P)
    (_hround : 0 < c.current.round)
    (hverify : c.verifySignatures G (.preprepare m) = .ok (.preprepare m'))
    (hcheck : c.checkMessage preprepareCode m'.view = none)
    (haccept : (c.handlePreprepareMsg G B m').err = none) : c.Evidence G m ↔ c.Sincere G m := by
  obtain ⟨source, hsource, rcs, -, hm'⟩ := verifySignatures_preprepare hverify
  have hquorum : 1 ≤ c.quorum G := one_le_quorum (List.ne_nil_of_mem hsource)
  have hrcs := Finset.inter_eq_left.mpr (roundChangeSigners_subset hverify)
  have hview := congrArg Ibft.View.round
    (checkMessage_view (show preprepareCode ≠ roundChangeCode by decide) hcheck)
  -- the source compares the PREPARE messages, except in what it takes for round zero
  have hcommon (hne : m.justificationPrepares ≠ []) (hzero : ¬ c.current.round % 2 ^ 64 = 0) :
      ∃ round, ∀ p ∈ m.justificationPrepares, p.round = round ∧
        p.digest = G.blocks.hash m.proposal := by
    have hjustifies := of_decide_eq_true (justifies_of_handlePreprepareMsg haccept)
    rw [show m'.round = c.current.round from hview] at hjustifies
    cases hm'
    exact common_of_isJustified hquorum (hjustifies.resolve_left hzero) hne
  unfold Core.Evidence Core.Sincere
  rw [hrcs]
  refine and_congr_right fun _ => forall_congr' fun hne => ?_
  constructor
  · rintro ⟨hmany, round, hlt, hall⟩
    refine ⟨hmany.trans (by exact_mod_cast Finset.card_le_card Finset.inter_subset_left), ?_, ?_⟩
    · intro p hp
      obtain ⟨hsigned, hsequence, rfl, -⟩ := hall p hp
      exact ⟨hsigned, hsequence, hlt⟩
    · exact fun _ => ⟨round, fun p hp => (hall p hp).2.2⟩
  · rintro ⟨hmany, hall, hzero⟩
    obtain ⟨round, hsame⟩ : ∃ round, ∀ p ∈ m.justificationPrepares, p.round = round ∧
        p.digest = G.blocks.hash m.proposal :=
      if h : c.current.round % 2 ^ 64 = 0 then hzero h else hcommon hne h
    have hsubset : Core.prepareSigners G m ⊆ c.valSet.toFinset := by
      intro a ha
      obtain ⟨p, hp, hsigner⟩ := List.mem_filterMap.mp (List.mem_toFinset.mp ha)
      obtain ⟨a', ha', hsigner'⟩ := (hall p hp).1
      cases hsigner.symm.trans hsigner'
      exact List.mem_toFinset.mpr ha'
    obtain ⟨first, hfirst⟩ := List.exists_mem_of_ne_nil _ hne
    rw [Finset.inter_eq_left.mpr hsubset]
    refine ⟨hmany, round, (hsame first hfirst).1 ▸ (hall first hfirst).2.2, fun p hp => ?_⟩
    exact ⟨(hall p hp).1, (hall p hp).2.1, hsame p hp⟩

/-! ## One validator counted three times -/

/-- One of four validators in round one, where validator one proposes. -/
def roundOne : Core ℕ :=
  let c := plainConfig.start (plainBackend 1 [1, 2, 3, 4]) 2
  { c with current := { c.current with round := 1 }, proposer := some 1 }

/-- A PRE-PREPARE with ROUND-CHANGE messages of the given validators. -/
def proposalFrom (signers : List ℕ) : Preprepare ℕ where
  source := 1
  sequence := 2
  round := 1
  signature := [1]
  proposal := 2
  justificationRoundChanges := signers.map fun a =>
    { source := BitVec.ofNat 160 a, sequence := 2, round := 1, signature := [a], preparedRound := none,
      preparedDigest := 0 }
  justificationPrepares := []

/-- The core takes the PRE-PREPARE. -/
def Core.Takes (c : Core ℕ) (m : Preprepare ℕ) : Prop :=
  c.verifySignatures plainConfig (.preprepare m) = .ok (.preprepare m) ∧
    c.checkMessage preprepareCode m.view = none ∧
    (c.handlePreprepareMsg plainConfig (plainBackend 1 [1, 2, 3, 4]) m).err = none

/-- A PRE-PREPARE with the ROUND-CHANGE of validator 3 three times is accepted, though one validator is
no quorum of four. -/
theorem repeated_roundChange_accepted :
    roundOne.Takes (proposalFrom [3, 3, 3]) ∧ ¬ roundOne.Evidence plainConfig (proposalFrom [3, 3, 3]) :=
  ⟨⟨by decide +kernel, by decide +kernel, by decide +kernel⟩,
    fun h => absurd h.1 (by decide +kernel)⟩

/-- With the ROUND-CHANGEs of three different validators the accepted PRE-PREPARE has its evidence. -/
theorem preprepare_evidence_three :
    roundOne.Takes (proposalFrom [2, 3, 4]) ∧ roundOne.Evidence plainConfig (proposalFrom [2, 3, 4]) := by
  have htakes : roundOne.Takes (proposalFrom [2, 3, 4]) :=
    ⟨by decide +kernel, by decide +kernel, by decide +kernel⟩
  refine ⟨htakes, (preprepare_evidence_iff plainConfig _ roundOne _ _ Nat.one_pos htakes.1 htakes.2.1
    htakes.2.2).mpr ⟨by decide +kernel, fun h => absurd rfl h⟩⟩

end Wormholes.Consensus.Qbft.Node
