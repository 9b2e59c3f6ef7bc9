import Wormholes.Consensus.QbftNode

/-!
# Laws.Consensus.QbftJustification — what `isJustified` decides

The loops of `isJustified` count with early exits. Each is equal to one test on the whole list
(`checkPrepares_eq`, `hasQuorumForNil_eq`, `hasQuorumForPrepared_eq`), so the result, error text
included, depends on the two lists as multisets. `isJustified_eq_ok_iff` is the specification in the
source's own comment, with a prepared round of zero and no digest counted as none.
-/

namespace Wormholes.Consensus.Qbft.Node

open Lib Common

variable {hash : Hash} {preparedRound : ℕ}
variable {m : SignedRoundChangePayload} {prepares rest : List Prepare} {first : Prepare}

/-! ## The loops -/

/-- A ROUND-CHANGE without a prepared round and digest, where a prepared round of zero is none. -/
def SignedRoundChangePayload.IsNil (m : SignedRoundChangePayload) : Prop :=
  (m.preparedRound = none ∨ m.preparedRound = some 0) ∧ m.preparedDigest = zeroHash

instance (m : SignedRoundChangePayload) : Decidable m.IsNil := inferInstanceAs (Decidable (_ ∧ _))

/-- A ROUND-CHANGE with no prepared round above the given one. -/
def SignedRoundChangePayload.AtMost (m : SignedRoundChangePayload) (round : ℕ) : Prop :=
  ∀ r ∈ m.preparedRound, r ≤ round

instance (m : SignedRoundChangePayload) (round : ℕ) : Decidable (m.AtMost round) :=
  inferInstanceAs (Decidable (∀ r ∈ m.preparedRound, r ≤ round))

/-- A ROUND-CHANGE with the given prepared round and digest. -/
def SignedRoundChangePayload.Matches (m : SignedRoundChangePayload) (round : ℕ) (hash : Hash) : Prop :=
  m.preparedRound = some round ∧ m.preparedDigest = hash

instance (m : SignedRoundChangePayload) (round : ℕ) (hash : Hash) : Decidable (m.Matches round hash) :=
  inferInstanceAs (Decidable (_ ∧ _))

theorem SignedRoundChangePayload.Matches.atMost (h : m.Matches preparedRound hash) :
    m.AtMost preparedRound := by
  intro r hr
  rw [h.1] at hr
  exact le_of_eq (Option.some.inj hr).symm

theorem checkPrepares_eq (ps : List Prepare) :
    checkPrepares preparedRound hash ps =
      if ∀ p ∈ ps, p.round = preparedRound ∧ p.digest = hash then .ok ()
      else .error "prepared messages do not have same round or do not match proposal" := by
  induction ps with
  | nil => rfl
  | cons p ps ih =>
    simp only [checkPrepares, List.forall_mem_cons]
    by_cases hp : p.round = preparedRound ∧ p.digest = hash
    · rw [if_neg (by simp [hp.1, hp.2]), ih]
      simp only [hp, true_and]
    · rw [if_pos (by rw [← not_and_or]; exact fun h => hp ⟨h.1.symm, h.2.symm⟩),
        if_neg fun h => hp h.1]

theorem hasQuorumForNil_cons (quorumSize count : ℤ) (m : SignedRoundChangePayload)
    (ms : List SignedRoundChangePayload) :
    hasQuorumOfRoundChangeMessagesForNil quorumSize count (m :: ms) =
      if m.IsNil then
        if count + 1 = quorumSize then .ok ()
        else hasQuorumOfRoundChangeMessagesForNil quorumSize (count + 1) ms
      else hasQuorumOfRoundChangeMessagesForNil quorumSize count ms :=
  rfl

/-- Before it has reached the quorum, the count reaches it if enough messages follow. -/
theorem hasQuorumForNil_eq {quorumSize : ℤ} (ms : List SignedRoundChangePayload) :
    ∀ {count : ℤ}, count < quorumSize →
      hasQuorumOfRoundChangeMessagesForNil quorumSize count ms =
        if quorumSize ≤ count + ms.countP (fun m => m.IsNil) then .ok ()
        else .error "quorum of roundchange messages with nil prepared round not found" := by
  induction ms with
  | nil =>
    intro count hlt
    rw [hasQuorumOfRoundChangeMessagesForNil, if_neg (by simpa using hlt)]
  | cons m ms ih =>
    intro count hlt
    rw [hasQuorumForNil_cons]
    by_cases hm : m.IsNil
    · have hcount : (m :: ms).countP (fun m => decide m.IsNil) =
          ms.countP (fun m => decide m.IsNil) + 1 := List.countP_cons_of_pos (by simpa using hm)
      rw [if_pos hm, hcount]
      by_cases hlast : count + 1 = quorumSize
      · rw [if_pos hlast, if_pos (by push_cast; omega)]
      · rw [if_neg hlast, ih (by omega)]
        push_cast
        congr 1
        exact propext (by constructor <;> intro h <;> omega)
    · rw [if_neg hm, ih hlt, List.countP_cons_of_neg (by simpa using hm)]

theorem hasQuorumForPrepared_cons (quorumSize count : ℤ) (matching : Bool)
    (m : SignedRoundChangePayload) (ms : List SignedRoundChangePayload) :
    hasQuorumOfRoundChangeMessagesForPreparedRoundAndBlock preparedRound hash quorumSize count
        matching (m :: ms) =
      if m.AtMost preparedRound then
        if quorumSize ≤ count + 1 ∧ decide (matching = true ∨ m.Matches preparedRound hash) = true then
          .ok ()
        else
          hasQuorumOfRoundChangeMessagesForPreparedRoundAndBlock preparedRound hash quorumSize
            (count + 1) (decide (matching = true ∨ m.Matches preparedRound hash)) ms
      else
        hasQuorumOfRoundChangeMessagesForPreparedRoundAndBlock preparedRound hash quorumSize count
          matching ms :=
  rfl

/-- The loop goes on until it has counted a quorum and seen a match. -/
theorem hasQuorumForPrepared_eq {quorumSize : ℤ} (ms : List SignedRoundChangePayload) :
    ∀ {count : ℤ} {matching : Bool}, ¬ (quorumSize ≤ count ∧ matching = true) →
      hasQuorumOfRoundChangeMessagesForPreparedRoundAndBlock preparedRound hash quorumSize count
          matching ms =
        if quorumSize ≤ count + ms.countP (fun m => m.AtMost preparedRound) ∧
            (matching = true ∨ ∃ m ∈ ms, m.Matches preparedRound hash) then .ok ()
        else .error "quorum of roundchange messages with prepared round and proposal not found" := by
  induction ms with
  | nil =>
    intro count matching hnot
    rw [hasQuorumOfRoundChangeMessagesForPreparedRoundAndBlock, if_neg (by simpa using hnot)]
  | cons m ms ih =>
    intro count matching hnot
    rw [hasQuorumForPrepared_cons]
    by_cases hm : m.AtMost preparedRound
    · have hcount : (m :: ms).countP (fun m => decide (m.AtMost preparedRound)) =
          ms.countP (fun m => decide (m.AtMost preparedRound)) + 1 :=
        List.countP_cons_of_pos (by simpa using hm)
      rw [if_pos hm, hcount]
      simp only [List.exists_mem_cons_iff]
      by_cases hdone : quorumSize ≤ count + 1 ∧ (matching = true ∨ m.Matches preparedRound hash)
      · rw [if_pos ⟨hdone.1, decide_eq_true hdone.2⟩, if_pos]
        exact ⟨by push_cast; omega, hdone.2.elim Or.inl fun h => Or.inr (Or.inl h)⟩
      · have hnot' : ¬ (quorumSize ≤ count + 1 ∧
            decide (matching = true ∨ m.Matches preparedRound hash) = true) :=
          fun h => hdone ⟨h.1, of_decide_eq_true h.2⟩
        rw [if_neg hnot', ih hnot']
        congr 1
        rw [decide_eq_true_eq, or_assoc, Nat.cast_succ, add_assoc count, add_comm 1]
    · have hother : ¬ m.Matches preparedRound hash := fun h => hm h.atMost
      rw [if_neg hm, ih hnot, List.countP_cons_of_neg (by simpa using hm)]
      simp only [List.exists_mem_cons_iff, hother, false_or]

/-! ## The test -/

section Test

variable {quorumSize : ℤ} {rcs : List SignedRoundChangePayload}

/-- What makes a list of PREPARE messages evidence for a round, and the ROUND-CHANGE messages fit. -/
def PreparedAt (hash : Hash) (rcs : List SignedRoundChangePayload) (prepares : List Prepare)
    (quorumSize : ℤ) (round : ℕ) : Prop :=
  (∀ p ∈ prepares, p.round = round ∧ p.digest = hash) ∧
    quorumSize ≤ rcs.countP (fun m => m.AtMost round) ∧ ∃ m ∈ rcs, m.Matches round hash

theorem isJustified_of_few (hfew : (rcs.length : ℤ) < quorumSize) :
    isJustified hash rcs prepares quorumSize =
      .error "number of roundchange messages is less than required quorum of messages" := by
  rw [isJustified.eq_def, if_pos hfew]

theorem isJustified_nil (hquorum : 1 ≤ quorumSize) (hmany : quorumSize ≤ rcs.length) :
    isJustified hash rcs [] quorumSize =
      if quorumSize ≤ rcs.countP (fun m => m.IsNil) then .ok ()
      else .error "quorum of roundchange messages with nil prepared round not found" := by
  have hloop := hasQuorumForNil_eq rcs (show (0 : ℤ) < quorumSize by omega)
  rw [zero_add] at hloop
  rw [isJustified.eq_def, if_neg (not_lt.mpr hmany), if_neg fun h => h.1 rfl]
  exact hloop

theorem isJustified_cons_of_few (hmany : quorumSize ≤ rcs.length)
    (hfew : ((first :: rest).length : ℤ) < quorumSize) :
    isJustified hash rcs (first :: rest) quorumSize =
      .error "number of prepared messages is less than required quorum of messages" := by
  rw [isJustified.eq_def, if_neg (not_lt.mpr hmany), if_pos ⟨by simp, hfew⟩]

theorem isJustified_cons (hmany : quorumSize ≤ rcs.length)
    (hprepares : quorumSize ≤ (first :: rest).length) :
    isJustified hash rcs (first :: rest) quorumSize =
      if ∀ p ∈ first :: rest, p.round = first.round ∧ p.digest = hash then
        if quorumSize ≤ rcs.countP (fun m => m.AtMost first.round) ∧
            ∃ m ∈ rcs, m.Matches first.round hash then .ok ()
        else .error "quorum of roundchange messages with prepared round and proposal not found"
      else .error "prepared messages do not have same round or do not match proposal" := by
  have hloop := @hasQuorumForPrepared_eq hash first.round quorumSize rcs 0 false nofun
  rw [zero_add] at hloop
  simp only [Bool.false_eq_true, false_or] at hloop
  rw [isJustified.eq_def, if_neg (not_lt.mpr hmany), if_neg fun h => absurd h.2 (not_lt.mpr hprepares)]
  change (checkPrepares first.round hash (first :: rest) >>= fun _ => _) = _
  rw [checkPrepares_eq, hloop]
  split <;> rfl

/-- A round of PREPARE messages that are all of one round is the round of the first. -/
theorem PreparedAt.round_eq {round : ℕ} (h : PreparedAt hash rcs (first :: rest) quorumSize round) :
    round = first.round :=
  (h.1 first List.mem_cons_self).1.symm

/-- The specification without the order of the messages: what `isJustified` counts, in terms of the two
lists alone. -/
theorem isJustified_eq_ok_iff (hquorum : 1 ≤ quorumSize) :
    isJustified hash rcs prepares quorumSize = .ok () ↔
      quorumSize ≤ rcs.length ∧
        ((prepares = [] ∧ quorumSize ≤ rcs.countP (fun m => m.IsNil)) ∨
          (quorumSize ≤ prepares.length ∧ ∃ round, PreparedAt hash rcs prepares quorumSize round)) := by
  rcases lt_or_ge (rcs.length : ℤ) quorumSize with hfew | hmany
  · rw [isJustified_of_few hfew]
    exact ⟨nofun, fun h => absurd h.1 (not_le.mpr hfew)⟩
  · cases prepares with
    | nil =>
      have hnone : ¬ quorumSize ≤ (([] : List Prepare).length : ℤ) := by
        simp only [List.length_nil, Nat.cast_zero, not_le]
        omega
      rw [isJustified_nil hquorum hmany]
      simp only [hmany, hnone, true_and, false_and, or_false]
      split <;> simp_all
    | cons first rest =>
      rcases lt_or_ge ((first :: rest).length : ℤ) quorumSize with hfew | hprepares
      · rw [isJustified_cons_of_few hmany hfew]
        simp only [reduceCtorEq, false_and, false_or, false_iff, not_and]
        exact fun _ h => absurd h (not_le.mpr hfew)
      · have hround : (∃ round, PreparedAt hash rcs (first :: rest) quorumSize round) ↔
            PreparedAt hash rcs (first :: rest) quorumSize first.round :=
          ⟨fun ⟨_, h⟩ => h.round_eq ▸ h, fun h => ⟨_, h⟩⟩
        rw [isJustified_cons hmany hprepares, hround, PreparedAt]
        simp only [hmany, hprepares, reduceCtorEq, true_and, false_and, false_or]
        split <;> rename_i hall
        · split <;> rename_i hrcs
          · exact ⟨fun _ => ⟨hall, hrcs⟩, fun _ => rfl⟩
          · exact ⟨nofun, fun h => absurd h.2 hrcs⟩
        · exact ⟨nofun, fun h => absurd h.1 hall⟩

/-- Not even the error depends on the order of the messages. -/
theorem isJustified_perm {rcs' : List SignedRoundChangePayload} {prepares' : List Prepare}
    (hquorum : 1 ≤ quorumSize) (hrcs : rcs'.Perm rcs) (hprepares : prepares'.Perm prepares) :
    isJustified hash rcs' prepares' quorumSize = isJustified hash rcs prepares quorumSize := by
  have hlength := hrcs.length_eq
  rcases lt_or_ge (rcs.length : ℤ) quorumSize with hfew | hmany
  · rw [isJustified_of_few hfew, isJustified_of_few (by omega)]
  · have hmany' : quorumSize ≤ rcs'.length := by omega
    cases prepares with
    | nil =>
      rw [hprepares.eq_nil, isJustified_nil hquorum hmany, isJustified_nil hquorum hmany',
        hrcs.countP_eq]
    | cons first rest =>
      cases prepares' with
      | nil => exact absurd hprepares.symm.eq_nil (by simp)
      | cons first' rest' =>
        have hlength' := hprepares.length_eq
        rcases lt_or_ge ((first :: rest).length : ℤ) quorumSize with hfew | hall
        · rw [isJustified_cons_of_few hmany hfew, isJustified_cons_of_few hmany' (by omega)]
        · rw [isJustified_cons hmany hall, isJustified_cons hmany' (by omega)]
          simp only [hprepares.mem_iff, hrcs.mem_iff, hrcs.countP_eq]
          -- the common round is that of either first message, if there is one
          have hfirst : first' ∈ first :: rest := hprepares.mem_iff.mp List.mem_cons_self
          by_cases hsame : first'.round = first.round
          · rw [hsame]
          · rw [if_neg fun h => hsame (h first List.mem_cons_self).1.symm,
              if_neg fun h => hsame (h first' hfirst).1]

/-- The specification of `isJustified`: it returns nil exactly for enough ROUND-CHANGE messages that
know of no prepared block, or for a quorum of PREPARE messages of one round and the proposal that no
ROUND-CHANGE of a quorum goes beyond. The order in which the messages stand is never seen. -/
theorem isJustified_spec (hash : Hash) (rcs : List SignedRoundChangePayload) (prepares : List Prepare)
    (quorumSize : ℤ) (hquorum : 1 ≤ quorumSize) :
    (isJustified hash rcs prepares quorumSize = .ok () ↔
      quorumSize ≤ rcs.length ∧
        ((prepares = [] ∧
            quorumSize ≤ rcs.countP fun m =>
              (m.preparedRound = none ∨ m.preparedRound = some 0) ∧ m.preparedDigest = zeroHash) ∨
          (quorumSize ≤ prepares.length ∧ ∃ preparedRound,
            (∀ p ∈ prepares, p.round = preparedRound ∧ p.digest = hash) ∧
            (quorumSize ≤ rcs.countP fun m => ∀ r ∈ m.preparedRound, r ≤ preparedRound) ∧
            ∃ m ∈ rcs, m.preparedRound = some preparedRound ∧ m.preparedDigest = hash))) ∧
      ∀ rcs' prepares', rcs'.Perm rcs → prepares'.Perm prepares →
        isJustified hash rcs' prepares' quorumSize = isJustified hash rcs prepares quorumSize :=
  ⟨isJustified_eq_ok_iff hquorum, fun _ _ hrcs hprepares => isJustified_perm hquorum hrcs hprepares⟩

end Test

/-- A ROUND-CHANGE without a prepared block. -/
def plainRoundChange : SignedRoundChangePayload where
  source := 1
  sequence := 1
  round := 1
  signature := []
  preparedRound := none
  preparedDigest := zeroHash

/-- Two ROUND-CHANGE messages without a prepared block justify a proposal for a quorum of two. -/
theorem isJustified_spec_plain :
    1 ≤ (2 : ℤ) ∧ isJustified 5 [plainRoundChange, plainRoundChange] [] 2 = .ok () :=
  ⟨by decide,
    (isJustified_spec 5 [plainRoundChange, plainRoundChange] [] 2 (by decide)).1.mpr
      ⟨by decide, Or.inl ⟨rfl, by decide⟩⟩⟩

/-! ## Matching a ROUND-CHANGE and PREPARE messages -/

theorem checkMatching_eq_ok_iff :
    checkMatching m prepares = .ok () ↔
      ∀ p ∈ prepares, p.digest = m.preparedDigest ∧ m.preparedRound = some p.round := by
  induction prepares with
  | nil => exact ⟨fun _ => nofun, fun _ => rfl⟩
  | cons p prepares ih =>
    rw [List.forall_mem_cons, ← ih, checkMatching]
    split
    next hdigest => exact ⟨nofun, fun h => absurd h.1.1 hdigest⟩
    next hdigest =>
      split
      next hround => exact ⟨nofun, fun h => absurd h.1.2 hround⟩
      next hround => exact ⟨fun h => ⟨⟨not_not.mp hdigest, not_not.mp hround⟩, h⟩, fun h => h.2⟩

theorem hasMatching_eq_ok_iff {quorumSize : ℤ} :
    hasMatchingRoundChangeAndPrepares m prepares quorumSize = .ok () ↔
      quorumSize ≤ prepares.length ∧
        ∀ p ∈ prepares, p.digest = m.preparedDigest ∧ m.preparedRound = some p.round := by
  unfold hasMatchingRoundChangeAndPrepares
  split
  next hfew => exact ⟨nofun, fun h => absurd h.1 (not_le.mpr hfew)⟩
  next hmany => rw [checkMatching_eq_ok_iff, and_iff_right (not_lt.mp hmany)]

end Wormholes.Consensus.Qbft.Node
