import Wormholes.Consensus.IbftLookups
import Wormholes.Laws.Consensus.IbftNode
import Wormholes.Laws.Consensus.Selection

/-!
# Laws.Consensus.IbftLookups — which messages crash an IBFT node

A selection of validators goes through if and only if its header is in the chain, the header's pool
of active miners can be read, and the pool is empty or has a stake (`validatorSet_isSome_iff`). The
verification of a proposal does not panic apart from that (`engineVerifyHeader_ne_panic`). So a
message of a validator stops the node in three places: an old PRE-PREPARE at the parent it names, a
current one at the node's own head, and a ROUND CHANGE that starts a round at the head, where the
validator set must not be empty either (`handleMsg_returns_iff`).
-/

namespace Wormholes.Consensus.Ibft.Node.LocalChain

open Lib Common

variable {P : Type} {L : LocalChain P} {c : Node.Core P}
variable {K : Hashes} {header : Option Header} {round : ℕ} {preprepare : Preprepare P}
  {src : Address} {view : View}
variable {E : Engine} {miners : List ActiveMiner} {k randomHash : ℕ} {payload : Subject → Payload P}
  {G : Config P} {B : Backend P} {rc : Subject}
variable (h : Header) (validators : List Address)

/-! ## Verification -/

theorem require_bind_eq_panic {α : Type} {p : Prop} [Decidable p] {msg : String} {f : Unit → Res α}
    (h : (Res.require p msg >>= f) = .panic) : f () = .panic := by
  rcases Res.bind_eq_panic.mp h with hcheck | ⟨_, -, hrest⟩
  · exact absurd hcheck Res.require_ne_panic
  · exact hrest

theorem Header.sealers_ne_panic (data : List ℕ) (sigs : List (List ℕ)) :
    Header.sealers K data sigs ≠ .panic := by
  induction sigs with
  | nil => exact fun h => (by cases h)
  | cons sig sigs ih =>
    intro h
    unfold Header.sealers at h
    split at h
    · cases h
    · rcases Res.bind_eq_panic.mp h with hrest | ⟨_, -, hok⟩
      · exact ih hrest
      · cases hok

theorem countSeals_ne_panic (committers : List Address) :
    countSeals validators committers ≠ .panic := by
  induction committers generalizing validators with
  | nil => exact fun h => (by cases h)
  | cons a committers ih =>
    intro h
    unfold countSeals at h
    split at h
    · rcases Res.bind_eq_panic.mp h with hrest | ⟨_, -, hok⟩
      · exact ih _ hrest
      · cases hok
    · cases h

theorem verifySigner_ne_panic : verifySigner K h validators ≠ .panic := by
  intro hpanic
  unfold verifySigner at hpanic
  rcases Res.bind_eq_panic.mp (require_bind_eq_panic hpanic) with hauthor | ⟨_, -, hmember⟩
  · unfold Header.author at hauthor
    split at hauthor
    · cases hauthor
    · split at hauthor <;> cases hauthor
  · exact Res.require_ne_panic hmember

theorem verifyCommittedSeals_ne_panic : verifyCommittedSeals K h validators ≠ .panic := by
  intro hpanic
  unfold verifyCommittedSeals at hpanic
  split at hpanic
  · cases hpanic
  · split at hpanic
    · cases hpanic
    · rcases Res.bind_eq_panic.mp (require_bind_eq_panic hpanic) with hsigners | ⟨_, -, hpanic⟩
      · unfold Header.signers at hsigners
        split at hsigners
        · cases hsigners
        · exact Header.sealers_ne_panic _ _ hsigners
      · rcases Res.bind_eq_panic.mp hpanic with hcount | ⟨_, -, hfew⟩
        · exact countSeals_ne_panic _ _ hcount
        · exact Res.require_ne_panic hfew

theorem verifyCascadingFields_ne_panic (parents : List Header) :
    verifyCascadingFields K E h validators parents ≠ .panic := by
  intro hpanic
  simp only [verifyCascadingFields] at hpanic
  split at hpanic
  · cases hpanic
  · split at hpanic
    · cases hpanic
    · have hpanic := require_bind_eq_panic (require_bind_eq_panic hpanic)
      rcases Res.bind_eq_panic.mp hpanic with hsigner | ⟨_, -, hseals⟩
      · exact verifySigner_ne_panic _ _ hsigner
      · exact verifyCommittedSeals_ne_panic _ _ hseals

/-- The checks of a header do not panic. -/
theorem engineVerifyHeader_ne_panic (now : ℕ) (h : Header) (parents : List Header)
    (validators : List Address) : engineVerifyHeader K E now h parents validators ≠ .panic := by
  intro hpanic
  unfold engineVerifyHeader at hpanic
  have hpanic := require_bind_eq_panic (require_bind_eq_panic (require_bind_eq_panic
    (require_bind_eq_panic (require_bind_eq_panic (require_bind_eq_panic hpanic)))))
  exact verifyCascadingFields_ne_panic _ _ _ hpanic

/-! ## Selection -/

/-- The pool of active miners at a header can be read. -/
def Pool (L : LocalChain P) (header : Option Header) (miners : List ActiveMiner) : Prop :=
  ∃ h ∈ header, L.readActiveMinersPool (h.hash L.toHashes) (h.number % 2 ^ 64) = some miners

/-- The stake of a pool. -/
def stake (miners : List ActiveMiner) : ℤ :=
  StakedList.totalStakeBalance (ActiveMinerList.staked miners)

/-- What a selection of validators needs. -/
def Selects (L : LocalChain P) (header : Option Header) : Prop :=
  ∃ miners, L.Pool header miners ∧ (miners = [] ∨ stake miners ≠ 0)

/-- What a selection of at least one validator needs. -/
def SelectsSome (L : LocalChain P) (header : Option Header) : Prop :=
  ∃ miners, L.Pool header miners ∧ stake miners ≠ 0

theorem validatorByDistanceAndWeight_isSome_iff :
    (L.validatorByDistanceAndWeight miners k randomHash).isSome ↔ miners = [] ∨ stake miners ≠ 0 := by
  have hnil : ActiveMinerList.convertToBigInt miners = [] ↔ miners = [] := List.map_eq_nil_iff
  unfold validatorByDistanceAndWeight stake
  simp only
  split
  next h => exact ⟨fun hsome => (by cases hsome), fun hok => hok.elim
    (fun hempty => absurd (hnil.mpr hempty) h.1) (fun hstake => absurd h.2 hstake)⟩
  next h =>
    refine ⟨fun _ => ?_, fun _ => rfl⟩
    by_cases hempty : miners = []
    · exact Or.inl hempty
    · exact Or.inr fun hzero => h ⟨fun hmap => hempty (hnil.mp hmap), hzero⟩

theorem random11ValidatorFromPool_inv {out : List Staked}
    (h : L.random11ValidatorFromPool header = some out) :
    ∃ h ∈ header, ∃ miners,
      L.readActiveMinersPool (h.hash L.toHashes) (h.number % 2 ^ 64) = some miners ∧
        ∃ validators,
          L.validatorByDistanceAndWeight miners 11 (hashBig (h.hash L.toHashes)) = some validators ∧
            out = validators.foldl (fun l a => StakedList.add l a
              (StakedList.stakeBalance (ActiveMinerList.staked miners) a)) [] := by
  cases header with
  | none => cases h
  | some header =>
    obtain ⟨miners, hpool, h⟩ := Option.bind_eq_some_iff.mp h
    obtain ⟨validators, hvalidators, hout⟩ := Option.bind_eq_some_iff.mp h
    exact ⟨header, rfl, miners, hpool, validators, hvalidators, (Option.some.inj hout).symm⟩

/-- A header's validators are selected exactly if its pool is known and is empty or has a stake. -/
theorem validatorSet_isSome_iff : (L.validatorSet header).isSome ↔ L.Selects header := by
  unfold validatorSet Selects Pool
  rw [Option.isSome_map]
  constructor
  · intro h
    obtain ⟨out, hout⟩ := Option.isSome_iff_exists.mp h
    obtain ⟨h', hheader, miners, hpool, validators, hvalidators, -⟩ :=
      random11ValidatorFromPool_inv hout
    refine ⟨miners, ⟨h', hheader, hpool⟩, ?_⟩
    exact validatorByDistanceAndWeight_isSome_iff.mp (Option.isSome_of_eq_some hvalidators)
  · rintro ⟨miners, ⟨h', hheader, hpool⟩, hstake⟩
    have hsome : (L.validatorByDistanceAndWeight miners 11 (hashBig (h'.hash L.toHashes))).isSome :=
      validatorByDistanceAndWeight_isSome_iff.mpr hstake
    obtain ⟨validators, hvalidators⟩ := Option.isSome_iff_exists.mp hsome
    obtain rfl := Option.mem_def.mp hheader
    unfold random11ValidatorFromPool
    simp only [Option.bind_eq_bind, Option.bind_some, hpool, hvalidators, Option.isSome_some]

theorem add_ne_nil (l : List Staked) (a : Address) (amount : ℤ) : StakedList.add l a amount ≠ [] := by
  intro h
  have hperm := StakedList.map_addr_add l a amount
  rw [h, List.map_nil] at hperm
  have hnil := hperm.symm.eq_nil
  split at hnil
  next hexist =>
    rw [hnil] at hexist
    cases hexist
  next => exact List.append_ne_nil_of_right_ne_nil _ (List.cons_ne_nil _ _) hnil

theorem foldl_add_eq_nil_iff (amount : Address → ℤ) (addrs : List Address) :
    addrs.foldl (fun l a => StakedList.add l a (amount a)) [] = [] ↔ addrs = [] := by
  induction addrs using List.reverseRecOn with
  | nil => exact ⟨fun _ => rfl, fun _ => rfl⟩
  | append_singleton addrs a _ =>
    rw [List.foldl_append]
    refine ⟨fun h => absurd h (add_ne_nil _ _ _), fun h => absurd h ?_⟩
    exact List.append_ne_nil_of_right_ne_nil _ (List.cons_ne_nil _ _)

theorem rankByWordCount_eq_nil {pairs : List (ℕ × ℤ)} (h : L.rankByWordCount pairs = []) :
    pairs = [] := by
  have hperm := (L.ranking pairs).1
  rw [h] at hperm
  exact hperm.symm.eq_nil

theorem validatorByDistanceAndWeight_eq_nil
    (h : L.validatorByDistanceAndWeight miners (k + 1) randomHash = some []) : miners = [] := by
  unfold validatorByDistanceAndWeight at h
  simp only at h
  split at h
  next => cases h
  next =>
    have htake := List.map_eq_nil_iff.mp (Option.some.inj h)
    have hranked := (List.take_eq_nil_iff.mp htake).resolve_left (Nat.succ_ne_zero k)
    exact List.map_eq_nil_iff.mp (List.map_eq_nil_iff.mp (rankByWordCount_eq_nil hranked))

/-- The validator set is empty only if the pool is. -/
theorem validatorSet_nonempty_iff :
    (∃ valSet, L.validatorSet header = some valSet ∧ valSet ≠ []) ↔ L.SelectsSome header := by
  constructor
  · rintro ⟨valSet, hset, hne⟩
    obtain ⟨out, hout, rfl⟩ := Option.map_eq_some_iff.mp hset
    obtain ⟨h', hheader, miners, hpool, validators, hvalidators, rfl⟩ :=
      random11ValidatorFromPool_inv hout
    refine ⟨miners, ⟨h', hheader, hpool⟩, ?_⟩
    rcases validatorByDistanceAndWeight_isSome_iff.mp (Option.isSome_of_eq_some hvalidators) with
      rfl | hstake
    · -- an empty pool gives an empty set
      refine absurd ?_ hne
      have hnone : validators = [] := by
        have hperm := (L.ranking []).1.eq_nil
        unfold validatorByDistanceAndWeight at hvalidators
        simpa [ActiveMinerList.convertToBigInt, hperm] using hvalidators.symm
      rw [hnone]
      exact (L.newSet_perm []).eq_nil
    · exact hstake
  · rintro ⟨miners, hpool, hstake⟩
    obtain ⟨valSet, hset⟩ := Option.isSome_iff_exists.mp
      (validatorSet_isSome_iff.mpr ⟨miners, hpool, Or.inr hstake⟩)
    refine ⟨valSet, hset, ?_⟩
    rintro rfl
    obtain ⟨out, hout, hnil⟩ := Option.map_eq_some_iff.mp hset
    obtain ⟨h', hheader, miners', hpool', validators, hvalidators, rfl⟩ :=
      random11ValidatorFromPool_inv hout
    have hmap := (hnil ▸ L.newSet_perm _).symm.eq_nil
    have hzero := (foldl_add_eq_nil_iff _ _).mp (List.map_eq_nil_iff.mp hmap)
    rw [hzero] at hvalidators
    have hempty := validatorByDistanceAndWeight_eq_nil hvalidators
    obtain ⟨h'', hheader', hpool''⟩ := hpool
    obtain rfl : h'' = h' := Option.some.inj (hheader'.symm.trans hheader)
    obtain rfl : miners = miners' := Option.some.inj (hpool''.symm.trans hpool')
    rw [hempty] at hstake
    exact hstake rfl

/-! ## Handlers -/

theorem calcProposer_isSome_iff {valSet : List Address} {policy : ProposerPolicyId}
    {lastProposer : Address} :
    (ValidatorSet.calcProposer valSet policy lastProposer round).isSome ↔ valSet ≠ [] := by
  have hpick : ∀ seed, (valSet[seed % valSet.length]?).isSome ↔ valSet ≠ [] := by
    intro seed
    rw [isSome_getElem?, ← List.length_pos_iff]
    exact ⟨fun h => Nat.zero_lt_of_lt h, fun h => Nat.mod_lt _ h⟩
  cases policy with
  | roundRobin => exact hpick _
  | sticky => exact hpick _

theorem verifyBlockProposal_isSome (p : P) (validators : List Address) :
    (L.verifyBlockProposal p validators).isSome := by
  unfold verifyBlockProposal
  split
  · split
    · rfl
    · split
      · rfl
      · split <;> rfl
    next hpanic => exact absurd hpanic (engineVerifyHeader_ne_panic _ _ _ _)
  · rfl

theorem verify_isSome_iff {p : P} :
    (L.verify p).isSome ↔ (L.hasBadProposal (L.config.hash p) = false →
      L.Selects (some (L.header L.currentBlock))) := by
  unfold verify
  split
  next hbad => simp [hbad]
  next hgood =>
    rw [Bool.not_eq_true] at hgood
    rw [← validatorSet_isSome_iff]
    refine ⟨fun h _ => ?_, fun h => ?_⟩
    · obtain ⟨verdict, hverdict⟩ := Option.isSome_iff_exists.mp h
      obtain ⟨valSet, hset, -⟩ := Option.bind_eq_some_iff.mp hverdict
      exact Option.isSome_of_eq_some hset
    · obtain ⟨valSet, hset⟩ := Option.isSome_iff_exists.mp (h hgood)
      simp only [hset, Option.bind_eq_bind, Option.bind_some]
      exact verifyBlockProposal_isSome p valSet

theorem sendSubject_isSome (h : c.current.preprepare.isSome) :
    (L.sendSubject c payload).isSome := by
  obtain ⟨preprepare, hpreprepare⟩ := Option.isSome_iff_exists.mp h
  simp [sendSubject, Core.subject, hpreprepare]

theorem takePreprepare_isSome (preprepare : Preprepare P) :
    (L.takePreprepare c preprepare).isSome := by
  unfold takePreprepare
  split
  · split
    · split
      · exact sendSubject_isSome rfl
      · rfl
    · exact sendSubject_isSome rfl
  · rfl

/-- A PREPARE message that is counted has a subject, so there is a proposal to commit to. -/
theorem handlePrepare_isSome (prepare : Subject) (src : Address) :
    (L.handlePrepare c prepare src).isSome := by
  unfold handlePrepare
  split
  · split
    next hsubject =>
      have hpreprepare : c.current.preprepare.isSome := by
        obtain ⟨preprepare, hpreprepare, -⟩ := Option.map_eq_some_iff.mp hsubject
        exact Option.isSome_of_eq_some hpreprepare
      have haccept : (c.acceptPrepare src).current.preprepare = c.current.preprepare := by
        unfold Core.acceptPrepare
        split <;> rfl
      unfold countPrepare
      split
      · refine sendSubject_isSome ?_
        unfold Core.lockHash
        split
        next hsome => exact Option.isSome_of_eq_some hsome
        next hnone =>
          rw [haccept] at hnone
          rw [hnone] at hpreprepare
          cases hpreprepare
      · rfl
    · rfl
  · rfl

/-- A PRE-PREPARE needs the pool of the parent it names if it is old, and that of the node's own head if
it is current and its proposal is to be verified. -/
theorem handlePreprepare_isSome_iff :
    (L.handlePreprepare c preprepare src).isSome ↔
      (c.checkMessage .preprepare preprepare.view = .old →
        L.Selects (L.getHeaderByHash (L.header preprepare.proposal).parentHash)) ∧
      (c.checkMessage .preprepare preprepare.view = .ok → c.isProposer src = true →
        L.hasBadProposal (L.config.hash preprepare.proposal) = false →
          L.Selects (some (L.header L.currentBlock))) := by
  unfold handlePreprepare
  split
  next hold =>
    have hnew : c.checkMessage .preprepare preprepare.view ≠ .ok := by simp [hold]
    refine Iff.trans ?_ (and_iff_left (fun h => absurd h hnew)).symm
    refine Iff.trans ?_ (forall_prop_of_true hold).symm
    rw [← validatorSet_isSome_iff]
    unfold handleOldPreprepare parentValidators getValidators
    split
    next hnone => rw [hnone]; exact Iff.rfl
    next valSet hsome => rw [hsome]; exact Iff.rfl
  next hfuture => simp [hfuture]
  next hok =>
    have hold : c.checkMessage .preprepare preprepare.view ≠ .old := by simp [hok]
    refine Iff.trans ?_ (and_iff_right (fun h => absurd h hold)).symm
    refine Iff.trans ?_ (forall_prop_of_true hok).symm
    split
    next hproposer =>
      refine Iff.trans ?_ (forall_prop_of_true hproposer).symm
      rw [← verify_isSome_iff]
      split
      next hnone => rw [hnone]; exact Iff.rfl
      next hsome => rw [hsome]; exact Iff.rfl
      next hsome => rw [hsome]; exact Iff.rfl
      next hsome => rw [hsome]; exact iff_of_true (takePreprepare_isSome _) rfl
    next hproposer => exact iff_of_true rfl fun h => absurd h hproposer

/-- The core proposes in the round it enters, is locked, and has no proposal to lock on. -/
def LocksNothing (L : LocalChain P) (c : Core P) (round : ℕ) : Prop :=
  ValidatorSet.isProposer c.valSet
    (ValidatorSet.calcProposer c.valSet L.policy L.backend.lastProposer round) c.address = true ∧
  c.isHashLocked L.backend = true ∧ c.current.preprepare = none

/-- What the node has to look up to start a round is there. -/
def CanStart (L : LocalChain P) (c : Core P) (round : ℕ) : Prop :=
  L.lastProposal.isSome ∧
  if c.current.sequence ≤ L.config.number L.currentBlock then
    L.SelectsSome (L.getHeaderByHash ((L.header L.currentBlock).hash L.toHashes))
  else
    (L.config.number L.currentBlock : ℤ) = Vm.int64 (Vm.int64 c.current.sequence - 1) →
      round ≠ 0 → c.current.round ≤ round → ¬ L.LocksNothing c round

/-- The ROUND CHANGE message makes the core start its round. -/
def Starts (L : LocalChain P) (c : Core P) (rc : Subject) (src : Address) : Prop :=
  let num := ((c.roundChangeSet.add rc.view.round src).size (rc.view.round % 2 ^ 64) : ℤ)
  ¬ (c.waitingForRoundChange = true ∧ num = faulty c.valSet + 1) ∧
  num = c.quorum L.config ∧ (c.waitingForRoundChange = true ∨ c.current.round < rc.view.round)

theorem enterRound_first_isSome_iff : (L.enterRound c view false).isSome ↔ c.valSet ≠ [] := by
  have hproposer : (ValidatorSet.calcProposer c.valSet L.policy L.backend.lastProposer
      view.round).isSome ↔ c.valSet ≠ [] := calcProposer_isSome_iff
  rw [← hproposer]
  unfold enterRound
  dsimp only
  split
  next hnone =>
    have hcalc : ValidatorSet.calcProposer c.valSet L.policy L.backend.lastProposer view.round =
        none := hnone
    rw [hcalc]
    exact Iff.rfl
  next hsome =>
    rw [if_neg fun h => Bool.false_ne_true h.1]
    exact iff_of_true rfl (Option.isSome_of_eq_some hsome)

/-- A lock is kept with its proposal when the round changes. -/
theorem enterRound_isHashLocked :
    (c.enterRound G B view true).core.isHashLocked B = c.isHashLocked B := by
  have hcurrent : (c.enterRound G B view true).core.current = c.updateRoundState B view true := rfl
  unfold Core.isHashLocked
  rw [hcurrent]
  unfold Core.updateRoundState
  split
  · split
    · rfl
    next hfree =>
      unfold Core.isHashLocked at hfree
      rw [Bool.not_eq_true] at hfree
      rw [hfree]
      simp [RoundState.newRoundState]
  · contradiction

theorem enterRound_proposal (hlocked : c.isHashLocked B = true) :
    (c.enterRound G B view true).core.current.proposal = none ↔ c.current.preprepare = none := by
  have hcurrent : (c.enterRound G B view true).core.current = c.updateRoundState B view true := rfl
  rw [hcurrent]
  unfold Core.updateRoundState
  rw [if_pos rfl, if_pos hlocked]
  simp [RoundState.newRoundState, RoundState.proposal]

theorem enterRound_next_isSome_iff (hset : c.valSet ≠ []) :
    (L.enterRound c ⟨c.current.sequence, round⟩ true).isSome ↔ ¬ L.LocksNothing c round := by
  unfold enterRound
  dsimp only
  split
  next hnone =>
    have hsome : (ValidatorSet.calcProposer c.valSet L.policy L.backend.lastProposer
        round).isSome := calcProposer_isSome_iff.mpr hset
    have hcalc : ValidatorSet.calcProposer c.valSet L.policy L.backend.lastProposer round =
        none := hnone
    rw [hcalc] at hsome
    cases hsome
  next =>
    rw [enterRound_isHashLocked]
    split
    next hcrash =>
      obtain ⟨-, hproposer, hlocked, hproposal⟩ := hcrash
      refine iff_of_false (fun h => by cases h) fun h => h ⟨hproposer, hlocked, ?_⟩
      exact (enterRound_proposal hlocked).mp hproposal
    next hfine =>
      refine iff_of_true rfl fun hcrash => hfine ⟨rfl, hcrash.1, hcrash.2.1, ?_⟩
      exact (enterRound_proposal hcrash.2.1).mpr hcrash.2.2

theorem lastProposal_head {last : P} {proposer : Address}
    (hlast : L.lastProposal = some (last, proposer)) : last = L.currentBlock := by
  unfold lastProposal at hlast
  dsimp only at hlast
  split at hlast
  · split at hlast <;> cases hlast
    rfl
  · cases hlast
    rfl

/-- A core with validators starts a round exactly if what it looks up there can be found. -/
theorem startNewRound_isSome_iff (hset : c.valSet ≠ []) :
    (L.startNewRound c round).isSome ↔ L.CanStart c round := by
  unfold startNewRound CanStart
  split
  next hnone => exact iff_of_false (fun h => by cases h) fun h => by rw [hnone] at h; cases h.1
  next last proposer hlast =>
    obtain rfl := lastProposal_head hlast
    rw [hlast]
    refine Iff.trans ?_ (and_iff_right rfl).symm
    dsimp only
    split
    next hbehind =>
      rw [← validatorSet_nonempty_iff]
      unfold validators getValidators
      split
      next hnone => simp [hnone]
      next valSet hsome =>
        rw [enterRound_first_isSome_iff, hsome]
        simp
    next hahead =>
      split
      next hnext =>
        refine Iff.trans ?_ (forall_prop_of_true hnext).symm
        split
        next hzero => exact iff_of_true rfl fun h => absurd hzero h
        next hzero =>
          refine Iff.trans ?_ (forall_prop_of_true hzero).symm
          split
          next hlt => exact iff_of_true rfl fun h => absurd hlt (Nat.not_lt.mpr h)
          next hle =>
            refine Iff.trans ?_ (forall_prop_of_true (Nat.not_lt.mp hle)).symm
            exact enterRound_next_isSome_iff hset
      next hnext => exact iff_of_true rfl fun h => absurd h hnext

/-- A ROUND CHANGE needs something only if it starts its round. -/
theorem handleRoundChange_isSome_iff (hsrc : (ValidatorSet.getByAddress c.valSet src).isSome) :
    (L.handleRoundChange c rc src).isSome ↔
      (c.checkMessage .roundChange rc.view = .ok → L.Starts c rc src →
        L.CanStart c rc.view.round) := by
  have hset : c.valSet ≠ [] := by
    intro hnil
    rw [hnil] at hsrc
    cases hsrc
  unfold handleRoundChange
  split
  next hok =>
    refine Iff.trans ?_ (forall_prop_of_true hok).symm
    rw [if_pos hsrc]
    dsimp only
    unfold countRoundChange
    split
    next hcatch =>
      refine iff_of_true ?_ fun h => absurd hcatch h.1
      split <;> rfl
    next hcatch =>
      split
      next hstart =>
        have hstarts : L.Starts c rc src := ⟨hcatch, hstart⟩
        refine Iff.trans (startNewRound_isSome_iff hset) ?_
        exact ⟨fun h _ => h, fun h => h hstarts⟩
      next hstart => exact iff_of_true rfl fun h => absurd h.2 hstart
  next hnot => exact iff_of_true rfl fun h => absurd h hnot

/-- What the node looks up for a message is there. -/
def Survives (L : LocalChain P) (c : Node.Core P) (m : Message P) : Prop :=
  match m.payload with
  | .preprepare preprepare =>
    (c.checkMessage .preprepare preprepare.view = .old →
      L.Selects (L.getHeaderByHash (L.header preprepare.proposal).parentHash)) ∧
    (c.checkMessage .preprepare preprepare.view = .ok → c.isProposer m.address = true →
      L.hasBadProposal (L.config.hash preprepare.proposal) = false →
        L.Selects (some (L.header L.currentBlock)))
  | .prepare _ => True
  | .commit _ => True
  | .roundChange rc =>
    c.checkMessage .roundChange rc.view = .ok → L.Starts c rc m.address →
      L.CanStart c rc.view.round

/-- A message stops the node if and only if it comes from a validator and the node lacks what it
looks up for it. -/
theorem handleMsg_returns_iff (L : LocalChain P) (c : Node.Core P) (m : Message P) :
    (∃ out, L.handleMsg c m = some out) ↔
      ((ValidatorSet.getByAddress c.valSet m.address).isSome → L.Survives c m) := by
  rw [← Option.isSome_iff_exists]
  unfold handleMsg
  split
  next hsrc =>
    refine Iff.trans ?_ (forall_prop_of_true hsrc).symm
    unfold handleCheckedMsg Survives
    cases m.payload with
    | preprepare preprepare => exact handlePreprepare_isSome_iff
    | prepare prepare => exact iff_of_true (handlePrepare_isSome _ _) trivial
    | commit commit => exact iff_of_true rfl trivial
    | roundChange rc => exact handleRoundChange_isSome_iff hsrc
  next hsrc => exact iff_of_true rfl fun h => absurd h hsrc

/-! ## A handler that returns -/

variable {x x' : Option (Out P)} {out out' : Out P}

/-- What is returned, if anything is, is the given. -/
def Returns (x : Option (Out P)) (out : Out P) : Prop := ∀ y, x = some y → y = out

namespace Returns

theorem self (out : Out P) : Returns (some out) out := fun _ h => (Option.some.inj h).symm

theorem none (out : Out P) : Returns Option.none out := fun _ h => (by cases h)

theorem ite {p : Prop} [Decidable p] (h : Returns x out) (h' : Returns x' out') :
    Returns (if p then x else x') (if p then out else out') := by
  split
  · exact h
  · exact h'

end Returns

theorem sendSubject_returns :
    Returns (L.sendSubject c payload) { core := c, sent := c.sendSubject L.config payload } := by
  unfold sendSubject
  split
  next => exact .none _
  next sub hsub =>
    rw [Core.sendSubject, hsub]
    exact .self _

theorem takePreprepare_returns :
    Returns (L.takePreprepare c preprepare) (c.takePreprepare L.config L.backend preprepare) :=
  .ite (.ite (.ite sendSubject_returns (.self _)) sendSubject_returns) (.self _)

theorem handlePreprepare_returns :
    Returns (L.handlePreprepare c preprepare src) (c.handlePreprepare L.config L.backend preprepare src) := by
  unfold handlePreprepare Core.handlePreprepare
  cases c.checkMessage .preprepare preprepare.view with
  | old =>
    dsimp only
    unfold handleOldPreprepare
    split
    · exact .none _
    · exact .self _
  | future => exact .self _
  | ok =>
    refine .ite ?_ (.self _)
    rw [show L.backend.verify preprepare.proposal = (L.verify preprepare.proposal).getD .invalid from rfl]
    cases L.verify preprepare.proposal with
    | none => exact .none _
    | some verdict =>
      cases verdict with
      | future => exact .self _
      | invalid => exact .self _
      | ok => exact takePreprepare_returns

theorem handlePrepare_returns {prepare : Subject} :
    Returns (L.handlePrepare c prepare src) (c.handlePrepare L.config L.backend prepare src) := by
  unfold handlePrepare Core.handlePrepare
  cases c.checkMessage .prepare prepare.view with
  | old => exact .self _
  | future => exact .self _
  | ok => exact .ite (.ite sendSubject_returns (.self _)) (.self _)

theorem enterRound_returns {roundChange : Bool} :
    Returns (L.enterRound c view roundChange) (c.enterRound L.config L.backend view roundChange) := by
  unfold enterRound
  dsimp only
  split
  · exact .none _
  · split
    · exact .none _
    · exact .self _

theorem startNewRound_returns :
    Returns (L.startNewRound c round) (c.startNewRound L.config L.backend round) := by
  unfold startNewRound Core.startNewRound
  split
  next => exact .none _
  next last proposer hlast =>
    obtain rfl := lastProposal_head hlast
    refine .ite ?_ (.ite (.ite (.self _) (.ite (.self _) enterRound_returns)) (.self _))
    rw [show L.backend.validators L.backend.lastProposal = (L.validators L.currentBlock).getD [] from rfl]
    cases L.validators L.currentBlock with
    | none => exact .none _
    | some valSet => exact enterRound_returns

theorem handleRoundChange_returns :
    Returns (L.handleRoundChange c rc src) (c.handleRoundChange L.config L.backend rc src) := by
  unfold handleRoundChange Core.handleRoundChange
  cases c.checkMessage .roundChange rc.view with
  | old => exact .self _
  | future => exact .self _
  | ok =>
    refine .ite (.ite ?_ (.ite startNewRound_returns (.self _))) (.self _)
    split
    · exact .self _
    · exact .self _

/-- A handler that returns does what the core of `Consensus.IbftNode` does with the answers of the
node's chain. -/
theorem handleCheckedMsg_eq {m : Message P} (h : L.handleCheckedMsg c m = some out) :
    out = c.handleCheckedMsg L.config L.backend m := by
  unfold handleCheckedMsg at h
  unfold Core.handleCheckedMsg
  revert h
  cases m.payload with
  | preprepare preprepare => exact handlePreprepare_returns out
  | prepare prepare => exact handlePrepare_returns out
  | commit commit => exact Returns.self _ out
  | roundChange rc => exact handleRoundChange_returns out

/-! ## A node that knows its head only -/

def ranked (pairs : List (ℕ × ℤ)) : List (ℕ × ℤ) := pairs.insertionSort fun p q => q.2 ≤ p.2

theorem ranked_ranking (pairs : List (ℕ × ℤ)) : Ranking pairs (ranked pairs) := by
  have : Std.Total fun p q : ℕ × ℤ => q.2 ≤ p.2 := ⟨fun p q => le_total q.2 p.2⟩
  have : IsTrans (ℕ × ℤ) fun p q => q.2 ≤ p.2 := ⟨fun _ _ _ h h' => h'.trans h⟩
  exact ⟨List.perm_insertionSort _ pairs, List.pairwise_insertionSort _ pairs⟩

/-- Headers that differ in number and parent only. -/
def bare (number : ℕ) (parentHash : List ℕ) : Header where
  parentHash := parentHash
  uncleHash := []
  coinbase := 0
  difficulty := 1
  number := number
  time := 0
  mixDigest := []
  nonce := []
  extra := .error "rlp: expected List"
  rest := []

/-- A hash is the header's number after a one. -/
def countHashes : Hashes where
  keccak256 := fun _ => []
  sigToPub := fun _ _ => .ok 1
  rlpHash := fun h => [1, h.number]
  nilUncleHash := []

theorem countHashes_ne_zero : hashBig (h.hash countHashes) ≠ 0 := by
  have hone : ∃ n, h.hash countHashes = [1, n] := by
    unfold Header.hash
    split
    · split <;> exact ⟨_, rfl⟩
    · exact ⟨_, rfl⟩
  obtain ⟨n, hn⟩ := hone
  rw [hn]
  simp [hashBig, ofDigitsBE]

/-- A node at block 5 that has the headers from block 1 on, with one staked miner. -/
def pruned : LocalChain Header where
  toHashes := countHashes
  policy := .roundRobin
  ceil2Nby3Block := none
  engine := ⟨fun _ _ => none, bare 0 [], 0, 0⟩
  now := 0
  header := id
  hash_ne_zero := countHashes_ne_zero
  bodyMatches := fun _ => true
  currentBlock := bare 5 [1, 4]
  getHeaderByHash := fun hash =>
    ((List.range 6).tail.map fun n => bare n [1, n - 1]).find? fun h => h.hash countHashes = hash
  getHeaderByNumber := fun _ => none
  readActiveMinersPool := fun _ _ => some [⟨1, 100000, 0⟩]
  rankByWordCount := ranked
  ranking := ranked_ranking
  newSet := id
  newSet_perm := fun _ => .refl _
  hasBadProposal := fun _ => false
  commit := fun _ => true

/-- The node's core waits for block 6. -/
def waiting : Node.Core Header where
  address := 2
  state := .acceptRequest
  waitingForRoundChange := false
  valSet := [1, 2]
  proposer := some 1
  current := .newRoundState ⟨6, 0⟩ 0 none none
  committedSeals := fun _ => []
  roundChangeSet := []

/-- A PRE-PREPARE of the view before. -/
def late (proposal : Header) : Message Header where
  address := 1
  payload := .preprepare ⟨⟨5, 0⟩, proposal⟩
  committedSeal := []

/-- A validator stops the node with a proposal whose parent it does not have, or with a genesis
block. A proposal on a parent that it has is no harm. -/
theorem late_proposal_crashes :
    (ValidatorSet.getByAddress waiting.valSet (late (bare 5 [9])).address).isSome ∧
      (pruned.handleMsg waiting (late (bare 5 [9]))).isNone ∧
      (pruned.handleMsg waiting (late (bare 0 []))).isNone ∧
      (pruned.handleMsg waiting (late (bare 5 [1, 4]))).isSome := by
  decide +kernel

end Wormholes.Consensus.Ibft.Node.LocalChain
