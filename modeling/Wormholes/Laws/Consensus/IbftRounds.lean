import Wormholes.Laws.Consensus.IbftNode

/-!
# Laws.Consensus.IbftRounds — when a quorum of ROUND CHANGE messages starts a round

A core that waits for a round change counts the senders of each round. The message that makes them
`F + 1` lets the core catch up with a later round; the message that makes them a quorum starts the
round. The two tests are equalities and the first one returns, so where both numbers are the same the
quorum is never noticed: the core already is in the round and goes on waiting. That is the case for one
validator, and by the older `2F + 1` formula for up to three.

What else keeps a core from starting the round is by design and in `startNewRound`: the head of the
chain has reached the sequence, or is not the block before it, or the round is zero.
-/

namespace Wormholes.Consensus.Ibft.Node

variable {P : Type} {G : Config P} {B : Backend P} {c : Core P}

/-- The head is the block before the sequence, as `startNewRound` tests it. -/
def Core.AtHead (G : Config P) (B : Backend P) (c : Core P) : Prop :=
  G.number B.lastProposal < c.current.sequence ∧
    (G.number B.lastProposal : ℤ) = Vm.int64 (Vm.int64 c.current.sequence - 1)

instance : Decidable (c.AtHead G B) := inferInstanceAs (Decidable (_ ∧ _))

/-- A validator's ROUND CHANGE message for the core's view, by which the senders for the round become a
quorum. -/
structure Core.Completes (G : Config P) (c : Core P) (rc : Subject) (src : Address) : Prop where
  view : rc.view = c.currentView
  validator : src ∈ c.valSet
  before : (c.roundChangeSet.size (c.current.round % 2 ^ 64) : ℤ) < c.quorum G
  reached :
    ((c.roundChangeSet.add c.current.round src).size (c.current.round % 2 ^ 64) : ℤ) = c.quorum G

/-- The core is in the round of the view and accepts requests. -/
def Out.Starts (out : Out P) (view : View) : Prop :=
  out.core.state = .acceptRequest ∧ out.core.waitingForRoundChange = false ∧
    out.core.currentView = view

instance (out : Out P) (view : View) : Decidable (out.Starts view) :=
  inferInstanceAs (Decidable (_ ∧ _ ∧ _))

/-! ## The two thresholds -/

/-- The catch-up threshold and the quorum are the same number for one validator, and by the older
formula for up to three. -/
theorem faulty_add_one_eq_quorumSize_iff (ceil2Nby3Block sequence : Option ℕ)
    {validators : List Address} (hne : validators ≠ []) :
    faulty validators + 1 = quorumSize ceil2Nby3Block sequence validators ↔
      ¬ (1 < validators.length ∧
        (beforeCeil2Nby3 ceil2Nby3Block sequence = true → 3 < validators.length)) := by
  have hpos := List.length_pos_iff.mpr hne
  unfold quorumSize
  cases beforeCeil2Nby3 ceil2Nby3Block sequence with
  | true =>
    simp only [if_true, faulty, forall_const]
    omega
  | false =>
    simp only [Bool.false_eq_true, if_false, faulty, false_implies, and_true]
    by_cases htwo : validators.length = 2
    · rw [htwo]
      decide
    · omega

/-! ## Starting the round -/

theorem cmp_self_ne_lt (v : View) : v.cmp v ≠ .lt := by
  rw [Ne, View.cmp_eq_lt_iff]
  exact lt_irrefl v

theorem handleRoundChange_of_completes {rc : Subject} {src : Address} (h : c.Completes G rc src) :
    c.handleRoundChange G B rc src =
      Core.countRoundChange G B
        { c with roundChangeSet := c.roundChangeSet.add c.current.round src } c.current.round
        ((c.roundChangeSet.add c.current.round src).size (c.current.round % 2 ^ 64)) := by
  have hround : rc.view.round = c.current.round := congrArg View.round h.view
  have hsequence : rc.view.sequence = c.current.sequence := congrArg View.sequence h.view
  have hcheck : c.checkMessage .roundChange rc.view = .ok := by
    unfold Core.checkMessage
    rw [if_pos rfl, if_neg (by omega), h.view, if_neg (cmp_self_ne_lt _)]
  unfold Core.handleRoundChange
  rw [hcheck, hround]
  simp only [ValidatorSet.getByAddress, isSome_find?, h.validator, if_true]

/-- A core that waits for a round starts it again exactly at the head and not in round zero. -/
theorem startNewRound_starts_iff (hwaiting : c.waitingForRoundChange = true) :
    (c.startNewRound G B c.current.round).Starts c.currentView ↔
      c.AtHead G B ∧ c.current.round ≠ 0 := by
  have hstays : ¬ Out.Starts { core := c } c.currentView := by
    rintro ⟨-, hactive, -⟩
    rw [show c.waitingForRoundChange = false from hactive] at hwaiting
    cases hwaiting
  unfold Core.startNewRound Core.AtHead
  by_cases hnew : c.current.sequence ≤ G.number B.lastProposal
  · -- a new sequence, so another view
    simp only [if_pos hnew]
    constructor
    · rintro ⟨-, -, hview⟩
      rw [view_enterRound] at hview
      have hsequence : G.number B.lastProposal + 1 = c.current.sequence :=
        congrArg View.sequence hview
      omega
    · rintro ⟨⟨hlt, -⟩, -⟩
      omega
  · simp only [if_neg hnew]
    by_cases hhead : (G.number B.lastProposal : ℤ) = Vm.int64 (Vm.int64 c.current.sequence - 1)
    · rw [if_pos hhead]
      by_cases hzero : c.current.round = 0
      · rw [if_pos hzero]
        exact iff_of_false hstays fun h => h.2 hzero
      · rw [if_neg hzero, if_neg (lt_irrefl _)]
        exact iff_of_true ⟨rfl, rfl, view_enterRound c _ true⟩ ⟨⟨by omega, hhead⟩, hzero⟩
    · rw [if_neg hhead]
      exact iff_of_false hstays fun h => hhead h.1.2

/-- A core that waits at a round and gets the message by which the senders for it become a quorum
starts the round exactly if there is more than one validator, and by the older formula more than
three, the head is the block before the sequence and the round is not zero. -/
theorem quorum_starts_round_iff (G : Config P) (B : Backend P) (c : Core P) (rc : Subject)
    (src : Address) (hwaiting : c.waitingForRoundChange = true) (hmessage : c.Completes G rc src) :
    (c.handleRoundChange G B rc src).Starts c.currentView ↔
      (1 < c.valSet.length ∧
        (beforeCeil2Nby3 G.ceil2Nby3Block (some c.current.sequence) = true → 3 < c.valSet.length)) ∧
      c.AtHead G B ∧ c.current.round ≠ 0 := by
  have hne : c.valSet ≠ [] := List.ne_nil_of_mem hmessage.validator
  have hsame := faulty_add_one_eq_quorumSize_iff G.ceil2Nby3Block (some c.current.sequence) hne
  let c' : Core P := { c with roundChangeSet := c.roundChangeSet.add c.current.round src }
  rw [handleRoundChange_of_completes hmessage, Core.countRoundChange, hmessage.reached]
  by_cases hcatchUp : faulty c.valSet + 1 = c.quorum G
  · -- the first test takes the message and the core is in the round already
    have hsmall := hsame.mp hcatchUp
    rw [if_pos ⟨hwaiting, hcatchUp.symm⟩, if_neg (lt_irrefl _)]
    refine iff_of_false ?_ fun h => hsmall h.1
    rintro ⟨-, hactive, -⟩
    rw [show c.waitingForRoundChange = false from hactive] at hwaiting
    cases hwaiting
  · have hlarge := not_not.mp (mt hsame.mpr hcatchUp)
    rw [if_neg fun h => hcatchUp h.2.symm, if_pos ⟨rfl, Or.inl hwaiting⟩]
    have hstart := startNewRound_starts_iff (G := G) (B := B) (c := c') hwaiting
    exact hstart.trans ⟨fun h => ⟨hlarge, h⟩, fun h => h.2⟩

/-! ## Worked cases -/

/-- A core of four validators that waits at round one and has heard two of them. -/
def waitingCore : Core ℕ :=
  { plainConfig.start plainBackend 3 with
    waitingForRoundChange := true
    current := .newRoundState ⟨2, 1⟩ 0 none none
    roundChangeSet := [(1, 1), (1, 3)] }

/-- The third of four validators starts the round. -/
theorem quorum_starts_round_four :
    waitingCore.waitingForRoundChange = true ∧
      (waitingCore.handleRoundChange plainConfig plainBackend ⟨⟨2, 1⟩, 0⟩ 4).Starts ⟨2, 1⟩ := by
  have hmessage : waitingCore.Completes plainConfig ⟨⟨2, 1⟩, 0⟩ 4 :=
    ⟨rfl, by decide, by decide, by decide⟩
  exact ⟨rfl, (quorum_starts_round_iff _ plainBackend _ _ _ rfl hmessage).mpr (by decide +kernel)⟩

/-- A node that is the only validator. -/
def loneBackend : Backend ℕ :=
  { plainBackend with validators := fun _ => [1], parentValidators := fun _ => [1] }

/-- The only validator times out, waits at round one and receives its own ROUND CHANGE message, which
makes a quorum, without starting the round. -/
def Config.LoneStuck (G : Config ℕ) : Prop :=
  let c := ((G.init loneBackend 1).run G [⟨.timeout 1, loneBackend⟩]).core
  c.waitingForRoundChange = true ∧ c.currentView = ⟨2, 1⟩ ∧ c.Completes G ⟨⟨2, 1⟩, 0⟩ 1 ∧
    ¬ (c.handleRoundChange G loneBackend ⟨⟨2, 1⟩, 0⟩ 1).Starts c.currentView

/-- By either formula the only validator never starts a round. -/
theorem lone_validator_never_starts :
    plainConfig.LoneStuck ∧ { plainConfig with ceil2Nby3Block := some 0 }.LoneStuck := by
  constructor
  · exact ⟨by decide, by decide, ⟨by decide, by decide, by decide, by decide⟩, by decide⟩
  · exact ⟨by decide, by decide, ⟨by decide, by decide, by decide, by decide⟩, by decide⟩

end Wormholes.Consensus.Ibft.Node
