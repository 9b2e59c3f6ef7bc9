import Wormholes.Laws.Consensus.QbftRoundChangeSet

/-!
# Laws.Consensus.QbftRounds — what a core keeps from one sequence to the next, and what it proposes

A core throws its round-change set and prepared PREPARE messages away when it is told to go to round
zero. It is told another round when it times out, or joins a later round, and finds its sequence
finished: it begins the next sequence with the old set, and announces the round it was told.
`sequence_hygiene` is about the runs in which that does not happen; in `old_set_kept` it does.

A proposer with a quorum of ROUND-CHANGE messages proposes the highest prepared block or its own
request, and dereferences nil when there is neither (`handleRoundChange_total_iff`).
-/

namespace Wormholes.Consensus.Qbft.Node

open Lib Common
open Ibft (View)

variable {P : Type} {G : Config P}
variable {b b' : Stage P} {c : Core P}
variable {valSet : List Address} {target : UInt64} {p : P} {vote : Option Vote}
  {committed : Option P} {c' : Core P} {e : Event P}

/-! ## What the operations of a set keep -/

namespace RoundChangeSet

variable {rcs : RoundChangeSet P} {m m' : RoundChange P} {quorumSize : ℤ}

/-- The set holds a message, for whatever round. -/
def Holds (rcs : RoundChangeSet P) (m : RoundChange P) : Prop := ∃ r ∈ rcs.roundChanges, m ∈ r.2

theorem holds_of_stored {k : UInt64} (h : m ∈ rcs.stored k) : rcs.Holds m := by
  unfold stored messages? at h
  cases hfind : rcs.roundChanges.find? fun r => decide (r.1 = k) with
  | none => rw [hfind] at h; cases h
  | some r =>
    rw [hfind] at h
    exact ⟨r, List.mem_of_find?_eq_some hfind, h⟩

theorem Holds.of_file (h : (rcs.file m quorumSize).Holds m') : m' = m ∨ rcs.Holds m' := by
  have hstore : (rcs.file m quorumSize).roundChanges =
      (rcs.store (.ofNat m.round) m).roundChanges := by
    rcases rcs.file_cases m quorumSize with ⟨_, _, -, -, hfile⟩ | ⟨-, hfile⟩
    · rw [hfile]
      rfl
    · rw [hfile]
  obtain ⟨r, hr, hm'⟩ := h
  rw [hstore] at hr
  rcases List.mem_cons.mp hr with rfl | hr
  · exact (mem_addMessage.mp hm').imp_right fun h => holds_of_stored h.1
  · exact Or.inr ⟨r, List.mem_of_mem_filter hr, hm'⟩

theorem Holds.of_enter (h : (rcs.enter valSet target).Holds m) : target ≠ 0 ∧ rcs.Holds m := by
  have hold {rcs : RoundChangeSet P} {k : UInt64} (h : (rcs.newRound k).Holds m) : rcs.Holds m := by
    unfold newRound at h
    split at h
    · exact h
    · obtain ⟨r, hr, hm⟩ := h
      rcases List.mem_cons.mp hr with rfl | hr
      · cases hm
      · exact ⟨r, hr, hm⟩
  unfold enter at h
  split at h
  · obtain ⟨r, hr, -⟩ := hold h
    cases hr
  next hne =>
    obtain ⟨r, hr, hm⟩ := hold h
    exact ⟨hne, r, List.mem_of_mem_filter hr, hm⟩

theorem validatorSet_file (rcs : RoundChangeSet P) (m : RoundChange P) (quorumSize : ℤ) :
    (rcs.file m quorumSize).validatorSet = rcs.validatorSet := by
  rcases rcs.file_cases m quorumSize with ⟨_, _, -, -, hfile⟩ | ⟨-, hfile⟩ <;> (rw [hfile]; rfl)

theorem validatorSet_enter (h : target ≠ 0 → rcs.validatorSet = valSet) :
    (rcs.enter valSet target).validatorSet = valSet := by
  unfold enter
  rw [(newRound_maps _ target).1]
  split
  · rfl
  next hne => exact h hne

/-- A highest prepared block is a block. -/
def Solid (rcs : RoundChangeSet P) : Prop := ∀ k, rcs.highestPreparedBlock k ≠ some none

theorem Solid.file (h : rcs.Solid) (m : RoundChange P) (quorumSize : ℤ) :
    (rcs.file m quorumSize).Solid := by
  intro k
  rcases rcs.file_cases m quorumSize with ⟨preparedRound, p, -, -, hfile⟩ | ⟨-, hfile⟩
  · rw [hfile]
    by_cases hk : k = .ofNat m.round
    · simp [raise, hk]
    · simpa [raise, Function.update_of_ne hk] using h k
  · rw [hfile]
    exact h k

theorem Solid.enter (h : rcs.Solid) (valSet : List Address) (target : UInt64) :
    (rcs.enter valSet target).Solid := by
  intro k
  unfold RoundChangeSet.enter
  rw [(newRound_maps _ target).2.2.2]
  split
  · intro hm
    cases hm
  · simp only [clearLowerThan]
    split
    · intro hm
      cases hm
    · exact h k

end RoundChangeSet

/-! ## One sequence at a time -/

/-- What a core keeps is of its sequence and its validators. -/
structure Stage.Tidy (b : Stage P) : Prop where
  held : ∀ m, b.roundChangeSet.Holds m → m.sequence = b.view.sequence
  prepared : ∀ p ∈ b.preparedPrepares, p.sequence = b.view.sequence
  counted : ∀ p ∈ b.prepares, p.sequence = b.view.sequence
  validators : b.roundChangeSet.validatorSet = b.valSet

theorem Filed.tidy (hfiled : Filed G b b') (h : b.Tidy) : b'.Tidy := by
  cases hfiled with
  | none => exact h
  | file m hsequence hround hsource =>
    refine { h with held := fun m' hm' => ?_, validators := ?_ }
    · rcases hm'.of_file with rfl | hold
      · exact hsequence
      · exact h.held m' hold
    · exact (RoundChangeSet.validatorSet_file ..).trans h.validators

theorem Stage.Tidy.count (h : b.Tidy) {m : Prepare} (hm : b.Counts G p m.toCommonPayload m.digest) :
    ∀ p ∈ (b.count m).prepares, p.sequence = b.view.sequence := by
  intro p hp
  rcases mem_addMessage.mp hp with rfl | ⟨hp, -⟩
  · exact congrArg View.sequence hm.view
  · exact h.counted p hp

theorem Move.tidy (hmove : Move G c e b b' vote committed) (hstay : ¬ c.Strays G e) (h : b.Tidy) :
    b'.Tidy := by
  cases hmove with
  | quiet => exact h
  | accepted => exact { h with }
  | counted p m hm hstate hcounts => exact { h with counted := h.count hcounts }
  | prepared p m hm hstate hcounts hquorum =>
    exact { h with prepared := h.count hcounts, counted := h.count hcounts }
  | countedCommit => exact { h with }
  | committed => exact { h with }
  | entered round hlt hwraps =>
    refine ⟨fun m hm => h.held m hm.of_enter.2, fun p hp => ?_, nofun, ?_⟩
    · rw [Stage.next] at hp
      simp only at hp
      split at hp
      · cases hp
      · exact h.prepared p hp
    · exact RoundChangeSet.validatorSet_enter fun _ => h.validators
  | sequence sequence hlt =>
    exact ⟨fun m hm => absurd rfl hm.of_enter.1, nofun, nofun,
      RoundChangeSet.validatorSet_enter fun hne => absurd rfl hne⟩
  | strayed _ _ _ _ hstray => exact absurd hstray hstay
  | early _ hstray => exact absurd hstray hstay

theorem tidy_start (G : Config P) (B : Backend P) (address : Address) :
    (G.start B address).stage.Tidy := by
  refine ⟨?_, nofun, nofun, rfl⟩
  rintro m ⟨r, hr, hm⟩
  cases List.mem_singleton.mp hr
  cases hm

theorem step_tidy (h : c.stage.Tidy) (hstay : ¬ c.Strays G e) (hstep : step G e c = some c') :
    c'.stage.Tidy := by
  obtain ⟨out, hout, rfl⟩ := Option.map_eq_some_iff.mp hstep
  obtain ⟨c', hfiled, vote, hmove, -⟩ := handle_turns hout
  exact hmove.tidy hstay (hfiled.tidy h)

/-- As long as no round change begins away from the head, a core keeps ROUND-CHANGE and PREPARE
messages of its own sequence and validators only, and announces the round it is in, unless a block
could not be committed. -/
theorem sequence_hygiene (G : Config P) (B : Backend P) (address : Address) (es : List (Event P))
    (c : Core P) (run : Run (step G) (fun c e => ¬ c.Strays G e) (G.start B address) es c) :
    (∀ r ∈ c.roundChangeSet.roundChanges, ∀ m ∈ r.2, m.sequence = c.current.sequence) ∧
      (∀ p ∈ c.qbftPreparedPrepares, p.sequence = c.current.sequence) ∧
      c.roundChangeSet.validatorSet = c.valSet ∧
      ∀ e out, ¬ c.Strays G e → c.handle G e = some out → out.committed = none →
        ∀ m, Message.roundChange m ∈ out.sent → m.round = out.core.current.round := by
  have htidy : c.stage.Tidy :=
    run.invariant (P := fun c => c.stage.Tidy) (tidy_start G B address) step_tidy
  refine ⟨fun r hr m hm => htidy.held m ⟨r, hr, hm⟩, htidy.prepared, htidy.validators, ?_⟩
  intro e out hstay hout hnone m hm
  obtain ⟨c', -, vote, hmove, -, hvoices⟩ := handle_turns hout
  cases hvoices _ hm with
  | change round signature =>
    exact hmove.change_round hstay fun p hp => absurd (hnone.symm.trans hp) nofun

/-- The core of one of four validators, and another one's ROUND-CHANGE to round five. -/
def oneOfFour : Core ℕ := plainConfig.start (plainBackend 1 [1, 2, 3, 4]) 1

/-- Validator 2 asks for round five. -/
def farChange : Event ℕ where
  input := .message roundChangeCode
    (bytes (.roundChange { bareChange with source := 2, signature := [2], round := 5 }))
  backend := plainBackend 1 [1, 2, 3, 4]

/-- What the last event of a run leaves: the view, the validators, those of the round-change set, the
sequences of the messages in it and the rounds announced. -/
def leaves (es : List (Event ℕ)) (e : Event ℕ) :
    Option (View × List Address × List Address × List ℕ × List ℕ) :=
  (runAll (step plainConfig) es oneOfFour).bind fun c => (c.handle plainConfig e).map fun out =>
    (out.core.currentView, out.core.valSet, out.core.roundChangeSet.validatorSet,
      out.core.roundChangeSet.roundChanges.flatMap fun r => r.2.map fun m => m.sequence,
      out.sent.filterMap fun m => if m.code = roundChangeCode then some m.common.round else none)

/-- The block of the sequence and a new validator set are there before the timeout. -/
theorem old_set_kept :
    leaves [farChange] ⟨.timeout, plainBackend 2 [1, 2]⟩ =
      some (⟨3, 0⟩, [1, 2], [1, 2, 3, 4], [2], [1]) := by
  decide +kernel

/-- A ROUND-CHANGE is stored, the core times out, the block of its sequence is committed and leaves three
validators, and one of them is in round four of the new sequence. -/
def nextSequence : List (Event ℕ) :=
  [farChange, ⟨.timeout, plainBackend 1 [1, 2, 3, 4]⟩, ⟨.finalCommitted, plainBackend 2 [1, 2, 3]⟩,
    ⟨.message roundChangeCode (bytes (.roundChange
      { bareChange with source := 3, signature := [3], sequence := 3, round := 4 })),
      plainBackend 2 [1, 2, 3]⟩]

/-- A test for events that begin no round change away from the head. -/
def Core.stays (c : Core ℕ) (e : Event ℕ) : Bool :=
  c.AtHead plainConfig e.backend || match e.input with
    | .finalCommitted => true
    | _ => false

theorem Core.not_strays_of_stays {c : Core ℕ} {e : Event ℕ} (h : c.stays e = true) :
    ¬ c.Strays plainConfig e := by
  rintro ⟨haway, hbegins⟩
  rw [Core.stays, decide_eq_false haway, Bool.false_or] at h
  split at h
  next hinput =>
    rcases hbegins with htimeout | ⟨m, hm, -⟩
    · cases hinput.symm.trans htimeout
    · rcases brought_eq_some hm.1 with ⟨code, data, hmessage, -⟩ | ⟨i, hbacklog, -⟩
      · cases hinput.symm.trans hmessage
      · cases hinput.symm.trans hbacklog
  next => cases h

/-- The four events lead to round four of the next sequence, with one message stored. -/
theorem run_nextSequence :
    ∃ c, Run (step plainConfig) (fun c e => ¬ c.Strays plainConfig e) oneOfFour nextSequence c ∧
      c.currentView = ⟨3, 4⟩ ∧ c.valSet = [1, 2, 3] ∧
      (c.roundChangeSet.roundChanges.map fun r => (r.1, r.2.length)) = [(4, 1)] := by
  obtain ⟨c, hc, hvalues⟩ := Option.map_eq_some_iff.mp (show
    (runAll (fun e c => if c.stays e then step plainConfig e c else none) nextSequence oneOfFour).map
      (fun c => (c.currentView, c.valSet, c.roundChangeSet.roundChanges.map fun r => (r.1, r.2.length))) =
        some (⟨3, 4⟩, [1, 2, 3], [(4, 1)]) from by decide +kernel)
  obtain ⟨hview, hvalSet, hstored⟩ : _ ∧ _ ∧ _ := by simpa only [Prod.mk.injEq] using hvalues
  exact ⟨c, Run.of_tested Core.not_strays_of_stays hc, hview, hvalSet, hstored⟩

/-- A core that goes on to sequence 3 keeps ROUND-CHANGE messages of that sequence only, and the set of
its three validators. -/
theorem sequence_hygiene_nextSequence :
    ∃ c, Run (step plainConfig) (fun c e => ¬ c.Strays plainConfig e) oneOfFour nextSequence c ∧
      (∀ r ∈ c.roundChangeSet.roundChanges, ∀ m ∈ r.2, m.sequence = 3) ∧
      c.roundChangeSet.validatorSet = [1, 2, 3] := by
  obtain ⟨c, run, hview, hvalSet, -⟩ := run_nextSequence
  obtain ⟨hstored, -, hset, -⟩ := sequence_hygiene plainConfig _ 1 _ _ run
  rw [show c.current.sequence = 3 from congrArg View.sequence hview] at hstored
  exact ⟨c, run, hstored, hset.trans hvalSet⟩

/-! ## Progress -/

/-- The second stage is in a later view, or no less far in the same one and with the proposal that the
first has accepted. -/
def Stage.Before (b b' : Stage P) : Prop :=
  b.view.sequence < b'.view.sequence ∨ b.view.sequence = b'.view.sequence ∧
    (b.view.round < b'.view.round ∨ b.view.round = b'.view.round ∧ b.state.toNat ≤ b'.state.toNat ∧
      (0 < b.state.toNat → b'.proposal = b.proposal))

theorem Stage.Before.refl (b : Stage P) : b.Before b :=
  .inr ⟨rfl, .inr ⟨rfl, le_rfl, fun _ => rfl⟩⟩

theorem Stage.Before.trans {b'' : Stage P} (h : b.Before b') (h' : b'.Before b'') : b.Before b'' := by
  grind [Stage.Before]

theorem Move.before (hmove : Move G c e b b' vote committed) : b.Before b' := by
  cases hmove with
  | entered round hlt => exact .inr ⟨rfl, .inl hlt⟩
  | sequence _ hlt => exact .inl hlt
  | strayed _ _ _ hlt => exact .inl hlt
  | accepted m hm haccept hstate => simp [Stage.Before, hstate, Ibft.State.toNat]
  | prepared p m hm hstate => simp [Stage.Before, hstate, Ibft.State.toNat, Stage.count]
  | committed p m hm hstate => simp [Stage.Before, hstate, Ibft.State.toNat, Stage.countCommit]
  | _ => exact .refl b

theorem step_before (hstep : step G e c = some c') : c.stage.Before c'.stage := by
  obtain ⟨out, hout, rfl⟩ := Option.map_eq_some_iff.mp hstep
  obtain ⟨c', hfiled, vote, hmove, -⟩ := handle_turns hout
  have hfile : c.stage.Before c'.stage := by
    generalize c'.stage = b at hfiled
    cases hfiled <;> exact .refl c.stage
  exact hfile.trans hmove.before

/-- Whatever a core is sent, it never returns to an earlier view or an earlier state of its view, and
accepts one proposal in a view at most. -/
theorem never_goes_back {ok : Core P → Event P → Prop} {es : List (Event P)}
    (run : Run (step G) ok c es c') : c.stage.Before c'.stage :=
  run.invariant (P := fun c' => c.stage.Before c'.stage) (.refl _)
    fun h _ hstep => h.trans (step_before hstep)

/-- From its start at sequence 2 the core comes to round 4 of sequence 3. -/
theorem never_goes_back_nextSequence :
    ∃ c, Run (step plainConfig) (fun c e => ¬ c.Strays plainConfig e) oneOfFour nextSequence c ∧
      c.currentView = ⟨3, 4⟩ ∧ oneOfFour.stage.Before c.stage := by
  obtain ⟨c, run, hview, -, -⟩ := run_nextSequence
  exact ⟨c, run, hview, never_goes_back run⟩

/-! ## The proposal of a round -/

theorem Filed.solid (hfiled : Filed G b b') (h : b.roundChangeSet.Solid) :
    b'.roundChangeSet.Solid := by
  cases hfiled with
  | none => exact h
  | file m => exact h.file m _

theorem Move.solid (hmove : Move G c e b b' vote committed) (h : b.roundChangeSet.Solid) : b'.roundChangeSet.Solid := by
  cases hmove with
  | entered => exact h.enter _ _
  | sequence => exact h.enter _ 0
  | strayed _ target => exact h.enter _ target
  | _ => exact h

theorem step_solid (h : c.roundChangeSet.Solid) (hstep : step G e c = some c') :
    c'.roundChangeSet.Solid := by
  obtain ⟨out, hout, rfl⟩ := Option.map_eq_some_iff.mp hstep
  obtain ⟨c', hfiled, vote, hmove, -⟩ := handle_turns hout
  exact hmove.solid (hfiled.solid h)

/-- With the message filed the core is to propose for its round, but nobody has prepared a block and
there is no request. -/
def Core.LacksProposal (G : Config P) (c : Core P) (m : RoundChange P) : Prop :=
  ¬ (c.addRoundChange G m).Joins ∧ (c.addRoundChange G m).Proposes G ∧
    (c.addRoundChange G m).roundChangeSet.highestPreparedBlock (.ofNat c.current.round) = none ∧
    c.current.pendingRequest = none

theorem roundProposal_eq_some (h : c.roundProposal = some p) :
    c.current.pendingRequest = some p ∨
      c.roundChangeSet.highestPreparedBlock (.ofNat c.current.round) = some (some p) := by
  unfold Core.roundProposal at h
  split at h
  next block hblock => exact Or.inr (hblock.trans (congrArg some h))
  · exact Or.inl h

/-- A proposer with a quorum of ROUND-CHANGE messages sends its request or the highest prepared block,
if it has either. -/
theorem proposeRound_spec {B : Backend P} (hquorum : 1 ≤ c.quorum G) (hproposes : c.Proposes G) :
    (c.roundProposal = none ∧ c.proposeRound G B = none) ∨
      ∃ p out, c.roundProposal = some p ∧ c.proposeRound G B = some out ∧
        ∀ pp, Message.preprepare pp ∈ out.sent → pp.proposal = p := by
  have hmany := hproposes.1
  unfold Core.proposeRound
  cases hp : c.roundProposal with
  | none => exact Or.inl ⟨rfl, rfl⟩
  | some p =>
    unfold RoundChangeSet.getRCMessagesForGivenRound at hmany
    cases hmessages : c.roundChangeSet.messages? (.ofNat c.current.round) with
    | none =>
      rw [hmessages, Option.getD_none, List.length_nil] at hmany
      omega
    | some messages =>
      simp only
      split
      · refine Or.inr ⟨p, _, rfl, rfl, fun pp hpp => ?_⟩
        obtain ⟨-, -, -, hsent⟩ := sendPreprepareMsg_spec c p _ _
        obtain ⟨pp', heq, hproposal⟩ := hsent _ hpp
        cases heq
        exact hproposal
      · exact Or.inr ⟨p, _, rfl, rfl, nofun⟩

/-- Handling a ROUND-CHANGE of a validator dereferences nil exactly when the core is to propose and
has nothing to propose. A proposal it sends is its request or the highest prepared block. -/
theorem handleRoundChange_total_iff (G : Config P) (B₀ : Backend P) (address : Address)
    (es : List (Event P)) (c : Core P)
    (run : Run (step G) (fun _ _ => True) (G.start B₀ address) es c) (B : Backend P)
    (m : RoundChange P) (hsource : m.source ∈ c.valSet) :
    (∃ out, c.handleRoundChange G B m = some out ∧
      ∀ pp, Message.preprepare pp ∈ out.sent →
        c.current.pendingRequest = some pp.proposal ∨
          (c.addRoundChange G m).roundChangeSet.highestPreparedBlock (.ofNat c.current.round) =
            some (some pp.proposal)) ↔ ¬ c.LacksProposal G m := by
  have hsolid : (c.addRoundChange G m).roundChangeSet.Solid := by
    have h := run.invariant (P := fun c => c.roundChangeSet.Solid) (fun _ => nofun)
      fun h _ hstep => step_solid h hstep
    unfold Core.addRoundChange
    split
    · exact h.file m _
    · exact h
  have hvalSet : (c.addRoundChange G m).valSet ≠ [] := by
    rw [valSet_addRoundChange]
    exact List.ne_nil_of_mem hsource
  have hcurrent := current_addRoundChange (G := G) (c := c) m
  unfold Core.handleRoundChange Core.LacksProposal
  rw [← hcurrent]
  generalize c.addRoundChange G m = c' at hsolid hvalSet
  unfold Core.countRoundChange
  by_cases hjoins : c'.Joins
  · simp only [hjoins, if_true, not_true, false_and, not_false_iff, iff_true]
    refine ⟨_, rfl, fun pp hpp => ?_⟩
    unfold Core.broadcastRoundChange at hpp
    split at hpp
    · cases hpp
    · obtain ⟨signature, heq⟩ := mem_signed_toList hpp
      cases heq
  by_cases hproposes : c'.Proposes G
  · simp only [hjoins, hproposes, if_true, if_false, not_false_iff, true_and]
    have hlacks : c'.roundProposal = none ↔
        c'.roundChangeSet.highestPreparedBlock (.ofNat c'.current.round) = none ∧
          c'.current.pendingRequest = none := by
      unfold Core.roundProposal
      cases hblock : c'.roundChangeSet.highestPreparedBlock (.ofNat c'.current.round) with
      | none => simp
      | some block =>
        cases block with
        | none => exact absurd hblock (hsolid _)
        | some p => simp
    rw [← hlacks]
    rcases proposeRound_spec (B := B) (one_le_quorum hvalSet) hproposes with
      ⟨hnone, hpropose⟩ | ⟨p, out, hsome, hpropose, hsent⟩
    · simp [hnone, hpropose]
    · rw [hsome, hpropose]
      refine iff_of_true ⟨out, rfl, fun pp hpp => ?_⟩ nofun
      exact hsent pp hpp ▸ roundProposal_eq_some hsome
  · simp only [hjoins, hproposes, if_false, false_and, and_false, not_false_iff, iff_true]
    exact ⟨_, rfl, nofun⟩

/-- The only validator has timed out and gets its own ROUND-CHANGE, with nothing to propose. -/
theorem lone_proposer_panics :
    ∃ c, Run (step plainConfig) (fun _ _ => True) loneCore [⟨.timeout, plainBackend 1 [1]⟩] c ∧
      bareChange.source ∈ c.valSet ∧
      c.handleRoundChange plainConfig (plainBackend 1 [1]) bareChange = none :=
  ⟨_, Run.of_runAll (fun _ _ _ => trivial) rfl, by decide +kernel,
    Option.isNone_iff_eq_none.mp (by decide +kernel)⟩

/-- The lone validator after a timeout: a ROUND-CHANGE with a prepared block gives it something to
propose. -/
theorem handleRoundChange_total_prepared :
    ∃ c, Run (step plainConfig) (fun _ _ => True) loneCore [⟨.timeout, plainBackend 1 [1]⟩] c ∧
      ∃ out, c.handleRoundChange plainConfig (plainBackend 1 [1]) preparedChange = some out := by
  have run : Run (step plainConfig) (fun _ _ => True) loneCore
      [⟨.timeout, plainBackend 1 [1]⟩] _ := Run.of_runAll (fun _ _ _ => trivial) rfl
  obtain ⟨out, hout, -⟩ := (handleRoundChange_total_iff plainConfig _ 1 _ _ run (plainBackend 1 [1])
    preparedChange (by decide +kernel)).mpr fun h => absurd h.2.2.1 (by decide +kernel)
  exact ⟨_, run, out, hout⟩

end Wormholes.Consensus.Qbft.Node
