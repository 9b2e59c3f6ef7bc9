import Mathlib.Data.Prod.Lex
import Wormholes.Consensus.IbftNode

/-!
# Laws.Consensus.IbftNode — what one IBFT core says, and under which seal

`Stage` is what the results read of a core and `Move` what a handler can do to it, with the votes it
casts. A core leaves a round only for a later one, or, while it waits for a round change, to start the
same round afresh. It is active in a round at most once, and in an active round it accepts at most
one proposal. So its votes of one round are all for one digest (`no_equivocation`).

A COMMIT for the core's own round names the proposal the core is locked on, and its seal is over the
same hash. A COMMIT that answers an old PRE-PREPARE names a block of the chain, but its seal is over
whatever proposal the core has at hand. `seals_match_commits` is about the runs in which the two are
the same; in `old_answer_seals_other_block` they are not.
-/

namespace Wormholes.Consensus.Ibft

variable {sub : Subject} {view : View} {round : ℕ} {s : Option ℕ}

/-! ## The order of views -/

/-- A view as a pair. -/
def View.toPair (v : View) : ℕ ×ₗ ℕ := toLex (v.sequence, v.round)

theorem View.toPair_injective : Function.Injective View.toPair := by
  intro v w heq
  have hpair : (v.sequence, v.round) = (w.sequence, w.round) := toLex.injective heq
  cases v
  cases w
  simpa using hpair

/-- Views are ordered lexicographically. -/
instance : LinearOrder View := LinearOrder.lift' View.toPair View.toPair_injective

theorem View.lt_iff (v w : View) :
    v < w ↔ v.sequence < w.sequence ∨ v.sequence = w.sequence ∧ v.round < w.round :=
  Prod.Lex.toLex_lt_toLex

/-- The order is the one the code compares by. -/
theorem View.cmp_eq_lt_iff (v w : View) : v.cmp w = .lt ↔ v < w := by
  rw [View.lt_iff, View.cmp, Ordering.then_eq_lt, compare_eq_iff_eq, Nat.compare_eq_lt,
    Nat.compare_eq_lt]

theorem View.eq_of_cmp {v w : View} (hgt : v.cmp w ≠ .gt) (hlt : v.cmp w ≠ .lt) : v = w := by
  have heq : v.cmp w = .eq := by
    cases h : v.cmp w with
    | lt => exact absurd h hlt
    | eq => rfl
    | gt => exact absurd h hgt
  obtain ⟨hsequence, hround⟩ := Ordering.then_eq_eq.mp heq
  cases v
  cases w
  simp_all

theorem isSome_find? {a : Address} {valSet : List Address} :
    (valSet.find? (· = a)).isSome = true ↔ a ∈ valSet := by
  simp

namespace Node

variable {P : Type}
variable {sent : List (Sent P)} {m : Sent P} {p : Preprepare P} {d : ℕ} {n : History P} {e : Event P}

/-! ## Votes -/

/-- The votes among the messages a core sends. -/
inductive Vote where
  | prepare (sub : Subject)
  /-- A COMMIT for the core's round, the hash under its seal and the core's lock. -/
  | commit (sub : Subject) (sealedHash : Option ℕ) (lockedHash : ℕ)
  /-- A COMMIT that answers an old PRE-PREPARE. -/
  | answer (sub : Subject) (sealedHash : Option ℕ)
deriving DecidableEq

def Sent.vote (m : Sent P) : Option Vote :=
  match m.payload with
  | .prepare sub => some (.prepare sub)
  | .commit sub =>
    if m.oldBlock then some (.answer sub m.sealedHash)
    else some (.commit sub m.sealedHash m.lockedHash)
  | _ => none

/-- What a core said in the messages it sent. -/
def votes (sent : List (Sent P)) : List Vote := sent.filterMap Sent.vote

@[simp] theorem votes_append (sent sent' : List (Sent P)) :
    votes (sent ++ sent') = votes sent ++ votes sent' := List.filterMap_append

theorem mem_votes_of_prepare (hm : m ∈ sent) (h : m.payload = .prepare sub) :
    .prepare sub ∈ votes sent := by
  apply List.mem_filterMap.mpr
  exact ⟨m, hm, by simp [Sent.vote, h]⟩

theorem mem_votes_of_commit (hm : m ∈ sent) (hown : m.oldBlock = false)
    (h : m.payload = .commit sub) :
    .commit sub m.sealedHash m.lockedHash ∈ votes sent := by
  apply List.mem_filterMap.mpr
  exact ⟨m, hm, by simp [Sent.vote, h, hown]⟩

theorem mem_votes_of_answer (hm : m ∈ sent) (hold : m.oldBlock = true) (h : m.payload = .commit sub) :
    .answer sub m.sealedHash ∈ votes sent := by
  apply List.mem_filterMap.mpr
  exact ⟨m, hm, by simp [Sent.vote, h, hold]⟩

/-! ## Moves -/

/-- What the results read of a core: its view, its flags and the hash of the proposal at hand. -/
structure Stage where
  view : View
  waiting : Bool
  state : State
  digest : Option ℕ

variable (G : Config P)

def Core.stage (c : Core P) : Stage where
  view := c.currentView
  waiting := c.waitingForRoundChange
  state := c.state
  digest := c.current.proposal.map G.hash

variable (answers : Subject → Prop) (b : Stage) in
/-- What a handler can do: the stage it leaves and the votes it casts. `answers` says which subjects
of old PRE-PREPAREs it may answer. -/
inductive Move : Stage → List Vote → Prop
  | quiet : Move b []
  | answered (sub : Subject) (h : answers sub) : Move b [.answer sub b.digest]
  | accepted (d : ℕ) (hactive : b.waiting = false) (hstate : b.state = .acceptRequest) :
      Move { b with state := .preprepared, digest := some d } [.prepare ⟨b.view, d⟩]
  /-- The locked proposal is proposed again. -/
  | resumed (d : ℕ) (hactive : b.waiting = false) (hstate : b.state = .acceptRequest) :
      Move { b with state := .prepared, digest := some d } [.commit ⟨b.view, d⟩ (some d) d]
  | prepared (d : ℕ) (hactive : b.waiting = false) (hstate : b.state = .preprepared)
      (hd : b.digest = some d) : Move { b with state := .prepared } [.commit ⟨b.view, d⟩ (some d) d]
  | committed : Move { b with state := .committed } []
  /-- A later view, in which the core waits or starts afresh. -/
  | later (b' : Stage) (hlt : b.view < b'.view)
      (hfresh : b'.waiting = false → b'.state = .acceptRequest) : Move b' []
  /-- The round the core was waiting for starts. -/
  | started (digest : Option ℕ) (hwaiting : b.waiting = true) :
      Move ⟨b.view, false, .acceptRequest, digest⟩ []

/-- A handler's result is a move of its core. -/
def Out.Moves (answers : Subject → Prop) (c : Core P) (out : Out P) : Prop :=
  Move answers (c.stage G) (out.core.stage G) (votes out.sent)

/-! ### Every handler's result is a move -/

section Handlers

variable {G} {B : Backend P} {answers : Subject → Prop} {c : Core P} {src : Address}

theorem moves_self (c : Core P) : Out.Moves G answers c { core := c } := .quiet

@[simp] theorem votes_sendPreprepare (c : Core P) (p : P) : votes (c.sendPreprepare G p) = [] := by
  rw [Core.sendPreprepare]
  split <;> rfl

@[simp] theorem view_updateRoundState (c : Core P) (view : View) (roundChange : Bool) :
    (c.updateRoundState B view roundChange).view = view := by
  rw [Core.updateRoundState]
  split
  · split <;> rfl
  · rfl

@[simp] theorem votes_enterRound (c : Core P) (view : View) (roundChange : Bool) :
    votes (c.enterRound G B view roundChange).sent = [] := by
  simp only [Core.enterRound]
  split
  · split
    · exact votes_sendPreprepare _ _
    · rfl
  · rfl

theorem view_enterRound (c : Core P) (view : View) (roundChange : Bool) :
    (c.enterRound G B view roundChange).core.currentView = view :=
  view_updateRoundState c view roundChange

theorem enterRound_later (c : Core P) (roundChange : Bool) (hlt : c.currentView < view) :
    (c.enterRound G B view roundChange).Moves G answers c := by
  rw [Out.Moves, votes_enterRound]
  apply Move.later
  · rw [← view_enterRound c view roundChange] at hlt
    exact hlt
  · intro _
    rfl

theorem enterRound_started (c : Core P) (roundChange : Bool)
    (hwaiting : c.waitingForRoundChange = true) :
    (c.enterRound G B c.currentView roundChange).Moves G answers c := by
  have hstage : (c.enterRound G B c.currentView roundChange).core.stage G =
      ⟨c.currentView, false, .acceptRequest,
        (c.enterRound G B c.currentView roundChange).core.current.proposal.map G.hash⟩ := by
    rw [Core.stage, view_enterRound]
    rfl
  rw [Out.Moves, votes_enterRound, hstage]
  exact .started _ hwaiting

/-- A new round is a move when it is later than the current one, or is the one waited for. -/
theorem startNewRound_moves
    (hround : round ≠ 0 → c.waitingForRoundChange = true ∨ c.current.round < round) :
    (c.startNewRound G B round).Moves G answers c := by
  rw [Core.startNewRound]
  split
  next hle =>
    apply enterRound_later { c with valSet := B.validators B.lastProposal }
    exact (View.lt_iff _ _).mpr (.inl (Nat.lt_succ_of_le hle))
  next hlt =>
    split
    · split
      · exact moves_self c
      next hne =>
        split
        · exact moves_self c
        next hge =>
          rcases (Nat.le_of_not_lt hge).eq_or_lt with heq | hgt
          · rw [← heq]
            apply enterRound_started c true
            rcases hround hne with hwaiting | hgt
            · exact hwaiting
            · omega
          · apply enterRound_later c true
            exact (View.lt_iff _ _).mpr (.inr ⟨rfl, hgt⟩)
    · exact moves_self c

/-- A round change from a stage of the core's view, whatever else the stage says. -/
theorem sendRoundChange_later (c : Core P) (hgt : c.current.round < round) {b : Stage}
    (hb : b.view = c.currentView) :
    Move answers b ((c.sendRoundChange G B round).core.stage G)
      (votes (c.sendRoundChange G B round).sent) := by
  have hview : (c.catchUpRound B ⟨c.current.sequence, round⟩).currentView =
      ⟨c.current.sequence, round⟩ := view_updateRoundState c _ true
  rw [Core.sendRoundChange, if_neg (Nat.not_le_of_lt hgt)]
  apply Move.later
  · apply (View.lt_iff _ _).mpr
    simp only [Core.stage, hview, hb]
    exact .inr ⟨rfl, hgt⟩
  · intro hactive
    cases hactive

theorem sendRoundChange_moves (c : Core P) (round : ℕ) :
    (c.sendRoundChange G B round).Moves G answers c := by
  by_cases hle : round ≤ c.current.round
  · rw [Core.sendRoundChange, if_pos hle]
    exact moves_self c
  · exact sendRoundChange_later c (Nat.lt_of_not_le hle) rfl

theorem handleOldPreprepare_moves (hanswers : Core.oldProposer G B p src = true →
      B.hasPropsal (G.hash p.proposal) (G.number p.proposal) = true →
        answers ⟨p.view, G.hash p.proposal⟩) :
    (c.handleOldPreprepare G B p src).Moves G answers c := by
  rw [Core.handleOldPreprepare]
  split
  next h => exact .answered ⟨p.view, G.hash p.proposal⟩ (hanswers h.1 h.2)
  · exact moves_self c

theorem checkMessage_eq_ok {code : Code} (hcode : code ≠ .roundChange)
    (h : c.checkMessage code view = .ok) :
    view = c.currentView ∧ c.waitingForRoundChange = false ∧
      (code ≠ .preprepare → c.state ≠ .acceptRequest) := by
  rw [Core.checkMessage, if_neg hcode] at h
  split at h
  · cases h
  next hgt =>
    split at h
    · cases h
    next hlt =>
      split at h
      · cases h
      next hwaiting =>
        split at h
        · cases h
        next hstate =>
          refine ⟨View.eq_of_cmp hgt hlt, Bool.eq_false_iff.mpr hwaiting, ?_⟩
          intro hne haccept
          exact hstate ⟨haccept, hne⟩

theorem subject_eq_some (h : c.subject G = some sub) :
    ∃ p, c.current.preprepare = some p ∧ sub = ⟨c.currentView, G.hash p.proposal⟩ := by
  obtain ⟨p, hp, heq⟩ := Option.map_eq_some_iff.mp h
  exact ⟨p, hp, heq.symm⟩

theorem takePreprepare_moves (hactive : c.waitingForRoundChange = false) :
    (c.takePreprepare G B p).Moves G answers c := by
  rw [Core.takePreprepare]
  split
  next hstate =>
    split
    · split
      next hhash =>
        -- the COMMIT is sent under the lock, which is on the proposal's hash
        have hvotes : votes ((c.acceptPreprepare p .prepared).sendSubject G .commit) =
            [.commit ⟨c.currentView, G.hash p.proposal⟩ (some (G.hash p.proposal))
              (G.hash p.proposal)] := by
          rw [hhash]
          simp [Core.sendSubject, Core.subject, Core.acceptPreprepare, votes, Sent.vote,
            Core.broadcast, RoundState.proposal, hhash, Core.currentView, RoundState.view]
        rw [Out.Moves, hvotes]
        exact .resumed (G.hash p.proposal) hactive hstate
      · exact sendRoundChange_moves c _
    · exact .accepted (G.hash p.proposal) hactive hstate
  · exact moves_self c

/-- The core answers the PRE-PREPARE: it is old, of the right proposer and for a block of the
chain. -/
def Core.AnswersPreprepare (G : Config P) (B : Backend P) (c : Core P) (p : Preprepare P)
    (src : Address) : Prop :=
  c.checkMessage .preprepare p.view = .old ∧ Core.oldProposer G B p src = true ∧
    B.hasPropsal (G.hash p.proposal) (G.number p.proposal) = true

theorem handlePreprepare_moves
    (hanswers : c.AnswersPreprepare G B p src → answers ⟨p.view, G.hash p.proposal⟩) :
    (c.handlePreprepare G B p src).Moves G answers c := by
  rw [Core.handlePreprepare]
  cases hcheck : c.checkMessage .preprepare p.view with
  | old =>
    apply handleOldPreprepare_moves
    intro hproposer hknown
    exact hanswers ⟨hcheck, hproposer, hknown⟩
  | future => exact moves_self c
  | ok =>
    have hactive := (checkMessage_eq_ok (by decide) hcheck).2.1
    by_cases hproposer : c.isProposer src = true
    · cases hverdict : B.verify p.proposal with
      | future =>
        simp only [hproposer, if_true]
        exact moves_self c
      | invalid =>
        simp only [hproposer, if_true]
        exact sendRoundChange_moves c _
      | ok =>
        simp only [hproposer, if_true]
        exact takePreprepare_moves hactive
    · simp only [hproposer]
      exact moves_self c

/-- What counting a PREPARE leaves alone. -/
theorem acceptPrepare_eq (c : Core P) (src : Address) :
    (c.acceptPrepare src).stage G = c.stage G ∧
      (c.acceptPrepare src).current.preprepare = c.current.preprepare := by
  rw [Core.acceptPrepare]
  split
  · exact ⟨rfl, rfl⟩
  · exact ⟨rfl, rfl⟩

theorem acceptCommit_eq (c : Core P) (src : Address) (committedSeal : List ℕ) :
    (c.acceptCommit src committedSeal).stage G = c.stage G ∧
      (c.acceptCommit src committedSeal).current.preprepare = c.current.preprepare := by
  rw [Core.acceptCommit]
  split
  · exact ⟨rfl, rfl⟩
  · exact ⟨rfl, rfl⟩

theorem countPrepare_moves (hp : c.current.preprepare = some p)
    (hactive : c.waitingForRoundChange = false) (hbusy : c.state ≠ .acceptRequest)
    (prepare : Subject) : (c.countPrepare G B prepare).Moves G answers c := by
  rw [Core.countPrepare]
  split
  next h =>
    have hstate : c.state = .preprepared := by
      cases hs : c.state with
      | acceptRequest => exact absurd hs hbusy
      | preprepared => rfl
      | prepared => simp [hs, State.toNat] at h
      | committed => simp [hs, State.toNat] at h
    have hd : (c.stage G).digest = some (G.hash p.proposal) := by
      simp [Core.stage, RoundState.proposal, hp]
    have hlock : c.lockHash G = { c.current with lockedHash := G.hash p.proposal } := by
      rw [Core.lockHash, hp]
    have hvotes : votes (Core.sendSubject G
          { c with current := c.lockHash G, state := .prepared } .commit) =
        [.commit ⟨c.currentView, G.hash p.proposal⟩ (some (G.hash p.proposal))
          (G.hash p.proposal)] := by
      simp [Core.sendSubject, Core.subject, hlock, hp, votes, Sent.vote, Core.broadcast,
        RoundState.proposal, Core.currentView, RoundState.view]
    have hmove : Move answers (c.stage G) { c.stage G with state := .prepared }
        [.commit ⟨c.currentView, G.hash p.proposal⟩ (some (G.hash p.proposal))
          (G.hash p.proposal)] := .prepared (G.hash p.proposal) hactive hstate hd
    rw [Out.Moves, hvotes, hlock]
    exact hmove
  · exact moves_self c

theorem handlePrepare_moves {prepare : Subject} :
    (c.handlePrepare G B prepare src).Moves G answers c := by
  rw [Core.handlePrepare]
  cases hcheck : c.checkMessage .prepare prepare.view with
  | old => exact moves_self c
  | future => exact moves_self c
  | ok =>
    obtain ⟨-, hactive, hbusy⟩ := checkMessage_eq_ok (by decide) hcheck
    by_cases hsub : c.subject G = some prepare
    · simp only [hsub, if_true]
      obtain ⟨p, hp, -⟩ := subject_eq_some hsub
      obtain ⟨hstage, hpre⟩ := acceptPrepare_eq c src
      rw [Out.Moves, ← hstage]
      apply countPrepare_moves (hpre.trans hp)
      · exact (congrArg Stage.waiting hstage).trans hactive
      · intro haccept
        exact hbusy (by decide) ((congrArg Stage.state hstage).symm.trans haccept)
    · simp only [hsub, if_false]
      exact moves_self c

/-- A block that is not inserted makes the core give up the round; the lock is not part of its
stage. -/
theorem commit_moves (c : Core P) {b : Stage} (hb : c.stage G = { b with state := .committed }) :
    Move answers b ((c.commit G B).core.stage G) (votes (c.commit G B).sent) := by
  have hkept : Move answers b (c.stage G) [] := by
    rw [hb]
    exact .committed
  rw [Core.commit]
  cases c.current.proposal with
  | none => exact hkept
  | some p =>
    by_cases hcommit : B.commit p = true
    · simp only [hcommit, if_true]
      exact hkept
    · simp only [hcommit]
      apply sendRoundChange_later { c with current := { c.current with lockedHash := 0 } }
        (Nat.lt_succ_self c.current.round)
      exact (congrArg Stage.view hb).symm

theorem countCommit_moves (c : Core P) : (c.countCommit G B).Moves G answers c := by
  rw [Core.countCommit]
  split
  · apply commit_moves
    rw [Core.lockHash]
    cases hp : c.current.preprepare with
    | none => rfl
    | some p => rfl
  · exact moves_self c

theorem handleCommit_moves {commit : Subject} {committedSeal : List ℕ} :
    (c.handleCommit G B commit src committedSeal).Moves G answers c := by
  rw [Core.handleCommit]
  cases c.checkMessage .commit commit.view with
  | old => exact moves_self c
  | future => exact moves_self c
  | ok =>
    by_cases hsub : c.subject G = some commit
    · simp only [hsub, if_true]
      rw [Out.Moves, ← (acceptCommit_eq c src committedSeal).1]
      exact countCommit_moves _
    · simp only [hsub, if_false]
      exact moves_self c

theorem countRoundChange_moves (c : Core P) (round num : ℕ) :
    (c.countRoundChange G B round num).Moves G answers c := by
  rw [Core.countRoundChange]
  split
  · split
    · exact sendRoundChange_moves c round
    · exact moves_self c
  · split
    next h =>
      apply startNewRound_moves
      intro _
      exact h.2
    · exact moves_self c

theorem handleRoundChange_moves {rc : Subject} :
    (c.handleRoundChange G B rc src).Moves G answers c := by
  rw [Core.handleRoundChange]
  cases c.checkMessage .roundChange rc.view with
  | old => exact moves_self c
  | future => exact moves_self c
  | ok =>
    by_cases hsrc : (ValidatorSet.getByAddress c.valSet src).isSome = true
    · simp only [hsrc, if_true]
      exact countRoundChange_moves
        { c with roundChangeSet := c.roundChangeSet.add rc.view.round src } rc.view.round _
    · simp only [hsrc]
      exact moves_self c

theorem handleCheckedMsg_moves {m : Message P}
    (hanswers : ∀ p, m.payload = .preprepare p → c.AnswersPreprepare G B p m.address →
      answers ⟨p.view, G.hash p.proposal⟩) :
    (c.handleCheckedMsg G B m).Moves G answers c := by
  rw [Core.handleCheckedMsg]
  cases hpayload : m.payload with
  | preprepare p => exact handlePreprepare_moves (hanswers p hpayload)
  | prepare sub => exact handlePrepare_moves
  | commit sub => exact handleCommit_moves
  | roundChange sub => exact handleRoundChange_moves

theorem timeoutRound_moves (c : Core P) (last : P) :
    (c.timeoutRound G B last).Moves G answers c := by
  rw [Core.timeoutRound]
  split
  · apply startNewRound_moves
    intro hne
    exact absurd rfl hne
  · exact sendRoundChange_moves c _

theorem handleTimeoutMsg_moves (c : Core P) (last : P) :
    (c.handleTimeoutMsg G B last).Moves G answers c := by
  rw [Core.handleTimeoutMsg]
  split
  · exact timeoutRound_moves c last
  · cases c.roundChangeSet.maxRound (faulty c.valSet + 1) with
    | none => exact timeoutRound_moves c last
    | some maxRound =>
      by_cases hlt : (c.current.round : ℤ) < maxRound
      · simp only [hlt, if_true]
        exact sendRoundChange_moves c _
      · simp only [hlt, if_false]
        exact timeoutRound_moves c last

theorem handleRequest_moves (c : Core P) (p : P) : (c.handleRequest G p).Moves G answers c := by
  rw [Core.handleRequest]
  split
  · have hvotes : votes (if c.state = .acceptRequest then
        Core.sendPreprepare G
          { c with current := { c.current with pendingRequest := some p } } p else []) = [] := by
      split
      · exact votes_sendPreprepare _ p
      · rfl
    rw [Out.Moves, hvotes]
    exact .quiet
  · exact moves_self c

end Handlers

/-- The message that the event makes the core handle. -/
def Core.Handles (c : Core P) (e : Event P) (m : Message P) : Prop :=
  e.input = .backlog m ∨
    e.input = .message m ∧ (ValidatorSet.getByAddress c.valSet c.address).isSome = true ∧
      (ValidatorSet.getByAddress c.valSet m.address).isSome = true

/-- The event makes the core answer an old PRE-PREPARE. -/
def Core.Answers (c : Core P) (e : Event P) (p : Preprepare P) : Prop :=
  ∃ m, c.Handles e m ∧ m.payload = .preprepare p ∧
    c.AnswersPreprepare G e.backend p m.address

/-- The subject of an old PRE-PREPARE that the event makes the core answer. -/
def Core.AnswersSubject (c : Core P) (e : Event P) (sub : Subject) : Prop :=
  ∃ p, c.Answers G e p ∧ sub = ⟨p.view, G.hash p.proposal⟩

variable {G}

/-- **Every turn of the event loop is a move.** -/
theorem handle_moves (c : Core P) (e : Event P) :
    (c.handle G e).Moves G (c.AnswersSubject G e) c := by
  rw [Core.handle]
  cases hinput : e.input with
  | request p => exact handleRequest_moves c p
  | message m =>
    simp only [Core.handleMsg]
    split
    next hvalidators =>
      apply handleCheckedMsg_moves
      intro p hpayload hanswers
      exact ⟨p, ⟨m, .inr ⟨hinput, hvalidators⟩, hpayload, hanswers⟩, rfl⟩
    · exact moves_self c
  | backlog m =>
    apply handleCheckedMsg_moves
    intro p hpayload hanswers
    exact ⟨p, ⟨m, .inl hinput, hpayload, hanswers⟩, rfl⟩
  | timeout last => exact handleTimeoutMsg_moves c last
  | finalCommitted =>
    apply startNewRound_moves
    intro hne
    exact absurd rfl hne

/-! ## No equivocation -/

/-- The subject of a vote for the core's own round. -/
def Vote.own : Vote → Option Subject
  | .prepare sub => some sub
  | .commit sub _ _ => some sub
  | .answer _ _ => none

/-- What the votes cast so far say about the stage a core is in. -/
structure Consistent (b : Stage) (cast : List Vote) : Prop where
  past : ∀ v ∈ cast, ∀ sub, v.own = some sub → sub.view ≤ b.view
  /-- A core that waits, or has not accepted a proposal, has not voted in its round. -/
  fresh : b.waiting = true ∨ b.state = .acceptRequest →
    ∀ v ∈ cast, ∀ sub, v.own = some sub → sub.view ≠ b.view
  /-- An active core that has only accepted a proposal has not sent COMMIT in its round. -/
  uncommitted : b.waiting = false → b.state = .preprepared →
    ∀ sub s h, Vote.commit sub s h ∈ cast → sub.view ≠ b.view
  prepares : ∀ sub sub', Vote.prepare sub ∈ cast → Vote.prepare sub' ∈ cast →
    sub.view = sub'.view → sub.digest = sub'.digest
  commits : ∀ sub sub' s s' h h', Vote.commit sub s h ∈ cast → Vote.commit sub' s' h' ∈ cast →
    sub.view = sub'.view → sub.digest = sub'.digest
  locked : ∀ sub s h, Vote.commit sub s h ∈ cast → s = some sub.digest ∧ h = sub.digest

theorem Consistent.start (b : Stage) : Consistent b [] := by
  constructor <;> simp

section Step

variable {answers : Subject → Prop} {b b' : Stage} {cast : List Vote}

/-- Subjects of different views agree with any more in a view of its own. -/
theorem agree_insert {S : Subject → Prop} {view : View} (hother : ∀ sub, S sub → sub.view ≠ view)
    (h : ∀ sub sub', S sub → S sub' → sub.view = sub'.view → sub.digest = sub'.digest) :
    ∀ sub sub', sub = ⟨view, d⟩ ∨ S sub → sub' = ⟨view, d⟩ ∨ S sub' → sub.view = sub'.view →
      sub.digest = sub'.digest := by
  rintro sub sub' (rfl | hsub) (rfl | hsub') hviews
  · rfl
  · exact absurd hviews.symm (hother sub' hsub')
  · exact absurd hviews (hother sub hsub)
  · exact h sub sub' hsub hsub' hviews

section

variable (h : Consistent b cast)
include h

/-- Entering a later view: every vote is for an earlier one. -/
theorem Consistent.later (hlt : b.view < b'.view) : Consistent b' cast where
  past v hv sub hsub := (h.past v hv sub hsub).trans hlt.le
  fresh _ v hv sub hsub := ((h.past v hv sub hsub).trans_lt hlt).ne
  uncommitted _ _ sub _ _ hv := ((h.past _ hv sub rfl).trans_lt hlt).ne
  prepares := h.prepares
  commits := h.commits
  locked := h.locked

/-- Another stage of the same view in which no vote is excluded that was cast before. -/
theorem Consistent.stay (hview : b'.view = b.view)
    (hfresh : b'.waiting = true ∨ b'.state = .acceptRequest →
      b.waiting = true ∨ b.state = .acceptRequest)
    (hopen : b'.waiting = false → b'.state = .preprepared →
      (b.waiting = true ∨ b.state = .acceptRequest) ∨
        b.waiting = false ∧ b.state = .preprepared) : Consistent b' cast where
  past := by
    rw [hview]
    exact h.past
  fresh := by
    intro hb
    rw [hview]
    exact h.fresh (hfresh hb)
  uncommitted := by
    intro hactive hstate
    rw [hview]
    intro sub s l hv
    rcases hopen hactive hstate with hfree | ⟨hactive, hstate⟩
    · exact h.fresh hfree _ hv sub rfl
    · exact h.uncommitted hactive hstate sub s l hv
  prepares := h.prepares
  commits := h.commits
  locked := h.locked

/-- A vote added in the view of the core. -/
theorem Consistent.past_cons {v : Vote} (hnew : ∀ sub, v.own = some sub → sub.view = b.view) :
    ∀ v' ∈ v :: cast, ∀ sub, v'.own = some sub → sub.view ≤ b.view := by
  intro v' hv' sub hsub
  rcases List.mem_cons.mp hv' with rfl | hv'
  · exact (hnew sub hsub).le
  · exact h.past v' hv' sub hsub

/-- An answer is no vote for the core's own round. -/
theorem Consistent.answer (sub : Subject) (sealedHash : Option ℕ) :
    Consistent b (.answer sub sealedHash :: cast) where
  past := h.past_cons nofun
  fresh := by
    intro hb v hv sub' hsub
    rcases List.mem_cons.mp hv with rfl | hv
    · cases hsub
    · exact h.fresh hb v hv sub' hsub
  uncommitted := by simpa using h.uncommitted
  prepares := by simpa using h.prepares
  commits := by simpa using h.commits
  locked := by simpa using h.locked

/-- A PREPARE in a round without votes. -/
theorem Consistent.prepare (hstate : b.state = .acceptRequest) (d : ℕ)
    (hview : b'.view = b.view) (hactive' : b'.waiting = false) (hstate' : b'.state = .preprepared) :
    Consistent b' (.prepare ⟨b.view, d⟩ :: cast) where
  past := by
    rw [hview]
    exact h.past_cons (by rintro _ ⟨⟩; rfl)
  fresh := by
    intro hb
    simp [hactive', hstate'] at hb
  uncommitted := by
    intro _ _ sub s l hv
    rw [hview]
    exact h.fresh (.inr hstate) (.commit sub s l) (by simpa using hv) sub rfl
  prepares := by
    -- every earlier PREPARE is for another view
    simpa using agree_insert (fun sub hv => h.fresh (.inr hstate) _ hv sub rfl) h.prepares
  commits := by simpa using h.commits
  locked := by simpa using h.locked

/-- A COMMIT in a round without one. -/
theorem Consistent.commit
    (hother : ∀ sub s l, Vote.commit sub s l ∈ cast → sub.view ≠ b.view) (d : ℕ)
    (hview : b'.view = b.view) (hactive' : b'.waiting = false) (hstate' : b'.state = .prepared) :
    Consistent b' (.commit ⟨b.view, d⟩ (some d) d :: cast) where
  past := by
    rw [hview]
    exact h.past_cons (by rintro _ ⟨⟩; rfl)
  fresh := by
    intro hb
    simp [hactive', hstate'] at hb
  uncommitted := by
    intro _ hstate
    rw [hstate'] at hstate
    cases hstate
  prepares := by simpa using h.prepares
  commits := by
    have hagree := agree_insert (S := fun sub => ∃ s l, Vote.commit sub s l ∈ cast) (d := d)
      (fun sub ⟨s, l, hv⟩ => hother sub s l hv) fun sub₁ sub₂ ⟨s₁, l₁, h₁⟩ ⟨s₂, l₂, h₂⟩ =>
        h.commits sub₁ sub₂ s₁ s₂ l₁ l₂ h₁ h₂
    intro sub₁ sub₂ s₁ s₂ l₁ l₂ h₁ h₂
    simp only [List.mem_cons, Vote.commit.injEq] at h₁ h₂
    exact hagree sub₁ sub₂ (h₁.imp And.left fun h₁ => ⟨s₁, l₁, h₁⟩)
      (h₂.imp And.left fun h₂ => ⟨s₂, l₂, h₂⟩)
  locked := by
    intro sub s l hv
    simp only [List.mem_cons, Vote.commit.injEq] at hv
    rcases hv with ⟨hsub, hs, hl⟩ | hv
    · rw [hsub, hs, hl]
      exact ⟨rfl, rfl⟩
    · exact h.locked sub s l hv

end

/-- **A move keeps the votes consistent and never goes back to an earlier view.** -/
theorem Move.consistent {vs : List Vote} (hmove : Move answers b b' vs) (h : Consistent b cast) :
    b.view ≤ b'.view ∧ Consistent b' (vs ++ cast) := by
  cases hmove with
  | quiet => exact ⟨le_rfl, h⟩
  | answered sub _ => exact ⟨le_rfl, h.answer sub b.digest⟩
  | accepted d hactive hstate => exact ⟨le_rfl, h.prepare hstate d rfl hactive rfl⟩
  | resumed d hactive hstate =>
    refine ⟨le_rfl, h.commit ?_ d rfl hactive rfl⟩
    intro sub s l hv
    exact h.fresh (.inr hstate) _ hv sub rfl
  | prepared d hactive hstate _ =>
    exact ⟨le_rfl, h.commit (h.uncommitted hactive hstate) d rfl hactive rfl⟩
  | committed =>
    refine ⟨le_rfl, h.stay rfl ?_ ?_⟩
    · intro hb
      exact hb.imp_right fun hstate => nomatch hstate
    · intro _ hstate
      cases hstate
  | later _ hlt _ => exact ⟨hlt.le, h.later hlt⟩
  | started digest hwaiting =>
    refine ⟨le_rfl, h.stay rfl ?_ ?_⟩
    · intro _
      exact .inl hwaiting
    · intro _ _
      exact .inl (.inl hwaiting)

end Step

/-! ### Runs -/

theorem History.step_consistent (h : Consistent (n.core.stage G) (votes n.sent)) (e : Event P) :
    n.core.currentView ≤ (n.step G e).core.currentView ∧
      Consistent ((n.step G e).core.stage G) (votes (n.step G e).sent) := by
  have hmove := Move.consistent (handle_moves n.core e) h
  rw [← votes_append] at hmove
  exact hmove

theorem History.run_consistent (h : Consistent (n.core.stage G) (votes n.sent))
    (events : List (Event P)) :
    n.core.currentView ≤ (n.run G events).core.currentView ∧
      Consistent ((n.run G events).core.stage G) (votes (n.run G events).sent) := by
  induction events generalizing n with
  | nil => exact ⟨le_rfl, h⟩
  | cons e events ih =>
    obtain ⟨hle, hstep⟩ := History.step_consistent h e
    obtain ⟨hle', hrun⟩ := ih hstep
    exact ⟨hle.trans hle', hrun⟩

/-- **No equivocation.** Over every run of a core from its start, its view never decreases; it sends
PREPARE for at most one digest of a view; and, the answers to old PRE-PREPAREs apart, it sends COMMIT
for at most one digest of a view, the one it prepared there or its locked hash. -/
theorem no_equivocation (G : Config P) (B : Backend P) (address : Address)
    (events later : List (Event P)) :
    let n := (G.init B address).run G events
    n.core.currentView ≤ (n.run G later).core.currentView ∧
      (∀ m ∈ n.sent, ∀ m' ∈ n.sent, ∀ sub sub', m.payload = .prepare sub →
        m'.payload = .prepare sub' → sub.view = sub'.view → sub.digest = sub'.digest) ∧
      (∀ m ∈ n.sent, ∀ m' ∈ n.sent, m.oldBlock = false → m'.oldBlock = false →
        ∀ sub sub', m.payload = .commit sub → m'.payload = .commit sub' →
          sub.view = sub'.view → sub.digest = sub'.digest) ∧
      ∀ m ∈ n.sent, m.oldBlock = false → ∀ sub, m.payload = .commit sub →
        (∃ m' ∈ n.sent, m'.payload = .prepare sub) ∨ sub.digest = m.lockedHash := by
  intro n
  have hcons : Consistent (n.core.stage G) (votes n.sent) :=
    (History.run_consistent (Consistent.start _) events).2
  refine ⟨(History.run_consistent hcons later).1, ?_, ?_, ?_⟩
  · intro m hm m' hm' sub sub' h h'
    exact hcons.prepares sub sub' (mem_votes_of_prepare hm h) (mem_votes_of_prepare hm' h')
  · intro m hm m' hm' hown hown' sub sub' h h'
    exact hcons.commits sub sub' _ _ _ _ (mem_votes_of_commit hm hown h)
      (mem_votes_of_commit hm' hown' h')
  · intro m hm hown sub h
    exact .inr (hcons.locked sub _ _ (mem_votes_of_commit hm hown h)).2.symm

/-! ## Committed seals -/

/-- The COMMIT carries a seal of its own digest, and a sealed hash is the one the core is locked on or
that of a block of its chain. -/
def Sent.SealedFor (B : Backend P) (m : Sent P) (sub : Subject) : Prop :=
  m.sealedHash = some sub.digest ∧
    ∀ h, m.sealedHash = some h →
      (h ≠ 0 ∧ m.lockedHash = h) ∨ ∃ number, B.hasPropsal h number = true

/-- Every COMMIT the core broadcasts while it handles the event has the right seal. -/
def Core.SealsMatch (G : Config P) (c : Core P) (e : Event P) : Prop :=
  ∀ m ∈ (c.handle G e).sent, ∀ sub, m.payload = .commit sub → m.SealedFor e.backend sub

/-- An old PRE-PREPARE that the core answers is for the proposal the core has at hand. -/
def Core.AnswersCurrent (G : Config P) (c : Core P) (e : Event P) : Prop :=
  ∀ p, c.Answers G e p → c.current.proposal.map G.hash = some (G.hash p.proposal)

theorem digest_ne_zero {c : Core P} (h : (c.stage G).digest = some d) : d ≠ 0 := by
  obtain ⟨p, -, hp⟩ := Option.map_eq_some_iff.mp h
  rw [← hp]
  exact G.hash_ne_zero p

/-- A COMMIT for the core's own round is sealed for its digest, under the lock. -/
theorem commit_sealed {c : Core P} {l : ℕ} (hv : Vote.commit sub s l ∈ votes (c.handle G e).sent) :
    s = some sub.digest ∧ l = sub.digest ∧ sub.digest ≠ 0 := by
  have hmove : Move (c.AnswersSubject G e) (c.stage G) ((c.handle G e).core.stage G)
      (votes (c.handle G e).sent) := handle_moves c e
  generalize hb' : (c.handle G e).core.stage G = b' at hmove
  generalize votes (c.handle G e).sent = vs at hmove hv
  cases hmove with
  | resumed d _ _ =>
    have hne : d ≠ 0 := digest_ne_zero (congrArg Stage.digest hb')
    cases List.mem_singleton.mp hv
    exact ⟨rfl, rfl, hne⟩
  | prepared d _ _ hd =>
    cases List.mem_singleton.mp hv
    exact ⟨rfl, rfl, digest_ne_zero hd⟩
  | _ => simp at hv

/-- An answer is to an old PRE-PREPARE, and its seal is over the proposal at hand. -/
theorem answer_sealed {c : Core P} (hv : Vote.answer sub s ∈ votes (c.handle G e).sent) :
    c.AnswersSubject G e sub ∧ s = c.current.proposal.map G.hash := by
  have hmove : Move (c.AnswersSubject G e) (c.stage G) ((c.handle G e).core.stage G)
      (votes (c.handle G e).sent) := handle_moves c e
  generalize (c.handle G e).core.stage G = b' at hmove
  generalize votes (c.handle G e).sent = vs at hmove hv
  cases hmove with
  | answered sub' hanswers =>
    cases List.mem_singleton.mp hv
    exact ⟨hanswers, rfl⟩
  | _ => simp at hv

/-- The message with which a core answers an old PRE-PREPARE. -/
theorem handle_of_answers {c : Core P} (h : c.Answers G e p) :
    (c.handle G e).sent = [c.broadcast G (.commit ⟨p.view, G.hash p.proposal⟩) true] := by
  obtain ⟨m, hhandles, hpayload, hold, hproposer, hknown⟩ := h
  have hchecked : (c.handleCheckedMsg G e.backend m).sent =
      [c.broadcast G (.commit ⟨p.view, G.hash p.proposal⟩) true] := by
    simp only [Core.handleCheckedMsg, hpayload, Core.handlePreprepare, hold,
      Core.handleOldPreprepare, hproposer, hknown, and_self, if_true]
  rcases hhandles with hinput | ⟨hinput, hself, hsrc⟩
  · simp only [Core.handle, hinput, hchecked]
  · simp only [Core.handle, hinput, Core.handleMsg, hself, hsrc, and_self, if_true, hchecked]

/-- The seals of one event are right exactly when an answered PRE-PREPARE is for the proposal at
hand. -/
theorem sealsMatch_iff (c : Core P) (e : Event P) :
    c.SealsMatch G e ↔ c.AnswersCurrent G e := by
  constructor
  · intro hmatch p hanswers
    have hmem : c.broadcast G (.commit ⟨p.view, G.hash p.proposal⟩) true ∈
        (c.handle G e).sent := by
      rw [handle_of_answers hanswers]
      exact List.mem_singleton.mpr rfl
    exact (hmatch _ hmem ⟨p.view, G.hash p.proposal⟩ rfl).1
  · intro hcurrent m hm sub hpayload
    cases hold : m.oldBlock with
    | false =>
      obtain ⟨hsealed, hlocked, hne⟩ := commit_sealed (mem_votes_of_commit hm hold hpayload)
      refine ⟨hsealed, ?_⟩
      intro h hh
      rw [hsealed] at hh
      cases hh
      exact .inl ⟨hne, hlocked⟩
    | true =>
      obtain ⟨⟨p, hanswers, hsub⟩, hsealed⟩ := answer_sealed (mem_votes_of_answer hm hold hpayload)
      have hdigest : m.sealedHash = some sub.digest := by
        rw [hsealed, hcurrent p hanswers, hsub]
      refine ⟨hdigest, ?_⟩
      intro h hh
      rw [hdigest, hsub] at hh
      cases hh
      obtain ⟨_, -, -, -, -, hknown⟩ := hanswers
      exact .inr ⟨_, hknown⟩

/-- **The seals of a run match what was agreed exactly when every old PRE-PREPARE that is answered is
for the proposal at hand.** -/
theorem seals_match_commits (G : Config P) (B : Backend P) (address : Address)
    (events : List (Event P)) :
    (∀ before e after, events = before ++ e :: after →
        ((G.init B address).run G before).core.SealsMatch G e) ↔
      ∀ before e after, events = before ++ e :: after →
        ((G.init B address).run G before).core.AnswersCurrent G e := by
  constructor
  · intro h before e after hevents
    exact (sealsMatch_iff _ e).mp (h before e after hevents)
  · intro h before e after hevents
    exact (sealsMatch_iff _ e).mpr (h before e after hevents)

/-! ### An answer under the wrong seal -/

/-- Blocks are numbers, and the hash of one is its successor. -/
def plainConfig : Config ℕ where
  policy := .roundRobin
  ceil2Nby3Block := none
  number := id
  hash := Nat.succ
  hash_ne_zero := Nat.succ_ne_zero

/-- A node of four validators with the blocks zero and one. -/
def plainBackend : Backend ℕ where
  lastProposal := 1
  lastProposer := 1
  validators := fun _ => [1, 2, 3, 4]
  parentValidators := fun _ => [1, 2, 3, 4]
  getProposer := fun _ => 0
  hasPropsal := fun hash number => hash = number + 1 ∧ number ≤ 1
  hasBadProposal := fun _ => false
  verify := fun _ => .ok
  commit := fun _ => true

/-- A PRE-PREPARE from a validator. -/
def plainPreprepare (src : Address) (view : View) (p : ℕ) : Event ℕ where
  input := .message ⟨src, .preprepare ⟨view, p⟩, []⟩
  backend := plainBackend

/-- The third validator accepts block two and then answers the PRE-PREPARE of block one: with a COMMIT
for block one under a seal of block two, on which it holds no lock and which is in no chain. Had it
accepted nothing, the seal would be empty. -/
theorem old_answer_seals_other_block :
    let c := ((plainConfig.init plainBackend 3).run plainConfig [plainPreprepare 2 ⟨2, 0⟩ 2]).core
    let e := plainPreprepare 1 ⟨1, 0⟩ 1
    (c.handle plainConfig e).sent = [⟨.commit ⟨⟨1, 0⟩, 2⟩, some 3, 0, true⟩] ∧
      (∀ number, plainBackend.hasPropsal 3 number = false) ∧
      ((plainConfig.start plainBackend 3).handle plainConfig e).sent =
        [⟨.commit ⟨⟨1, 0⟩, 2⟩, none, 0, true⟩] ∧
      ¬ c.SealsMatch plainConfig e := by
  refine ⟨by decide +kernel, ?_, by decide +kernel, ?_⟩
  · intro number
    simp only [plainBackend, decide_eq_false_iff_not]
    omega
  · intro hmatch
    have hsealed := (hmatch ⟨.commit ⟨⟨1, 0⟩, 2⟩, some 3, 0, true⟩ (by decide +kernel) ⟨⟨1, 0⟩, 2⟩
      rfl).1
    cases hsealed

end Node

end Wormholes.Consensus.Ibft
