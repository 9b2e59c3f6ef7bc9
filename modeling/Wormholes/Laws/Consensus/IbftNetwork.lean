import Wormholes.Consensus.IbftNetwork
import Wormholes.Laws.Consensus.IbftNode
import Wormholes.Lib.Quorum
import Wormholes.Lib.Run

/-!
# Laws.Consensus.IbftNetwork — agreement of the IBFT cores

A core that broadcasts COMMIT for its own round has locked the proposal, and a lock stays for the
whole sequence, over every round change. So the locks are votes, one for each core and sequence, and
a proposal that is committed at a sequence is decided by a quorum of them.

A core also broadcasts COMMIT for a block of its chain, with the view the PRE-PREPARE it received
names. Nothing compares that view's sequence with the block's number, neither there nor where a
PRE-PREPARE is accepted. `agreement` is about the runs in which the two are equal whenever a core
takes a PRE-PREPARE; `agreement_fails` is a run in which they are not.

`Ballot` is what agreement reads of a core and `Move` what a handler can do to it; every handler's
result is a move, and the invariant is kept by every move.
-/

namespace Wormholes.Consensus.Ibft

open Lib
open Node (checkMessage_eq_ok subject_eq_some)

variable {P : Type} {N : Network P}
variable {a : Address} {p : Preprepare P}
variable {view : View} {chain : Blocks N.number} {out : Node.Out P} {verdict : Verdict} {sub : Subject}
  {m : Message P}

/-! ## A node's answers -/

theorem isHashLocked_iff (c : Node.Core P) :
    c.isHashLocked (chain.backend verdict) = true ↔ c.current.lockedHash ≠ 0 := by
  simp [Node.Core.isHashLocked, Blocks.backend]

theorem quorum_eq (c : Node.Core P) :
    c.quorum N.config = ((2 * c.valSet.length + 2) / 3 : ℕ) := by
  simp [Node.Core.quorum, Consensus.quorumSize, beforeCeil2Nby3, Network.config]

theorem Blocks.mem_of_hasPropsal {p : P} {number : ℕ}
    (h : chain.hasPropsal (N.hash p) number = true) : p ∈ chain.toList := by
  simp only [hasPropsal, List.any_eq_true, decide_eq_true_eq] at h
  obtain ⟨q, hq, hhash, -⟩ := h
  rwa [← N.hash_injective hhash]

theorem Blocks.number_le_head {p : P} (h : p ∈ chain.toList) :
    N.number p ≤ N.number chain.head := by
  rcases List.mem_cons.mp h with rfl | h
  · exact le_rfl
  · exact (chain.below_lt p h).le

/-! ## Moves -/

/-- What agreement reads of a core. -/
structure Ballot (P : Type) where
  view : View
  preprepare : Option (Preprepare P)
  commits : Finset Address
  lockedHash : ℕ
  accepting : Prop
  valSet : List Address

def Node.Core.ballot (c : Node.Core P) : Ballot P where
  view := c.currentView
  preprepare := c.current.preprepare
  commits := c.current.commits
  lockedHash := c.current.lockedHash
  accepting := c.state = .acceptRequest
  valSet := c.valSet

/-- The subjects of the COMMIT messages among those sent. -/
def commitSubjects (sent : List (Node.Sent P)) : List Subject :=
  sent.filterMap fun m =>
    match m.payload with
    | .commit sub => some sub
    | _ => none

variable (heard : Address → Subject → Prop) (chain : Blocks N.number) (b : Ballot P) in
/-- What a handler can do: the ballot it leaves, the COMMIT messages it sends and the proposal it
commits. `heard a sub` says that `a` signed a COMMIT for the subject. -/
inductive Move : Ballot P → List Subject → Option P → Prop
  | quiet : Move b [] none
  /-- COMMIT for a block of the chain. -/
  | answered (p : Preprepare P) (hmem : p.proposal ∈ chain.toList)
      (hnumber : N.number p.proposal = p.view.sequence) : Move b [⟨p.view, N.hash p.proposal⟩] none
  | accepted (p : Preprepare P) (haccepting : b.accepting) (hfree : b.lockedHash = 0)
      (hnumber : N.number p.proposal = b.view.sequence) :
      Move { b with preprepare := some p, accepting := False } [] none
  /-- The locked proposal is proposed again. -/
  | resumed (p : Preprepare P) (haccepting : b.accepting) (hlocked : b.lockedHash ≠ 0)
      (hhash : N.hash p.proposal = b.lockedHash) :
      Move { b with preprepare := some p, accepting := False } [⟨b.view, N.hash p.proposal⟩] none
  | prepared (p : Preprepare P) (hp : b.preprepare = some p) :
      Move { b with lockedHash := N.hash p.proposal, accepting := False }
        [⟨b.view, N.hash p.proposal⟩] none
  | counted (p : Preprepare P) (hp : b.preprepare = some p) (hbusy : ¬ b.accepting) (src : Address)
      (hsrc : src ∈ b.valSet) (hheard : heard src ⟨b.view, N.hash p.proposal⟩) :
      Move { b with commits := insert src b.commits } [] none
  | decided (p : Preprepare P) (hp : b.preprepare = some p) (hbusy : ¬ b.accepting) (src : Address)
      (hsrc : src ∈ b.valSet) (hheard : heard src ⟨b.view, N.hash p.proposal⟩)
      (hquorum : (2 * b.valSet.length + 2) / 3 ≤ (insert src b.commits).card) :
      Move { b with
          commits := insert src b.commits, lockedHash := N.hash p.proposal, accepting := False }
        [] (some p.proposal)
  /-- Another round of the sequence: the lock and its proposal are kept. -/
  | round (round : ℕ) (accepting : Prop) (preprepare : Option (Preprepare P))
      (hlocked : b.lockedHash ≠ 0 → preprepare = b.preprepare)
      (hfree : b.lockedHash = 0 → preprepare = none) :
      Move { b with view := ⟨b.view.sequence, round⟩, preprepare, commits := ∅, accepting } [] none
  | sequence (sequence : ℕ) (hlt : b.view.sequence < sequence) (accepting : Prop) :
      Move ⟨⟨sequence, 0⟩, none, ∅, 0, accepting, N.validators⟩ [] none

/-- A handler's result is a move of its core. -/
def Moves (heard : Address → Subject → Prop) (chain : Blocks N.number) (c : Node.Core P)
    (out : Node.Out P) : Prop :=
  Move heard chain c.ballot out.core.ballot (commitSubjects out.sent) out.committed

/-! ### Every handler's result is a move -/

section Handlers

variable {heard : Address → Subject → Prop} {c : Node.Core P} {src : Address}

theorem moves_self (c : Node.Core P) : Moves heard chain c { core := c } := .quiet

@[simp] theorem commitSubjects_sendPreprepare (c : Node.Core P) (p : P) :
    commitSubjects (c.sendPreprepare N.config p) = [] := by
  rw [Node.Core.sendPreprepare]
  split <;> rfl

/-- What the round state of another round keeps of the lock. -/
theorem move_round (c : Node.Core P) (round : ℕ) (state : State) :
    Move heard chain c.ballot
      { c.ballot with
        view := (c.updateRoundState (chain.backend verdict) ⟨c.current.sequence, round⟩ true).view
        preprepare :=
          (c.updateRoundState (chain.backend verdict) ⟨c.current.sequence, round⟩ true).preprepare
        commits :=
          (c.updateRoundState (chain.backend verdict) ⟨c.current.sequence, round⟩ true).commits
        lockedHash :=
          (c.updateRoundState (chain.backend verdict) ⟨c.current.sequence, round⟩ true).lockedHash
        accepting := state = .acceptRequest } [] none := by
  rw [Node.Core.updateRoundState, if_pos rfl]
  split
  next hlock =>
    have hne := (isHashLocked_iff c).mp hlock
    exact .round round _ _ (fun _ => rfl) (fun h => absurd h hne)
  next hfree =>
    have hzero : c.ballot.lockedHash = 0 := by
      by_contra hne
      exact hfree ((isHashLocked_iff c).mpr hne)
    have hmove : Move heard chain c.ballot _ [] none :=
      .round round (state = .acceptRequest) none (fun h => absurd hzero h) fun _ => rfl
    rw [hzero] at hmove
    exact hmove

theorem enterRound_round_moves (c : Node.Core P) (round : ℕ) :
    Moves heard chain c
      (c.enterRound N.config (chain.backend verdict) ⟨c.current.sequence, round⟩ true) := by
  have hsent : commitSubjects
      (c.enterRound N.config (chain.backend verdict) ⟨c.current.sequence, round⟩ true).sent = [] := by
    simp only [Node.Core.enterRound]
    split
    · split
      · exact commitSubjects_sendPreprepare _ _
      · rfl
    · rfl
  rw [Moves, hsent]
  exact move_round c round .acceptRequest

theorem startNewRound_moves (c : Node.Core P) (round : ℕ) :
    Moves heard chain c (c.startNewRound N.config (chain.backend verdict) round) := by
  rw [Node.Core.startNewRound]
  split
  next hle =>
    have hsent : commitSubjects ({ c with valSet := N.validators }.enterRound N.config
        (chain.backend verdict) ⟨N.number chain.head + 1, 0⟩ false).sent = [] := by
      simp [Node.Core.enterRound, commitSubjects]
    show Move heard chain c.ballot _ (commitSubjects ({ c with valSet := N.validators }.enterRound
      N.config (chain.backend verdict) ⟨N.number chain.head + 1, 0⟩ false).sent) none
    rw [hsent]
    exact .sequence _ (Nat.lt_succ_of_le hle) (State.acceptRequest = .acceptRequest)
  · split
    · split
      · exact moves_self c
      · split
        · exact moves_self c
        · exact enterRound_round_moves c round
    · exact moves_self c

theorem sendRoundChange_moves (c : Node.Core P) (round : ℕ) :
    Moves heard chain c (c.sendRoundChange N.config (chain.backend verdict) round) := by
  rw [Node.Core.sendRoundChange]
  split
  · exact moves_self c
  · exact move_round c round c.state

theorem handleOldPreprepare_moves
    (hnumber : Node.Core.oldProposer N.config (chain.backend verdict) p src = true →
      chain.hasPropsal (N.hash p.proposal) (N.number p.proposal) = true →
        N.number p.proposal = p.view.sequence) :
    Moves heard chain c (c.handleOldPreprepare N.config (chain.backend verdict) p src) := by
  rw [Node.Core.handleOldPreprepare]
  split
  next h => exact .answered p (Blocks.mem_of_hasPropsal h.2) (hnumber h.1 h.2)
  · exact moves_self c

theorem ballot_acceptPreprepare (c : Node.Core P) {state : State} (hstate : state ≠ .acceptRequest) :
    (c.acceptPreprepare p state).ballot =
      { c.ballot with preprepare := some p, accepting := False } := by
  simp [Node.Core.acceptPreprepare, Node.Core.ballot, Node.Core.currentView, RoundState.view, hstate]

theorem takePreprepare_moves (hview : p.view = c.currentView)
    (hnumber : c.state = .acceptRequest → c.isHashLocked (chain.backend verdict) = false →
      N.number p.proposal = p.view.sequence) :
    Moves heard chain c (c.takePreprepare N.config (chain.backend verdict) p) := by
  rw [Node.Core.takePreprepare]
  split
  next hstate =>
    split
    next hlocked =>
      split
      next hhash =>
        rw [Moves, ballot_acceptPreprepare c (by decide)]
        exact .resumed p hstate ((isHashLocked_iff c).mp hlocked) hhash
      · exact sendRoundChange_moves c _
    next hfree =>
      have hzero : c.ballot.lockedHash = 0 := by
        by_contra hne
        exact hfree ((isHashLocked_iff c).mpr hne)
      have hsequence : N.number p.proposal = c.ballot.view.sequence := by
        rw [hnumber hstate (Bool.eq_false_iff.mpr hfree), hview]
        rfl
      rw [Moves, ballot_acceptPreprepare c (by decide)]
      exact .accepted p hstate hzero hsequence
  · exact moves_self c

/-- The core takes the PRE-PREPARE: it accepts it for its own view while it holds no lock, or answers
it with COMMIT because the proposal is a block of its chain. -/
def Takes (chain : Blocks N.number) (verdict : Verdict) (c : Node.Core P) (p : Preprepare P)
    (src : Address) : Prop :=
  (c.checkMessage .preprepare p.view = .ok ∧ c.isProposer src = true ∧ verdict = .ok ∧
      c.state = .acceptRequest ∧ c.isHashLocked (chain.backend verdict) = false) ∨
    c.AnswersPreprepare N.config (chain.backend verdict) p src

theorem handlePreprepare_moves
    (hnumber : Takes chain verdict c p src → N.number p.proposal = p.view.sequence) :
    Moves heard chain c (c.handlePreprepare N.config (chain.backend verdict) p src) := by
  simp only [Node.Core.handlePreprepare]
  split
  next hold =>
    exact handleOldPreprepare_moves fun hproposer hknown =>
      hnumber (.inr ⟨hold, hproposer, hknown⟩)
  · exact moves_self c
  next hok =>
    split
    next hproposer =>
      cases verdict with
      | future => exact moves_self c
      | invalid => exact sendRoundChange_moves c _
      | ok =>
        have hview := (checkMessage_eq_ok (by decide) hok).1
        exact takePreprepare_moves hview fun hstate hfree =>
          hnumber (.inl ⟨hok, hproposer, rfl, hstate, hfree⟩)
    · exact moves_self c

/-- The ballot of a core that locks its proposal and enters a later state. -/
theorem ballot_lockHash {c : Node.Core P} (hp : c.current.preprepare = some p) {state : State}
    (hstate : state ≠ .acceptRequest) :
    Node.Core.ballot { c with current := c.lockHash N.config, state } =
      { c.ballot with lockedHash := N.hash p.proposal, accepting := False } := by
  simp [Node.Core.ballot, Node.Core.currentView, RoundState.view, Node.Core.lockHash, hp, hstate,
    Network.config]

theorem commitSubjects_lockHash {c : Node.Core P} (hp : c.current.preprepare = some p)
    (state : State) :
    commitSubjects (Node.Core.sendSubject N.config
        { c with current := c.lockHash N.config, state } .commit) =
      [⟨c.currentView, N.hash p.proposal⟩] := by
  simp [commitSubjects, Node.Core.sendSubject, Node.Core.subject, Node.Core.lockHash, hp,
    RoundState.view, Node.Core.currentView, Node.Core.broadcast, Network.config]

theorem countPrepare_moves {c : Node.Core P} (hp : c.current.preprepare = some p)
    (prepare : Subject) :
    Moves heard chain c (c.countPrepare N.config (chain.backend verdict) prepare) := by
  rw [Node.Core.countPrepare]
  split
  · rw [Moves]
    dsimp only
    rw [commitSubjects_lockHash hp, ballot_lockHash hp (by decide)]
    exact .prepared p hp
  · exact moves_self c

theorem handlePrepare_moves (prepare : Subject) :
    Moves heard chain c (c.handlePrepare N.config (chain.backend verdict) prepare src) := by
  rw [Node.Core.handlePrepare]
  split
  · split
    next hsubject =>
      obtain ⟨p, hp, -⟩ := subject_eq_some hsubject
      -- the senders of PREPARE messages are not part of the ballot
      have hballot : (c.acceptPrepare src).ballot = c.ballot := by
        rw [Node.Core.acceptPrepare]
        split <;> rfl
      rw [Moves, ← hballot]
      exact countPrepare_moves ((congrArg Ballot.preprepare hballot).trans hp) prepare
    · exact moves_self c
  · exact moves_self c

theorem commit_eq {c : Node.Core P} (hp : c.current.preprepare = some p) :
    c.commit N.config (chain.backend verdict) = { core := c, committed := some p.proposal } := by
  simp [Node.Core.commit, RoundState.proposal, hp, Blocks.backend]

theorem handleCommit_moves {commit : Subject} {committedSeal : List ℕ} (hsrc : src ∈ c.valSet)
    (hheard : heard src commit) :
    Moves heard chain c
      (c.handleCommit N.config (chain.backend verdict) commit src committedSeal) := by
  rw [Node.Core.handleCommit]
  split
  next hok =>
    have hbusy : ¬ c.ballot.accepting := (checkMessage_eq_ok (by decide) hok).2.2 (by decide)
    split
    next hsubject =>
      obtain ⟨p, hp, rfl⟩ := subject_eq_some hsubject
      have hfound : (Node.ValidatorSet.getByAddress c.valSet src).isSome = true :=
        isSome_find?.mpr hsrc
      have hcounted : (c.acceptCommit src committedSeal).ballot =
          { c.ballot with commits := insert src c.ballot.commits } := by
        rw [Node.Core.acceptCommit, if_pos hfound]
        rfl
      generalize c.acceptCommit src committedSeal = c' at hcounted ⊢
      have hp' : c'.current.preprepare = some p := (congrArg Ballot.preprepare hcounted).trans hp
      rw [Node.Core.countCommit]
      split
      next hquorum =>
        have hlocked : (c'.lockHash N.config).preprepare = some p := by
          simp [Node.Core.lockHash, hp']
        have hquorum : (2 * c.ballot.valSet.length + 2) / 3 ≤ (insert src c.ballot.commits).card := by
          have hsame : c'.valSet = c.ballot.valSet := congrArg Ballot.valSet hcounted
          have hcommits : c'.current.commits = insert src c.ballot.commits :=
            congrArg Ballot.commits hcounted
          rw [← hsame, ← hcommits]
          have hcard := hquorum.1
          rwa [quorum_eq, Nat.cast_le] at hcard
        rw [Moves, commit_eq hlocked]
        dsimp only
        rw [ballot_lockHash hp' (by decide), hcounted]
        exact .decided p hp hbusy src hsrc hheard hquorum
      · rw [Moves, hcounted]
        exact .counted p hp hbusy src hsrc hheard
    · exact moves_self c
  · exact moves_self c

theorem countRoundChange_moves (c : Node.Core P) (round num : ℕ) :
    Moves heard chain c (c.countRoundChange N.config (chain.backend verdict) round num) := by
  rw [Node.Core.countRoundChange]
  split
  · split
    · exact sendRoundChange_moves c round
    · exact moves_self c
  · split
    · exact startNewRound_moves c round
    · exact moves_self c

theorem handleRoundChange_moves (rc : Subject) :
    Moves heard chain c (c.handleRoundChange N.config (chain.backend verdict) rc src) := by
  rw [Node.Core.handleRoundChange]
  split
  · split
    · -- nor is the set of ROUND CHANGE messages
      exact countRoundChange_moves
        { c with roundChangeSet := c.roundChangeSet.add rc.view.round src } rc.view.round _
    · exact moves_self c
  · exact moves_self c

theorem timeoutRound_moves (c : Node.Core P) (last : P) :
    Moves heard chain c (c.timeoutRound N.config (chain.backend verdict) last) := by
  rw [Node.Core.timeoutRound]
  split
  · exact startNewRound_moves c 0
  · exact sendRoundChange_moves c _

/-- What a core does with an input is a move, if a COMMIT is among those heard and it is no PRE-PREPARE
of another number that the core takes. -/
theorem handle_moves {input : Node.Input P}
    (hheard : ∀ m, input = .message m → ∀ sub, m.payload = .commit sub → heard m.address sub)
    (hnumber : ∀ m, input = .message m → ∀ p, m.payload = .preprepare p →
      Takes chain verdict c p m.address → N.number p.proposal = p.view.sequence)
    (hinput : ∀ m, input ≠ .backlog m) :
    Moves heard chain c (c.handle N.config ⟨input, chain.backend verdict⟩) := by
  cases input with
  | request p =>
    simp only [Node.Core.handle, Node.Core.handleRequest]
    split
    · rw [Moves]
      dsimp only
      split
      · rw [commitSubjects_sendPreprepare]
        exact .quiet
      · exact .quiet
    · exact moves_self c
  | message m =>
    simp only [Node.Core.handle, Node.Core.handleMsg]
    split
    next hvalidators =>
      rw [Node.Core.handleCheckedMsg]
      split
      next p hp => exact handlePreprepare_moves (hnumber m rfl p hp)
      next sub _ => exact handlePrepare_moves sub
      next sub hsub => exact handleCommit_moves (isSome_find?.mp hvalidators.2) (hheard m rfl sub hsub)
      next sub _ => exact handleRoundChange_moves sub
    · exact moves_self c
  | backlog m => exact absurd rfl (hinput m)
  | timeout last =>
    simp only [Node.Core.handle, Node.Core.handleTimeoutMsg]
    split
    · exact timeoutRound_moves c last
    · split
      · split
        · exact sendRoundChange_moves c _
        · exact timeoutRound_moves c last
      · exact timeoutRound_moves c last
  | finalCommitted => exact startNewRound_moves c 0

end Handlers

/-! ## Locks are votes -/

/-- A core's ballot against the votes of the core: its lock is its vote at its sequence, and the
COMMIT messages it counts are for the proposal it holds. -/
structure Ballot.Sound (N : Network P) (votes : Votes ℕ ℕ) (heard : Address → Subject → Prop)
    (b : Ballot P) : Prop where
  validators : b.valSet = N.validators
  unlocked : b.lockedHash = 0 → votes b.view.sequence = none
  locked : b.lockedHash ≠ 0 → votes b.view.sequence = some b.lockedHash
  later : ∀ s, b.view.sequence < s → votes s = none
  held : b.lockedHash ≠ 0 → ∃ p, b.preprepare = some p ∧ N.hash p.proposal = b.lockedHash
  number : ∀ p, b.preprepare = some p → N.number p.proposal = b.view.sequence
  counted : ∀ a ∈ b.commits, a ∈ N.validators ∧
    ∃ p, b.preprepare = some p ∧ heard a ⟨b.view, N.hash p.proposal⟩
  fresh : b.accepting → b.commits = ∅
  above : N.number N.genesis.head < b.view.sequence

/-- A COMMIT message is for the vote of its sender, or for a block of its sender's chain. -/
def Backed (votes : Votes ℕ ℕ) (chain : Blocks N.number) (sub : Subject) : Prop :=
  votes sub.view.sequence = some sub.digest ∨
    ∃ p ∈ chain.toList, N.hash p = sub.digest ∧ N.number p = sub.view.sequence

/-- A committed proposal is one a quorum was heard to commit to, at the ballot's view. -/
def Elected (N : Network P) (heard : Address → Subject → Prop) (b : Ballot P) (p : P) : Prop :=
  N.number p = b.view.sequence ∧ ∃ Q : Finset Address, N.quorumSize ≤ Q.card ∧
    ∀ a ∈ Q, a ∈ N.validators ∧ heard a ⟨b.view, N.hash p⟩

section Moves

variable {heard : Address → Subject → Prop} {votes : Votes ℕ ℕ} {b b' : Ballot P}
  {subs : List Subject} {committed : Option P}

/-- The lock of a proposal the ballot holds is a vote that contradicts none. -/
theorem Ballot.Sound.vote (h : b.Sound N votes heard) (hp : b.preprepare = some p) :
    votes b.view.sequence = none ∨ votes b.view.sequence = some (N.hash p.proposal) := by
  by_cases hlock : b.lockedHash = 0
  · exact .inl (h.unlocked hlock)
  · obtain ⟨q, hq, hhash⟩ := h.held hlock
    cases hp.symm.trans hq
    rw [hhash]
    exact .inr (h.locked hlock)

theorem Ballot.Sound.mono {heard' : Address → Subject → Prop} (h : b.Sound N votes heard)
    (hmono : ∀ {a sub}, heard a sub → heard' a sub) : b.Sound N votes heard' :=
  { h with
    counted := fun a ha =>
      let ⟨hvalidator, p, hp, hheard⟩ := h.counted a ha
      ⟨hvalidator, p, hp, hmono hheard⟩ }

/-- Locking the proposal the ballot holds, with the senders it counts. -/
theorem Ballot.Sound.lock (h : b.Sound N votes heard) (hp : b.preprepare = some p)
    {commits : Finset Address}
    (hcounted : ∀ a ∈ commits, a ∈ N.validators ∧ heard a ⟨b.view, N.hash p.proposal⟩) :
    Ballot.Sound N (votes.cast b.view.sequence (N.hash p.proposal)) heard
      { b with commits, lockedHash := N.hash p.proposal, accepting := False } where
  validators := h.validators
  unlocked := fun hzero => absurd hzero (N.hash_ne_zero _)
  locked := fun _ => Votes.cast_same ..
  later := fun s hs => by
    have hne : s ≠ b.view.sequence := hs.ne'
    rw [Votes.cast_of_ne _ _ hne]
    exact h.later s hs
  held := fun _ => ⟨p, hp, rfl⟩
  number := h.number
  counted := fun a ha => ⟨(hcounted a ha).1, p, hp, (hcounted a ha).2⟩
  fresh := False.elim
  above := h.above

theorem Ballot.Sound.counted_insert (h : b.Sound N votes heard) (hp : b.preprepare = some p)
    {src : Address} (hsrc : src ∈ b.valSet) (hheard : heard src ⟨b.view, N.hash p.proposal⟩) :
    ∀ a ∈ insert src b.commits, a ∈ N.validators ∧ heard a ⟨b.view, N.hash p.proposal⟩ := by
  intro a ha
  rcases Finset.mem_insert.mp ha with rfl | ha
  · exact ⟨h.validators ▸ hsrc, hheard⟩
  · obtain ⟨hvalidator, q, hq, hheard⟩ := h.counted a ha
    cases hp.symm.trans hq
    exact ⟨hvalidator, hheard⟩

/-- What a move does to the votes: none is changed, the COMMIT messages it sends are backed, and the
proposal it commits is elected. -/
theorem Move.sound (hmove : Move heard chain b b' subs committed) (h : b.Sound N votes heard) :
    ∃ votes' : Votes ℕ ℕ, votes.Extends votes' ∧ b'.Sound N votes' heard ∧
      (∀ sub ∈ subs, Backed votes' chain sub) ∧ ∀ p, committed = some p → Elected N heard b p := by
  cases hmove with
  | quiet => exact ⟨votes, .refl _, h, by simp, by simp⟩
  | answered p hmem hnumber =>
    refine ⟨votes, .refl _, h, ?_, by simp⟩
    simp only [List.mem_singleton, forall_eq]
    exact .inr ⟨p.proposal, hmem, rfl, hnumber⟩
  | accepted p haccepting hfree hnumber =>
    refine ⟨votes, .refl _, ?_, by simp, by simp⟩
    have hnone := h.fresh haccepting
    exact
      { h with
        held := fun hlocked => absurd hfree hlocked
        number := fun q hq => by cases hq; exact hnumber
        counted := by simp [hnone]
        fresh := False.elim }
  | resumed p haccepting hlocked hhash =>
    have hnone := h.fresh haccepting
    -- the proposal is the locked one, so it has the number the lock was taken for
    have hnumber : N.number p.proposal = b.view.sequence := by
      obtain ⟨q, hq, hqhash⟩ := h.held hlocked
      rw [N.hash_injective (hhash.trans hqhash.symm)]
      exact h.number q hq
    refine ⟨votes, .refl _, ?_, ?_, by simp⟩
    · exact
        { h with
          held := fun _ => ⟨p, rfl, hhash⟩
          number := fun q hq => by cases hq; exact hnumber
          counted := by simp [hnone]
          fresh := False.elim }
    · simp only [List.mem_singleton, forall_eq]
      rw [hhash]
      exact .inl (h.locked hlocked)
  | prepared p hp =>
    have hcounted : ∀ a ∈ b.commits, a ∈ N.validators ∧ heard a ⟨b.view, N.hash p.proposal⟩ := by
      intro a ha
      obtain ⟨hvalidator, q, hq, hheard⟩ := h.counted a ha
      cases hp.symm.trans hq
      exact ⟨hvalidator, hheard⟩
    refine ⟨_, Votes.extends_cast (h.vote hp), h.lock hp hcounted, ?_, by simp⟩
    simp only [List.mem_singleton, forall_eq]
    exact .inl (Votes.cast_same ..)
  | counted p hp hbusy src hsrc hheard =>
    have hcounted := h.counted_insert hp hsrc hheard
    refine ⟨votes, .refl _, ?_, by simp, by simp⟩
    exact
      { h with
        counted := fun a ha => ⟨(hcounted a ha).1, p, hp, (hcounted a ha).2⟩
        fresh := fun haccepting => absurd haccepting hbusy }
  | decided p hp hbusy src hsrc hheard hquorum =>
    have hcounted := h.counted_insert hp hsrc hheard
    refine ⟨_, Votes.extends_cast (h.vote hp), h.lock hp hcounted, by simp, ?_⟩
    rintro q hq
    cases hq
    rw [h.validators] at hquorum
    exact ⟨h.number p hp, _, hquorum, hcounted⟩
  | round round accepting preprepare hlocked hfree =>
    refine ⟨votes, .refl _, ?_, by simp, by simp⟩
    exact
      { h with
        held := fun hlock => by rw [hlocked hlock]; exact h.held hlock
        number := fun q hq => by
          by_cases hlock : b.lockedHash = 0
          · cases (hfree hlock).symm.trans hq
          · exact h.number q ((hlocked hlock).symm.trans hq)
        counted := by simp
        fresh := fun _ => rfl }
  | sequence sequence hlt accepting =>
    refine ⟨votes, .refl _, ?_, by simp, by simp⟩
    exact
      { validators := rfl
        unlocked := fun _ => h.later sequence hlt
        locked := fun hne => absurd rfl hne
        later := fun s hs => h.later s (hlt.trans hs)
        held := fun hne => absurd rfl hne
        number := by simp
        counted := by simp
        fresh := fun _ => rfl
        above := h.above.trans hlt }

end Moves

/-! ## Agreement -/

/-- A COMMIT for the subject was signed. -/
def World.Heard (w : World N) (a : Address) (sub : Subject) : Prop := ⟨a, .commit sub⟩ ∈ w.sent

namespace Network

/-- The proposal with the digest is decided at the sequence. -/
def Agreed (N : Network P) (byzantine : Finset Address) (L : Book Address ℕ ℕ) :
    ℕ → ℕ → Prop :=
  Decided N.validators.toFinset byzantine N.quorumSize L

/-- The world against a book of votes. -/
structure Inv (N : Network P) (byzantine : Finset Address) (L : Book Address ℕ ℕ) (w : World N) :
    Prop where
  cores : ∀ a, N.Honest byzantine a → (w.cores a).ballot.Sound N (L a) w.Heard
  sent : ∀ a sub, N.Honest byzantine a → w.Heard a sub → Backed (L a) (w.chains a) sub
  chain : ∀ a, N.Honest byzantine a → ∀ p ∈ (w.chains a).toList,
    p ∈ N.genesis.toList ∨ ∃ e ∈ w.commitments, e.proposal = p
  commitments : ∀ e ∈ w.commitments, N.number e.proposal = e.sequence ∧
    N.Agreed byzantine L e.sequence (N.hash e.proposal)

variable {byzantine : Finset Address} {L : Book Address ℕ ℕ} {w : World N}

theorem inv_init : N.Inv byzantine (fun _ _ => none) N.init where
  cores := fun a _ =>
    { validators := rfl
      unlocked := fun _ => rfl
      locked := fun h => absurd rfl h
      later := fun _ _ => rfl
      held := fun h => absurd rfl h
      number := fun _ h => by cases h
      counted := fun _ h => absurd h (Finset.notMem_empty _)
      fresh := fun _ => rfl
      above := Nat.lt_succ_self _ }
  sent := fun _ _ _ h => absurd h List.not_mem_nil
  chain := fun _ _ _ h => .inl h
  commitments := fun _ h => absurd h List.not_mem_nil

/-- The vote of an honest validator whose COMMIT at the view was heard, unless the proposal was
decided before: an honest validator commits to a block of its chain only after a core committed it. -/
theorem Inv.vote_or_agreed (h : N.Inv byzantine L w) (ha : N.Honest byzantine a) {p : P}
    (habove : N.number N.genesis.head < view.sequence) (hheard : w.Heard a ⟨view, N.hash p⟩) :
    L a view.sequence = some (N.hash p) ∨ N.Agreed byzantine L view.sequence (N.hash p) := by
  rcases h.sent a _ ha hheard with hvote | ⟨q, hq, hhash, hnumber⟩
  · exact .inl hvote
  · obtain rfl := N.hash_injective hhash
    rcases h.chain a ha q hq with hgenesis | ⟨e, he, rfl⟩
    · have hle := Blocks.number_le_head hgenesis
      exact absurd (hnumber ▸ hle) (not_le.mpr habove)
    · obtain ⟨hsequence, hagreed⟩ := h.commitments e he
      have hsame : view.sequence = e.sequence := hnumber.symm.trans hsequence
      rw [hsame]
      exact .inr hagreed

theorem Inv.agreed_of_elected (h : N.Inv byzantine L w) {b : Ballot P} {p : P}
    (habove : N.number N.genesis.head < b.view.sequence) (helected : Elected N w.Heard b p) :
    N.Agreed byzantine L b.view.sequence (N.hash p) := by
  obtain ⟨-, Q, hquorum, hQ⟩ := helected
  by_contra hnot
  refine hnot ⟨Q, fun a ha => List.mem_toFinset.mpr (hQ a ha).1, hquorum, fun a ha hgood => ?_⟩
  exact (h.vote_or_agreed ⟨(hQ a ha).1, hgood⟩ habove (hQ a ha).2).resolve_right hnot

theorem mem_commitSubjects {sent : List (Node.Sent P)} {m : Node.Sent P} (hm : m ∈ sent)
    (h : m.payload = .commit sub) : sub ∈ commitSubjects sent := by
  refine List.mem_filterMap.mpr ⟨m, hm, ?_⟩
  rw [h]

/-- An honest core's move keeps the invariant, for a log that has the statements it makes. -/
theorem Inv.perform (h : N.Inv byzantine L w) (ha : N.Honest byzantine a)
    (hmove : Moves w.Heard (w.chains a) (w.cores a) out) :
    ∃ L', N.Inv byzantine L' (w.perform a out) := by
  have hcore := h.cores a ha
  obtain ⟨votes', hvotes, hsound, hbacked, helected⟩ := hmove.sound hcore
  have hext : L.Extends (Function.update L a votes') := Book.extends_update hvotes
  have hheard : ∀ {v sub}, w.Heard v sub → (w.perform a out).Heard v sub :=
    fun hv => List.mem_append_right _ hv
  refine ⟨Function.update L a votes', ?_, ?_, ?_, ?_⟩
  · intro v hv
    by_cases hva : v = a
    · subst hva
      simpa [World.perform] using hsound.mono hheard
    · simpa [World.perform, hva] using (h.cores v hv).mono hheard
  · intro v sub hv hsent
    rcases List.mem_append.mp hsent with hnew | hold
    · -- a message of this move
      obtain ⟨m, hm, heq⟩ := List.mem_map.mp hnew
      obtain ⟨rfl, hpayload⟩ := Message.mk.inj heq
      rw [Function.update_self]
      exact hbacked sub (mem_commitSubjects hm hpayload)
    · exact (h.sent v sub hv hold).imp_left fun hvote => hext v hvote
  · intro v hv p hp
    exact (h.chain v hv p hp).imp_right fun ⟨e, he, hep⟩ => ⟨e, List.mem_append_right _ he, hep⟩
  · intro e he
    rcases List.mem_append.mp he with hnew | hold
    · -- the commitment of this move
      obtain ⟨p, hp, rfl⟩ := Option.map_eq_some_iff.mp (Option.mem_toList.mp hnew)
      have hp := helected p hp
      exact ⟨hp.1, (h.agreed_of_elected hcore.above hp).mono hext⟩
    · exact (h.commitments e hold).imp_right fun hagreed => hagreed.mono hext

/-- A block that a core committed is added to a chain. -/
theorem Inv.insert (h : N.Inv byzantine L w) {p : P}
    (hnumber : N.number p = N.number (w.chains a).head + 1)
    (hp : p ∈ w.commitments.map (·.proposal)) :
    N.Inv byzantine L { w with
      chains := Function.update w.chains a ((w.chains a).push p hnumber) } where
  cores := h.cores
  sent := by
    intro v sub hv hsent
    by_cases hva : v = a
    · subst hva
      simp only [Function.update_self]
      exact (h.sent v sub hv hsent).imp_right fun ⟨q, hq, hrest⟩ =>
        ⟨q, List.mem_cons_of_mem _ hq, hrest⟩
    · simpa [hva] using h.sent v sub hv hsent
  chain := by
    intro v hv q hq
    by_cases hva : v = a
    · subst hva
      simp only [Function.update_self] at hq
      rcases List.mem_cons.mp hq with rfl | hq
      · obtain ⟨e, he, hep⟩ := List.mem_map.mp hp
        exact .inr ⟨e, he, hep⟩
      · exact h.chain v hv q hq
    · simp only [Function.update_of_ne hva] at hq
      exact h.chain v hv q hq
  commitments := h.commitments

/-- A Byzantine validator's message adds nothing to what honest ones said. -/
theorem Inv.forge (h : N.Inv byzantine L w) (hm : m.address ∈ byzantine) :
    N.Inv byzantine L { w with sent := m :: w.sent } where
  cores := fun a ha => (h.cores a ha).mono fun hheard => List.mem_cons_of_mem _ hheard
  sent := by
    intro a sub ha hsent
    rcases List.mem_cons.mp hsent with rfl | hsent
    · exact absurd hm ha.2
    · exact h.sent a sub ha hsent
  chain := h.chain
  commitments := h.commitments

/-- Two quorums outnumber the validators and the Byzantine ones among them. -/
theorem card_lt_two_quorums (hbyzantine : (byzantine.card : ℤ) ≤ faulty N.validators) :
    N.validators.toFinset.card + byzantine.card < 2 * N.quorumSize := by
  rw [List.toFinset_card_of_nodup N.nodup, quorumSize]
  rw [faulty] at hbyzantine
  omega

/-- The PRE-PREPARE that a core takes proposes a block whose number is its view's sequence. -/
def Numbered (w : World N) : Event P → Prop
  | .deliver a m verdict => ∀ p, m.payload = .preprepare p →
      Takes (w.chains a) verdict (w.cores a) p m.address → N.number p.proposal = p.view.sequence
  | _ => True

variable [DecidableEq P]

/-- Every step that takes numbered proposals only keeps the invariant: an honest core moves, or a
Byzantine validator signs what it likes, which is in nobody's log. -/
theorem Inv.step {w' : World N} {e : Event P} (h : N.Inv byzantine L w) (hnumbered : Numbered w e)
    (hstep : N.step byzantine e w = some w') : ∃ L', N.Inv byzantine L' w' := by
  cases e with
  | forge m =>
    simp only [Network.step, Option.ite_none_right_eq_some, Option.some.injEq] at hstep
    obtain ⟨hm, rfl⟩ := hstep
    exact ⟨L, h.forge hm⟩
  | deliver a m verdict =>
    simp only [Network.step, Option.ite_none_right_eq_some, Option.some.injEq] at hstep
    obtain ⟨⟨ha, hm⟩, rfl⟩ := hstep
    refine h.perform ha (handle_moves ?_ ?_ nofun)
    · rintro _ ⟨⟩ sub hsub
      dsimp only at hsub
      rw [World.Heard, ← hsub]
      exact hm
    · rintro _ ⟨⟩ p hp
      exact hnumbered p hp
  | request a p =>
    simp only [Network.step, Option.ite_none_right_eq_some, Option.some.injEq] at hstep
    obtain ⟨ha, rfl⟩ := hstep
    exact h.perform ha (handle_moves nofun nofun nofun)
  | timeout a =>
    simp only [Network.step, Option.ite_none_right_eq_some, Option.some.injEq] at hstep
    obtain ⟨ha, rfl⟩ := hstep
    exact h.perform ha (handle_moves nofun nofun nofun)
  | finalCommitted a =>
    simp only [Network.step, Option.ite_none_right_eq_some, Option.some.injEq] at hstep
    obtain ⟨ha, rfl⟩ := hstep
    exact h.perform ha (handle_moves nofun nofun nofun)
  | insert a p =>
    simp only [Network.step, Option.dite_none_right_eq_some, Option.ite_none_right_eq_some,
      Option.some.injEq] at hstep
    obtain ⟨hnumber, ⟨-, hp⟩, rfl⟩ := hstep
    exact ⟨L, h.insert hnumber hp⟩

end Network

/-- **Agreement**: in a run in which every PRE-PREPARE that an honest core takes proposes a block of
its view's sequence, the proposals that honest cores commit at one sequence are the same, whatever
the rounds, the schedule and what at most `F` Byzantine validators sign. -/
theorem agreement [DecidableEq P] (N : Network P) (byzantine : Finset Address)
    (hbyzantine : (byzantine.card : ℤ) ≤ faulty N.validators) {es : List (Event P)} {w : World N}
    (run : Run (N.step byzantine) Network.Numbered N.init es w) {e e' : Commitment P}
    (he : e ∈ w.commitments) (he' : e' ∈ w.commitments) (hsequence : e.sequence = e'.sequence) :
    e.proposal = e'.proposal := by
  have hinv : ∃ L, N.Inv byzantine L w :=
    Run.invariant (P := fun w => ∃ L, N.Inv byzantine L w) run ⟨_, Network.inv_init⟩
      fun ⟨_, h⟩ hok hstep => h.step hok hstep
  obtain ⟨L, h⟩ := hinv
  have hagreed := (h.commitments e he).2
  have hagreed' := (h.commitments e' he').2
  rw [← hsequence] at hagreed'
  exact N.hash_injective (hagreed.unique (Network.card_lt_two_quorums hbyzantine) hagreed')

/-! ### Four validators -/

/-- Blocks are numbered from the genesis block `0`; the block `1` is the head all cores start from.
The first validator is the proposer of round 0 at the numbers 1 and 2. -/
def fourValidators : Network (Fin 3) where
  validators := [1, 2, 3, 4]
  nodup := by decide
  policy := .roundRobin
  number p := p
  hash p := p + 1
  author p := if p = 1 then 4 else if p = 2 then 1 else 0
  genesis := ⟨1, [0], by decide⟩
  hash_injective := fun _ _ h => Fin.ext (Nat.succ.inj h)
  hash_ne_zero := fun _ => Nat.succ_ne_zero _

/-- The PRE-PREPARE of the first validator for a block, in round 0 of sequence 2. -/
def proposing (p : Fin 3) : Message (Fin 3) := ⟨1, .preprepare ⟨⟨2, 0⟩, p⟩⟩

def preparing (p : Fin 3) (a : Address) : Message (Fin 3) := ⟨a, .prepare ⟨⟨2, 0⟩, p + 1⟩⟩

def committing (p : Fin 3) (a : Address) : Message (Fin 3) := ⟨a, .commit ⟨⟨2, 0⟩, p + 1⟩⟩

def deliverAll (a : Address) (ms : List (Message (Fin 3))) : List (Event (Fin 3)) :=
  ms.map fun m => .deliver a m .ok

/-- The second and third validators agree with the first on block 2; the fourth hears nothing. -/
def threeAgree : List (Event (Fin 3)) :=
  [.forge (proposing 2), .deliver 2 (proposing 2) .ok, .deliver 3 (proposing 2) .ok,
    .forge (preparing 2 1)] ++
  deliverAll 2 ([1, 2, 3].map (preparing 2)) ++ deliverAll 3 ([1, 2, 3].map (preparing 2)) ++
  [.forge (committing 2 1)] ++
  deliverAll 2 ([1, 2, 3].map (committing 2)) ++ deliverAll 3 ([1, 2, 3].map (committing 2))

/-- The two go on to sequence 3. Then the first validator proposes block 1 again in its round of
sequence 2: the two answer with COMMIT, since it is a block of their chains, and the fourth accepts
it. -/
def oldBlockAgain : List (Event (Fin 3)) :=
  [.insert 2 2, .finalCommitted 2, .insert 3 2, .finalCommitted 3, .forge (proposing 1),
    .deliver 2 (proposing 1) .ok, .deliver 3 (proposing 1) .ok, .deliver 4 (proposing 1) .ok,
    .forge (committing 1 1)] ++
  deliverAll 4 ([1, 2, 3].map (committing 1))

/-- The commitments a schedule leads to, when the first validator is Byzantine. -/
def commitmentsOf (es : List (Event (Fin 3))) : Option (List (Commitment (Fin 3))) :=
  (runAll (fourValidators.step {1}) es fourValidators.init).map (·.commitments)

/-- Whether a delivered PRE-PREPARE, taken or not, proposes a block of its view's sequence. -/
def Event.inSequence : Event (Fin 3) → Bool
  | .deliver _ ⟨_, .preprepare p⟩ _ => fourValidators.number p.proposal = p.view.sequence
  | _ => true

theorem Event.numbered_of_inSequence {e : Event (Fin 3)} (h : e.inSequence = true)
    (w : World fourValidators) : Network.Numbered w e := by
  cases e with
  | deliver a m verdict =>
    obtain ⟨src, payload⟩ := m
    rintro p rfl -
    exact of_decide_eq_true h
  | _ => trivial

/-- Three honest validators and a Byzantine one: in this run two of the honest ones commit at
sequence 2, and what they commit is the same block. -/
theorem agreement_threeAgree :
    ∃ w, Run (fourValidators.step {1}) Network.Numbered fourValidators.init threeAgree w ∧
      w.commitments = [⟨3, 2, 2⟩, ⟨2, 2, 2⟩] ∧
      ∀ e ∈ w.commitments, ∀ e' ∈ w.commitments, e.sequence = e'.sequence →
        e.proposal = e'.proposal := by
  have hcommitments : commitmentsOf threeAgree = some [⟨3, 2, 2⟩, ⟨2, 2, 2⟩] := by decide +kernel
  obtain ⟨w, hw, heq⟩ := Option.map_eq_some_iff.mp hcommitments
  have hin : ∀ e ∈ threeAgree, e.inSequence = true := by decide
  have run := Run.of_runAll (fun u e he => Event.numbered_of_inSequence (hin e he) u) hw
  refine ⟨w, run, heq, fun e he e' he' hsequence => ?_⟩
  exact agreement fourValidators {1} (by decide) run he he' hsequence

/-- Two honest cores commit different proposals at sequence 2. -/
theorem agreement_fails :
    ({1} : Finset Address).card ≤ faulty fourValidators.validators ∧
      commitmentsOf (threeAgree ++ oldBlockAgain) =
        some [⟨4, 2, 1⟩, ⟨3, 2, 2⟩, ⟨2, 2, 2⟩] := by
  decide +kernel

end Wormholes.Consensus.Ibft
