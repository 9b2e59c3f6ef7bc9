import Wormholes.Consensus.QbftNode
import Wormholes.Laws.Consensus.IbftNode
import Wormholes.Laws.Consensus.Quorum
import Wormholes.Lib.Outcome

/-!
# Laws.Consensus.QbftNode — what one QBFT core can do

`Stage` is what the results read of a core, `Filed` the filing of a ROUND-CHANGE and `Move` what else a
handler can do; a turn of the event loop is one filing at most and then one move (`handle_turns`). A move
has one vote at most, of which every broadcast message is a copy unless it is a PRE-PREPARE.

Two conditions of moves stand for what the source does not expect. An event `Strays` when a round change
begins while the head of the chain is not the block before the core's sequence. It `Wraps` when a
timeout leads into a round that is a multiple of `2 ^ 64`, which the source takes for round zero.
-/

namespace Wormholes.Consensus.Qbft.Node

open Lib Common
open Ibft (View State Verdict isSome_find?)
open Ibft.Node.ValidatorSet (getByAddress)

variable {P : Type} {G : Config P} {B : Backend P} {c : Core P}
variable {m m' : Message P} {code : ℕ} {view : View} {round : ℤ} {out : Out P} {e : Event P}
variable {a : Address} {message : List ℕ → Message P} {committed : Option P} {err : Option Err}

/-! ## Checks -/

/-- A signature is accepted exactly from a validator. -/
theorem verify_eq_ok_iff {payload : Option (List ℕ)} {signature : List ℕ} :
    c.verify G payload signature = .ok a ↔
      a ∈ c.valSet ∧ (payload.bind fun payload => G.getSignatureAddress payload signature) = some a := by
  unfold Core.verify
  cases payload with
  | none => simp
  | some payload =>
    simp only [Option.bind_some]
    cases hsigner : G.getSignatureAddress payload signature with
    | none => simp
    | some signer =>
      by_cases hmem : signer ∈ c.valSet
      · simp only [getByAddress, isSome_find?, hmem, if_true, Except.ok.injEq, Option.some.injEq]
        exact ⟨fun h => ⟨h ▸ hmem, h⟩, fun h => h.2⟩
      · simp only [getByAddress, isSome_find?, hmem, if_false, Option.some.injEq]
        exact ⟨nofun, fun h => absurd (h.2 ▸ h.1) hmem⟩

theorem verifySignatures_preprepare {m : Preprepare P}
    (h : c.verifySignatures G (.preprepare m) = .ok m') :
    ∃ source ∈ c.valSet, ∃ rcs,
      (∀ p ∈ m.justificationRoundChanges, ∃ p', c.verifyRoundChangePayload G p = .ok p') ∧
      m' = .preprepare { m with source, justificationRoundChanges := rcs } := by
  obtain ⟨source, hsource, h⟩ := bind_eq_ok.mp h
  obtain ⟨rcs, hrcs, h⟩ := bind_eq_ok.mp h
  exact ⟨source, (verify_eq_ok_iff.mp hsource).1, rcs, exists_ok_of_mapM hrcs,
    (Except.ok.inj h).symm⟩

theorem verifySignatures_roundChange {m : RoundChange P}
    (h : c.verifySignatures G (.roundChange m) = .ok m') :
    ∃ source ∈ c.valSet, ∃ prepares, m' = .roundChange { m with source, justification := prepares } := by
  obtain ⟨source, hsource, h⟩ := bind_eq_ok.mp h
  obtain ⟨prepares, -, h⟩ := bind_eq_ok.mp h
  exact ⟨source, (verify_eq_ok_iff.mp hsource).1, prepares, (Except.ok.inj h).symm⟩

/-- What `verifySignatures` hands on comes from a validator. -/
theorem source_mem_of_verifySignatures (h : c.verifySignatures G m = .ok m') :
    m'.common.source ∈ c.valSet := by
  cases m with
  | preprepare m =>
    obtain ⟨source, hmem, rcs, -, rfl⟩ := verifySignatures_preprepare h
    exact hmem
  | roundChange m =>
    obtain ⟨source, hmem, prepares, rfl⟩ := verifySignatures_roundChange h
    exact hmem
  | prepare m =>
    obtain ⟨source, hsource, h⟩ := bind_eq_ok.mp h
    cases h
    exact (verify_eq_ok_iff.mp hsource).1
  | commit m =>
    obtain ⟨source, hsource, h⟩ := bind_eq_ok.mp h
    cases h
    exact (verify_eq_ok_iff.mp hsource).1

theorem checkMessage_view (hcode : code ≠ roundChangeCode) (h : c.checkMessage code view = none) :
    view = c.currentView := by
  unfold Core.checkMessage at h
  rw [if_neg hcode] at h
  split at h
  · cases h
  next hgt =>
    split at h
    · cases h
    next hlt => exact Ibft.View.eq_of_cmp hgt hlt

/-- The state in which a core handles a kind of message. -/
def codeState (code : ℕ) : Option State :=
  if code = preprepareCode then some .acceptRequest
  else if code = prepareCode then some .preprepared
  else if code = commitCode then some .prepared
  else none

theorem checkMessage_state {state : State} (hcode : codeState code = some state)
    (h : c.checkMessage code view = none) : c.state = state := by
  have hne : code ≠ roundChangeCode := by
    rintro rfl
    cases hcode
  unfold Core.checkMessage at h
  rw [if_neg hne] at h
  split at h
  · cases h
  split at h
  · cases h
  unfold codeState at hcode
  split at hcode
  next hpreprepare =>
    subst hpreprepare
    cases hcode
    cases hs : c.state <;> simp_all [preprepareCode, prepareCode, commitCode]
  split at hcode
  next hprepare =>
    subst hprepare
    cases hcode
    cases hs : c.state <;> simp_all [preprepareCode, prepareCode, commitCode]
  split at hcode
  next hcommit =>
    subst hcommit
    cases hcode
    cases hs : c.state <;> simp_all [preprepareCode, prepareCode, commitCode]
  · cases hcode

/-- A ROUND-CHANGE that a core handles is of the core's sequence and of no earlier round. -/
theorem checkMessage_roundChange (h : c.checkMessage roundChangeCode view = none) :
    view.sequence = c.current.sequence ∧ c.current.round ≤ view.round := by
  unfold Core.checkMessage at h
  rw [if_pos rfl] at h
  split at h
  · cases h
  next hfuture =>
    split at h
    · cases h
    next hold =>
      rw [Ibft.View.cmp_eq_lt_iff, Ibft.View.lt_iff] at hold
      simp only [Core.currentView] at hold
      omega

theorem one_le_quorum (hne : c.valSet ≠ []) : 1 ≤ c.quorum G := by
  have hpos := List.length_pos_iff.mpr hne
  have hfaulty := faulty_nonneg hne
  unfold Core.quorum quorumSize
  split <;> omega

/-! ## What an event brings -/

/-- The event brings a message that passes `checkMessage`. -/
def Core.Delivers (G : Config P) (c : Core P) (e : Event P) (m : Message P) : Prop :=
  c.brought G e = some m ∧ c.checkMessage m.code m.common.view = none

/-- A round change begins while the head of the chain is not the block before the core's sequence. -/
def Core.Strays (G : Config P) (c : Core P) (e : Event P) : Prop :=
  ¬ c.AtHead G e.backend ∧
    (e.input = .timeout ∨ ∃ m, c.Delivers G e (.roundChange m) ∧ (c.addRoundChange G m).Joins)

/-- A timeout takes the core to a round that is a multiple of `2 ^ 64`. -/
def Core.Wraps (G : Config P) (c : Core P) (e : Event P) : Prop :=
  e.input = .timeout ∧ c.AtHead G e.backend ∧ (c.current.round + 1) % 2 ^ 64 = 0

theorem receive_eq_ok {data : List ℕ} (h : c.receive G code data = .ok m) :
    ∃ m', decode G.blocks code data = .ok m' ∧ c.verifySignatures G m' = .ok m := by
  unfold Core.receive at h
  cases hdecode : decode G.blocks code data with
  | ok m' =>
    rw [hdecode] at h
    exact ⟨m', rfl, h⟩
  | error err =>
    rw [hdecode] at h
    cases err <;> cases h

theorem source_mem_of_posted {i : ℕ} (hcode : m.code ≠ preprepareCode) (h : c.posted i = some m) :
    m.common.source ∈ c.valSet := by
  unfold Core.posted at h
  split at h
  · cases h
    exact absurd rfl hcode
  · split at h
    next hfound =>
      cases h
      exact isSome_find?.mp hfound
    · cases h
  · cases h

theorem brought_eq_some (h : c.brought G e = some m) :
    (∃ code data, e.input = .message code data ∧ c.receive G code data = .ok m) ∨
      ∃ i, e.input = .backlog i ∧ c.posted i = some m := by
  unfold Core.brought at h
  split at h
  next code data hinput =>
    refine Or.inl ⟨code, data, hinput, ?_⟩
    cases hreceive : c.receive G code data with
    | ok m' =>
      rw [hreceive] at h
      exact congrArg Except.ok (Option.some.inj h)
    | error err =>
      rw [hreceive] at h
      cases h
  next i hinput => exact Or.inr ⟨i, hinput, h⟩
  next => cases h

/-- Messages come from validators, but for a PRE-PREPARE from the backlog. -/
theorem source_mem_of_brought (h : c.brought G e = some m) (hcode : m.code ≠ preprepareCode) :
    m.common.source ∈ c.valSet := by
  rcases brought_eq_some h with ⟨code, data, -, hreceive⟩ | ⟨i, -, hposted⟩
  · obtain ⟨m', -, hverify⟩ := receive_eq_ok hreceive
    exact source_mem_of_verifySignatures hverify
  · exact source_mem_of_posted hcode hposted

theorem handle_of_brought (h : c.brought G e = some m) :
    c.handle G e = c.handleDecodedMessage G e.backend m := by
  unfold Core.handle
  rcases brought_eq_some h with ⟨code, data, hinput, hreceive⟩ | ⟨i, hinput, hposted⟩
  · rw [hinput]
    simp only [Core.handleEncodedMsg, hreceive]
  · rw [hinput]
    simp only [hposted]

/-! ## Stages and moves -/

/-- A ROUND-CHANGE into the set, with what `handleRoundChange` takes from it. -/
def RoundChangeSet.file (rcs : RoundChangeSet P) (m : RoundChange P) (quorumSize : ℤ) :
    RoundChangeSet P :=
  rcs.add m.round m (Core.carried m).1 (Core.carried m).2.1 (Core.carried m).2.2 quorumSize

/-- The set with which `startNewRound` begins a round. -/
def RoundChangeSet.enter (rcs : RoundChangeSet P) (valSet : List Address) (target : UInt64) :
    RoundChangeSet P :=
  (if target = 0 then newRoundChangeSet valSet else rcs.clearLowerThan target).newRound target

/-- What the results read of a core. -/
structure Stage (P : Type) where
  view : View
  state : State
  valSet : List Address
  proposal : Option P
  prepares : List Prepare
  commits : List Commit
  preparedRound : Option ℕ
  preparedBlock : Option P
  roundChangeSet : RoundChangeSet P
  preparedPrepares : List Prepare

def Core.stage (c : Core P) : Stage P where
  view := c.currentView
  state := c.state
  valSet := c.valSet
  proposal := c.current.preprepare.map fun m => m.proposal
  prepares := c.current.prepares
  commits := c.current.commits
  preparedRound := c.current.preparedRound
  preparedBlock := c.current.preparedBlock
  roundChangeSet := c.roundChangeSet
  preparedPrepares := c.qbftPreparedPrepares

namespace Stage

variable (G : Config P) (b : Stage P)

def quorum : ℤ := quorumSize G.ceil2Nby3Block (some b.view.sequence) b.valSet

/-- The ROUND-CHANGE of a core at the stage, for a round. -/
def roundChange (round : ℕ) (signature : List ℕ) : RoundChange P where
  source := 0
  sequence := b.view.sequence
  round := round
  signature := signature
  preparedRound := b.preparedRound
  preparedDigest := (b.preparedBlock.map G.blocks.hash).getD zeroHash
  preparedBlock := b.preparedBlock
  justification := b.preparedPrepares

/-- A PREPARE or COMMIT of a digest is for the view and the proposal, from a validator. -/
structure Counts (p : P) (m : CommonPayload) (digest : Hash) : Prop where
  proposal : b.proposal = some p
  source : m.source ∈ b.valSet
  view : m.view = b.view
  digest : digest = G.blocks.hash p

/-- The stage with a PREPARE in its message set. -/
def count (m : Prepare) : Stage P :=
  { b with prepares := addMessage (fun p : Prepare => p.source) m b.prepares }

/-- The stage with a COMMIT in its message set. -/
def countCommit (m : Commit) : Stage P :=
  { b with commits := addMessage (fun m : Commit => m.source) m b.commits }

/-- The stage of a core in a new round. -/
def next (round : ℕ) : Stage P :=
  { b with
    view := ⟨b.view.sequence, round⟩
    state := .acceptRequest
    prepares := []
    commits := []
    preparedPrepares := if UInt64.ofNat round = 0 then [] else b.preparedPrepares
    roundChangeSet := b.roundChangeSet.enter b.valSet (.ofNat round) }

/-- The stage of a core in a new sequence, when the round it was to go to is the given one. -/
def advance (sequence : ℕ) (valSet : List Address) (target : UInt64) : Stage P where
  view := ⟨sequence, 0⟩
  state := .acceptRequest
  valSet := valSet
  proposal := none
  prepares := []
  commits := []
  preparedRound := none
  preparedBlock := none
  roundChangeSet := b.roundChangeSet.enter valSet target
  preparedPrepares := if target = 0 then [] else b.preparedPrepares

end Stage

/-- The filing of a validator's ROUND-CHANGE of the sequence for no earlier round, if any. -/
inductive Filed (G : Config P) (b : Stage P) : Stage P → Prop
  | none : Filed G b b
  | file (m : RoundChange P) (hsequence : m.sequence = b.view.sequence)
      (hround : b.view.round ≤ m.round) (hsource : m.source ∈ b.valSet) :
      Filed G b { b with roundChangeSet := b.roundChangeSet.file m (b.quorum G) }

/-- What a core can say in a turn besides a PRE-PREPARE. -/
inductive Vote where
  | prepare (digest : Hash)
  | commit (digest : Hash)
  | change (round : ℕ)

variable (G : Config P) (c : Core P) (e : Event P) (b : Stage P) in
/-- What else a handler can do in the core's turn: the stage it leaves, its vote and the proposal it
commits. -/
inductive Move : Stage P → Option Vote → Option P → Prop
  | quiet : Move b none none
  | accepted (m : Preprepare P) (hm : c.Delivers G e (.preprepare m))
      (haccept : (c.handlePreprepareMsg G e.backend m).err = none)
      (hstate : b.state = .acceptRequest) (hview : m.view = b.view) :
      Move { b with state := .preprepared, proposal := some m.proposal }
        (some (.prepare (G.blocks.hash m.proposal))) none
  | counted (p : P) (m : Prepare) (hm : c.Delivers G e (.prepare m)) (hstate : b.state = .preprepared)
      (hcounts : b.Counts G p m.toCommonPayload m.digest) :
      Move (b.count m) none none
  | prepared (p : P) (m : Prepare) (hm : c.Delivers G e (.prepare m))
      (hstate : b.state = .preprepared) (hcounts : b.Counts G p m.toCommonPayload m.digest)
      (hquorum : b.quorum G ≤ (b.count m).prepares.length) :
      Move { b.count m with
          state := .prepared
          preparedRound := some b.view.round
          preparedBlock := some p
          preparedPrepares := (b.count m).prepares }
        (some (.commit (G.blocks.hash p))) none
  | countedCommit (p : P) (m : Commit) (hm : c.Delivers G e (.commit m))
      (hstate : b.state = .prepared) (hcounts : b.Counts G p m.toCommonPayload m.digest) :
      Move (b.countCommit m) none none
  | committed (p : P) (m : Commit) (hm : c.Delivers G e (.commit m)) (hstate : b.state = .prepared)
      (hcounts : b.Counts G p m.toCommonPayload m.digest)
      (hquorum : b.quorum G ≤ (b.countCommit m).commits.length) :
      -- the ROUND-CHANGE is for a block that cannot be inserted
      Move { b.countCommit m with state := .committed }
        (if e.backend.commit p then none else some (.change (b.view.round + 1))) (some p)
  | entered (round : ℕ) (hlt : b.view.round < round) (hwraps : UInt64.ofNat round = 0 → c.Wraps G e) :
      Move (b.next round) (some (.change round)) none
  | sequence (sequence : ℕ) (hlt : b.view.sequence < sequence) :
      Move (b.advance sequence (e.backend.validators e.backend.lastProposal) 0) none none
  | strayed (sequence : ℕ) (target : UInt64) (round : ℕ) (hlt : b.view.sequence < sequence)
      (hstray : c.Strays G e) :
      Move (b.advance sequence (e.backend.validators e.backend.lastProposal) target)
        (some (.change round)) none
  | early (round : ℕ) (hstray : c.Strays G e) : Move b (some (.change round)) none

/-- A core announces the round it is in, unless a block could not be committed. -/
theorem Move.change_round {b b' : Stage P} {round : ℕ}
    (hmove : Move G c e b b' (some (.change round)) committed) (hstay : ¬ c.Strays G e)
    (hcommit : ∀ p, committed = some p → e.backend.commit p = true) : round = b'.view.round := by
  generalize hvote : some (Vote.change round) = vote at hmove
  cases hmove with
  | committed p =>
    rw [if_pos (hcommit p rfl)] at hvote
    cases hvote
  | entered r =>
    cases hvote
    rfl
  | strayed _ _ _ _ hstray => exact absurd hstray hstay
  | early _ hstray => exact absurd hstray hstay
  | _ => cases hvote

/-- A message is a PRE-PREPARE or the vote of a core at the stage. -/
inductive Voices (G : Config P) (b : Stage P) : Option Vote → Message P → Prop
  | preprepare {vote : Option Vote} (m : Preprepare P) : Voices G b vote (.preprepare m)
  | prepare {digest : Hash} (m : Prepare) (hview : m.view = b.view) (hdigest : m.digest = digest) :
      Voices G b (some (.prepare digest)) (.prepare m)
  | commit {digest : Hash} (m : Commit) (hview : m.view = b.view) (hdigest : m.digest = digest) :
      Voices G b (some (.commit digest)) (.commit m)
  | change (round : ℕ) (signature : List ℕ) :
      Voices G b (some (.change round)) (.roundChange (b.roundChange G round signature))

/-- What the handler broadcasts: one message at most, which voices the vote. -/
def Out.Says (G : Config P) (out : Out P) (vote : Option Vote) : Prop :=
  out.sent.length ≤ 1 ∧ ∀ m ∈ out.sent, Voices G out.core.stage vote m

/-- A handler's result is a move of a core in the turn of the first one. -/
def Out.Moves (G : Config P) (c : Core P) (e : Event P) (c' : Core P) (out : Out P) : Prop :=
  ∃ vote, Move G c e c'.stage out.core.stage vote out.committed ∧ out.Says G vote

/-! ### Every handler's result is a move -/

section Handlers

variable {c₀ : Core P} {vote : Option Vote} {B : Backend P}

theorem signed_eq_some (h : Core.signed G B message = some m) :
    ∃ signature, m = message signature := by
  obtain ⟨payload, -, h⟩ := Option.bind_eq_some_iff.mp h
  obtain ⟨bs, -, h⟩ := Option.bind_eq_some_iff.mp h
  exact ⟨_, (Option.some.inj h).symm⟩

theorem mem_signed_toList (h : m ∈ (Core.signed G B message).toList) :
    ∃ signature, m = message signature :=
  signed_eq_some (Option.mem_toList.mp h)

theorem says_nil : Out.Says G { core := c, committed, err } vote := ⟨Nat.zero_le 1, nofun⟩

/-- The broadcast of one signed message. -/
theorem says_signed (h : ∀ signature, Voices G c.stage vote (message signature)) :
    Out.Says G { core := c, sent := (Core.signed G B message).toList, committed, err } vote := by
  refine ⟨?_, fun m hm => ?_⟩
  · cases Core.signed G B message with
    | none => exact Nat.zero_le 1
    | some m => exact le_rfl
  · obtain ⟨signature, rfl⟩ := mem_signed_toList hm
    exact h signature

theorem says_broadcastRoundChange (round : ℤ) :
    Out.Says G { core := c, sent := c.broadcastRoundChange G B round, committed, err }
      (some (.change round.toNat)) := by
  unfold Core.broadcastRoundChange
  split
  · exact says_nil
  · exact says_signed fun signature => .change round.toNat signature

theorem moves_quiet (hstage : out.core.stage = c.stage) (hquiet : out.Says G none)
    (hnone : out.committed = none) : out.Moves G c₀ e c := by
  refine ⟨none, ?_, hquiet⟩
  rw [hstage, hnone]
  exact .quiet

theorem moves_self (c : Core P) (err : Option Err) : Out.Moves G c₀ e c { core := c, err } :=
  moves_quiet rfl says_nil rfl

theorem sendPreprepareMsg_spec (c : Core P) (p : P) (rcs : List SignedRoundChangePayload)
    (prepares : List Prepare) :
    (c.sendPreprepareMsg G B p rcs prepares).core.stage = c.stage ∧
      (c.sendPreprepareMsg G B p rcs prepares).committed = none ∧
      (c.sendPreprepareMsg G B p rcs prepares).sent.length ≤ 1 ∧
      ∀ m ∈ (c.sendPreprepareMsg G B p rcs prepares).sent, ∃ m', m = .preprepare m' ∧
        m'.proposal = p := by
  unfold Core.sendPreprepareMsg
  split
  · simp only
    split
    next m hm =>
      refine ⟨rfl, rfl, le_rfl, fun m' hm' => ?_⟩
      obtain ⟨signature, rfl⟩ := signed_eq_some hm
      exact ⟨_, List.mem_singleton.mp hm', rfl⟩
    · exact ⟨rfl, rfl, Nat.zero_le 1, nofun⟩
  · exact ⟨rfl, rfl, Nat.zero_le 1, nofun⟩

theorem sendPreprepareMsg_moves {c' : Core P} (p : P) (rcs : List SignedRoundChangePayload)
    (prepares : List Prepare) (hstage : c'.stage = c.stage) :
    (c'.sendPreprepareMsg G B p rcs prepares).Moves G c₀ e c := by
  obtain ⟨hsame, hnone, hlength, hsent⟩ := sendPreprepareMsg_spec (G := G) (B := B) c' p rcs prepares
  refine moves_quiet (hsame.trans hstage) ⟨hlength, fun m hm => ?_⟩ hnone
  obtain ⟨m', rfl, -⟩ := hsent m hm
  exact .preprepare m'

/-- The core accepts a PRE-PREPARE that is justified, or keeps its stage. -/
theorem handlePreprepareMsg_cases (hstate : c.state = .acceptRequest) (m : Preprepare P) :
    (c.handlePreprepareMsg G B m).err = none ∧ c.justifies G m = true ∧
        c.handlePreprepareMsg G B m =
          { core :=
              { c with current := { c.current with preprepare := some m }, state := .preprepared }
            sent := c.broadcastPrepare G B m.proposal } ∨
      (c.handlePreprepareMsg G B m).err ≠ none ∧
        (c.handlePreprepareMsg G B m).core.stage = c.stage ∧
        (c.handlePreprepareMsg G B m).sent = [] ∧ (c.handlePreprepareMsg G B m).committed = none := by
  unfold Core.handlePreprepareMsg
  split
  · exact Or.inr ⟨nofun, rfl, rfl, rfl⟩
  split
  · exact Or.inr ⟨nofun, rfl, rfl, rfl⟩
  next hjustifies =>
    cases B.verify m.proposal with
    | future => exact Or.inr ⟨nofun, rfl, rfl, rfl⟩
    | invalid => exact Or.inr ⟨nofun, rfl, rfl, rfl⟩
    | ok => exact Or.inl ⟨rfl, by simpa using hjustifies, rfl⟩

theorem handlePreprepareMsg_moves {m : Preprepare P} (hm : c.Delivers G e (.preprepare m)) :
    (c.handlePreprepareMsg G e.backend m).Moves G c e c := by
  have hstate : c.state = .acceptRequest := checkMessage_state rfl hm.2
  have hview : m.view = c.currentView :=
    checkMessage_view (show preprepareCode ≠ roundChangeCode by decide) hm.2
  rcases handlePreprepareMsg_cases (G := G) (B := e.backend) hstate m with
    ⟨haccept, -, heq⟩ | ⟨-, hstage, hsent, hnone⟩
  · refine ⟨some (.prepare (G.blocks.hash m.proposal)), ?_, ?_⟩
    · rw [heq]
      exact .accepted m hm haccept hstate hview
    · rw [heq]
      exact says_signed fun signature => .prepare _ rfl rfl
  · exact moves_quiet hstage ⟨by rw [hsent]; exact Nat.zero_le 1, by rw [hsent]; exact nofun⟩ hnone

/-- A vote that a core counts. -/
theorem counts_of_delivers {preprepare : Preprepare P} {digest : Hash} (hm : c.Delivers G e m)
    (hcode : m.code ≠ roundChangeCode ∧ m.code ≠ preprepareCode)
    (hpreprepare : c.current.preprepare = some preprepare)
    (hdigest : ¬ digest ≠ G.blocks.hash preprepare.proposal) :
    c.stage.Counts G preprepare.proposal m.common digest where
  proposal := by simp only [Core.stage, hpreprepare, Option.map_some]
  source := source_mem_of_brought hm.1 hcode.2
  view := checkMessage_view hcode.1 hm.2
  digest := not_not.mp hdigest

theorem handlePrepare_moves {m : Prepare} (hm : c.Delivers G e (.prepare m))
    (h : c.handlePrepare G e.backend m = some out) : out.Moves G c e c := by
  have hstate : c.state = .preprepared := checkMessage_state rfl hm.2
  unfold Core.handlePrepare at h
  split at h
  · cases h
  next preprepare hpreprepare =>
    split at h
    · cases h
      exact moves_self c _
    next hdigest =>
      have hcounts : c.stage.Counts G preprepare.proposal m.toCommonPayload m.digest :=
        counts_of_delivers hm ⟨nofun, nofun⟩ hpreprepare hdigest
      simp only at h
      split at h
      next hquorum =>
        cases h
        exact ⟨_, .prepared preprepare.proposal m hm hstate hcounts hquorum.1,
          says_signed fun signature => .commit _ rfl rfl⟩
      · cases h
        exact ⟨_, .counted preprepare.proposal m hm hstate hcounts, says_nil⟩

theorem handleCommitMsg_moves {m : Commit} (hm : c.Delivers G e (.commit m))
    (h : c.handleCommitMsg G e.backend m = some out) : out.Moves G c e c := by
  have hstate : c.state = .prepared := checkMessage_state rfl hm.2
  unfold Core.handleCommitMsg at h
  split at h
  · cases h
  next preprepare hpreprepare =>
    split at h
    · cases h
      exact moves_self c _
    next hdigest =>
      have hcounts : c.stage.Counts G preprepare.proposal m.toCommonPayload m.digest :=
        counts_of_delivers hm ⟨nofun, nofun⟩ hpreprepare hdigest
      simp only at h
      split at h
      next hquorum =>
        cases h
        refine ⟨_, .committed preprepare.proposal m hm hstate hcounts hquorum, ?_⟩
        unfold Core.commitQBFT
        split
        · exact says_nil
        · exact says_broadcastRoundChange (c.current.round + 1)
      · cases h
        exact ⟨_, .countedCommit preprepare.proposal m hm hstate hcounts, says_nil⟩

/-! ### Rounds -/

/-- A core at the head of its chain enters a later round. -/
theorem stage_startNewRound (hhead : c.AtHead G B) (hlt : c.current.round < round) :
    (c.startNewRound G B round).stage = c.stage.next round.toNat := by
  unfold Core.startNewRound
  rw [if_neg (not_le.mpr hhead.1), if_pos hhead.2, if_neg (by omega), if_neg (by omega)]
  unfold Core.enterRound
  rw [show round.natAbs = round.toNat by omega]
  rfl

/-- A core behind its chain begins the sequence after the chain's last block. -/
theorem stage_startNewRound_behind (hle : c.current.sequence ≤ G.number B.lastProposal) :
    (c.startNewRound G B round).stage =
      c.stage.advance (G.number B.lastProposal + 1) (B.validators B.lastProposal)
        (.ofNat round.natAbs) := by
  unfold Core.startNewRound
  rw [if_pos hle]
  rfl

/-- A core is told to go to a round, and announces it. -/
def Core.toRound (G : Config P) (B : Backend P) (c : Core P) (round : ℤ) : Out P where
  core := c.startNewRound G B round
  sent := (c.startNewRound G B round).broadcastRoundChange G B round

/-- A core that is told to go to another round enters a later one, or stays where it is, or begins a new
sequence. -/
theorem toRound_moves (hne : round ≠ c.current.round)
    (hstray : ¬ c.AtHead G e.backend → c₀.Strays G e)
    (hwraps : c.AtHead G e.backend → c.current.round < round → UInt64.ofNat round.toNat = 0 →
      c₀.Wraps G e) :
    (c.toRound G e.backend round).Moves G c₀ e c := by
  have hchange : (c.toRound G e.backend round).Says G (some (.change round.toNat)) :=
    says_broadcastRoundChange round
  by_cases hle : c.current.sequence ≤ G.number e.backend.lastProposal
  · refine ⟨_, ?_, hchange⟩
    show Move G c₀ e c.stage (c.startNewRound G e.backend round).stage _ none
    rw [stage_startNewRound_behind hle]
    exact .strayed _ _ _ (Nat.lt_succ_of_le hle) (hstray fun h => absurd h.1 (not_lt.mpr hle))
  by_cases hhead : c.AtHead G e.backend ∧ c.current.round < round
  · refine ⟨_, ?_, hchange⟩
    show Move G c₀ e c.stage (c.startNewRound G e.backend round).stage _ none
    rw [stage_startNewRound hhead.1 hhead.2]
    exact .entered _ (show c.current.round < round.toNat by omega) (hwraps hhead.1 hhead.2)
  have hstay : c.startNewRound G e.backend round = c := by
    unfold Core.startNewRound
    rw [if_neg hle]
    split
    next hat =>
      rw [if_pos (lt_of_le_of_ne (not_lt.mp fun hlt => hhead ⟨⟨not_le.mp hle, hat⟩, hlt⟩) hne), ite_self]
    · rfl
  by_cases hearlier : round < c.current.round
  · have hsent : (c.toRound G e.backend round).sent = [] := by
      rw [Core.toRound, hstay, Core.broadcastRoundChange, if_pos hearlier]
    exact moves_quiet (congrArg Core.stage hstay)
      ⟨by rw [hsent]; exact Nat.zero_le 1, by rw [hsent]; exact nofun⟩ rfl
  · refine ⟨_, ?_, hchange⟩
    show Move G c₀ e c.stage (c.startNewRound G e.backend round).stage _ none
    rw [hstay]
    exact .early _ (hstray fun h => hhead ⟨h, by omega⟩)

theorem handleFinalCommitted_moves (c : Core P) :
    (c.handleFinalCommitted G e.backend).Moves G c₀ e c := by
  refine ⟨none, ?_, says_nil⟩
  unfold Core.handleFinalCommitted
  by_cases hle : c.current.sequence ≤ G.number e.backend.lastProposal
  · rw [stage_startNewRound_behind hle]
    exact .sequence _ (Nat.lt_succ_of_le hle)
  · have hstay : c.startNewRound G e.backend 0 = c := by
      unfold Core.startNewRound
      rw [if_neg hle, if_pos rfl, ite_self]
    rw [hstay]
    exact .quiet

theorem handleRequest_moves (c : Core P) (p : P) : (c.handleRequest G B p).Moves G c₀ e c := by
  unfold Core.handleRequest
  split
  · simp only
    split
    · exact sendPreprepareMsg_moves p [] [] rfl
    · exact moves_quiet rfl says_nil rfl
  · exact moves_self c none

theorem proposeRound_moves (h : c.proposeRound G B = some out) : out.Moves G c₀ e c := by
  unfold Core.proposeRound at h
  split at h
  · simp only at h
    split at h
    · cases h
      exact sendPreprepareMsg_moves _ _ _ rfl
    · cases h
      exact moves_self c none
  · cases h

/-- The `int` of a key above a round is another round, and not zero, whichever way it is read. -/
theorem int64_ne_of_lt {round : ℕ} {k : UInt64} (hlt : UInt64.ofNat round < k) :
    UInt64.ofNat (Vm.int64 k.toNat).natAbs ≠ 0 ∧ Vm.int64 k.toNat ≠ round := by
  have hlt : round % 2 ^ 64 < k.toNat := by
    have h := UInt64.lt_iff_toNat_lt.mp hlt
    rwa [UInt64.toNat_ofNat'] at h
  have hk := k.toNat_lt
  have hcases : Vm.int64 k.toNat = k.toNat ∧ k.toNat < 2 ^ 63 ∨
      Vm.int64 k.toNat = k.toNat - 2 ^ 64 ∧ 2 ^ 63 ≤ k.toNat := by
    rw [Vm.int64, Int.bmod_def]
    split <;> omega
  refine ⟨fun hzero => ?_, by omega⟩
  have hzero : (Vm.int64 k.toNat).natAbs % 2 ^ 64 = 0 := by
    have h := congrArg UInt64.toNat hzero
    rwa [UInt64.toNat_ofNat'] at h
  omega

/-- The least of the keys above a round, as an `int`, is one of them. -/
theorem exists_least_key {α : Type} {sets : List (UInt64 × α)} {round : ℕ}
    (hsome : sets.filter (fun r => UInt64.ofNat round < r.1) ≠ []) :
    ∃ k, UInt64.ofNat round < k ∧ ((sets.filter fun r => UInt64.ofNat round < r.1).map fun r =>
      Vm.int64 r.1.toNat).min?.getD round = Vm.int64 k.toNat := by
  cases hmin : ((sets.filter fun r => UInt64.ofNat round < r.1).map fun r =>
      Vm.int64 r.1.toNat).min? with
  | none => exact absurd (List.map_eq_nil_iff.mp (List.min?_eq_none_iff.mp hmin)) hsome
  | some least =>
    obtain ⟨r, hr, hleast⟩ := List.mem_map.mp (List.min?_mem hmin)
    have hlt : UInt64.ofNat round < r.1 := by
      simpa only [decide_eq_true_eq] using List.of_mem_filter hr
    exact ⟨r.1, hlt, hleast.symm⟩

/-- With a message set for a higher round, the least such round is one of the keys. -/
theorem getMinRoundChange_eq {rcs : RoundChangeSet P} {round : ℕ}
    (hpos : 0 < rcs.higherRoundMessages round) :
    ∃ k, UInt64.ofNat round < k ∧ rcs.getMinRoundChange round = Vm.int64 k.toNat := by
  refine exists_least_key fun hnil => ?_
  simp [RoundChangeSet.higherRoundMessages, hnil] at hpos

/-- The round that a core joins is neither its own nor, for the source, round zero. -/
theorem Core.Joins.ne (hne : c.valSet ≠ []) (hjoins : c.Joins) :
    UInt64.ofNat (c.roundChangeSet.getMinRoundChange c.current.round).natAbs ≠ 0 ∧
      c.roundChangeSet.getMinRoundChange c.current.round ≠ c.current.round := by
  have hfaulty := faulty_nonneg hne
  unfold Core.Joins at hjoins
  obtain ⟨k, hlt, hmin⟩ := getMinRoundChange_eq
    (show 0 < c.roundChangeSet.higherRoundMessages c.current.round by omega)
  rw [hmin]
  exact int64_ne_of_lt hlt

theorem countRoundChange_moves (hne : c.valSet ≠ [])
    (hstray : c.Joins → ¬ c.AtHead G e.backend → c₀.Strays G e)
    (h : c.countRoundChange G e.backend = some out) : out.Moves G c₀ e c := by
  unfold Core.countRoundChange at h
  split at h
  next hjoins =>
    obtain ⟨hnonzero, hother⟩ := hjoins.ne hne
    cases h
    refine toRound_moves hother (hstray hjoins) fun _ hlater hzero => absurd ?_ hnonzero
    rwa [show ∀ r : ℤ, c.current.round < r → r.natAbs = r.toNat by omega, hzero]
  next hjoins =>
    split at h
    · exact proposeRound_moves h
    · cases h
      exact moves_self c none

end Handlers

/-! ## Turns of the event loop -/

/-- The filing of a ROUND-CHANGE that a core handles. -/
theorem filed_addRoundChange {m : RoundChange P} (hsource : m.source ∈ c.valSet)
    (hcheck : c.checkMessage roundChangeCode m.view = none) :
    Filed G c.stage (c.addRoundChange G m).stage := by
  obtain ⟨hsequence, hround⟩ := checkMessage_roundChange hcheck
  unfold Core.addRoundChange
  rw [if_pos (show c.current.round ≤ m.round from hround)]
  exact .file m hsequence hround hsource

theorem valSet_addRoundChange (m : RoundChange P) : (c.addRoundChange G m).valSet = c.valSet := by
  unfold Core.addRoundChange
  split <;> rfl

theorem current_addRoundChange (m : RoundChange P) : (c.addRoundChange G m).current = c.current := by
  unfold Core.addRoundChange
  split <;> rfl

theorem atHead_addRoundChange {B : Backend P} (m : RoundChange P) :
    (c.addRoundChange G m).AtHead G B ↔ c.AtHead G B := by
  unfold Core.AtHead
  rw [current_addRoundChange]

/-- A handler's result in a core's turn: a move from the stage with the ROUND-CHANGE filed that it
handles. -/
def Out.Turns (G : Config P) (c : Core P) (e : Event P) (out : Out P) : Prop :=
  ∃ c' : Core P, Filed G c.stage c'.stage ∧ out.Moves G c e c'

theorem Out.Moves.turns (h : out.Moves G c e c) : out.Turns G c e := ⟨c, .none, h⟩

theorem deliverMessage_turns (h : c.Delivers G e m)
    (hout : c.deliverMessage G e.backend m = some out) : out.Turns G c e := by
  cases m with
  | preprepare m =>
    cases hout
    exact (handlePreprepareMsg_moves h).turns
  | prepare m => exact (handlePrepare_moves h hout).turns
  | commit m => exact (handleCommitMsg_moves h hout).turns
  | roundChange m =>
    have hsource : m.source ∈ c.valSet :=
      source_mem_of_brought h.1 (show roundChangeCode ≠ preprepareCode by decide)
    refine ⟨_, filed_addRoundChange hsource h.2, countRoundChange_moves ?_ ?_ hout⟩
    · rw [valSet_addRoundChange]
      exact List.ne_nil_of_mem hsource
    · intro hjoins haway
      rw [atHead_addRoundChange] at haway
      exact ⟨haway, Or.inr ⟨m, h, hjoins⟩⟩

theorem handleDecodedMessage_turns (h : c.brought G e = some m)
    (hout : c.handleDecodedMessage G e.backend m = some out) : out.Turns G c e := by
  unfold Core.handleDecodedMessage at hout
  split at hout
  next hcheck => exact deliverMessage_turns ⟨h, hcheck⟩ hout
  · cases hout
    apply Out.Moves.turns
    unfold Core.addToBacklog
    split
    · exact moves_self c _
    · exact moves_quiet rfl says_nil rfl
  · cases hout
    exact (moves_self c _).turns

/-- What a turn of the event loop can do. -/
theorem handle_turns (h : c.handle G e = some out) : out.Turns G c e := by
  cases hbrought : c.brought G e with
  | some m =>
    rw [handle_of_brought hbrought] at h
    exact handleDecodedMessage_turns hbrought h
  | none =>
    apply Out.Moves.turns
    cases hinput : e.input with
    | request p =>
      simp only [Core.handle, hinput, Option.some.injEq] at h
      exact h ▸ handleRequest_moves c p
    | message code data =>
      simp only [Core.brought, hinput] at hbrought
      cases hreceive : c.receive G code data with
      | ok m =>
        rw [hreceive] at hbrought
        cases hbrought
      | error err =>
        simp only [Core.handle, hinput, Core.handleEncodedMsg, hreceive, Option.some.injEq] at h
        exact h ▸ moves_self c _
    | backlog i =>
      simp only [Core.brought, hinput] at hbrought
      simp only [Core.handle, hinput, hbrought, Option.some.injEq] at h
      exact h ▸ moves_self c _
    | timeout =>
      simp only [Core.handle, hinput, Option.some.injEq] at h
      rw [← h]
      refine toRound_moves (by omega) (fun haway => ⟨haway, Or.inl hinput⟩) fun hhead _ hzero => ?_
      refine ⟨hinput, hhead, ?_⟩
      have hzero := congrArg UInt64.toNat hzero
      rwa [UInt64.toNat_ofNat'] at hzero
    | finalCommitted =>
      simp only [Core.handle, hinput, Option.some.injEq] at h
      exact h ▸ handleFinalCommitted_moves c

end Wormholes.Consensus.Qbft.Node
