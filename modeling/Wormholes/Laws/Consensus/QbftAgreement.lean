import Wormholes.Consensus.QbftNetwork
import Wormholes.Laws.Consensus.IbftNetwork
import Wormholes.Laws.Consensus.QbftEvidence
import Wormholes.Laws.Consensus.QbftPrepared
import Wormholes.Lib.Rounds

/-!
# Laws.Consensus.QbftAgreement — agreement of the QBFT cores

What the signed parts of messages say is a log in the sense of `Lib.Rounds`. A core's turn is a move of
`Laws.Consensus.QbftNode`, and the log of what honest cores sign is orderly: a core prepares one proposal
of a round, commits to a proposal that a quorum prepared, and its ROUND-CHANGE messages carry the last
round it prepared. Agreement is then that of `Lib.Rounds`.

It is not so in every run. `isJustified` compares neither the sources of the ROUND-CHANGE payloads and
PREPARE messages of a PRE-PREPARE nor their sequences nor the payloads' rounds, and nobody verifies the
signatures of those PREPARE messages. And a core whose chain has caught up with its sequence announces
a round of the next sequence that it has not entered. `qbft_agreement` is about the runs in which
neither matters; the last section has a run with each.
-/

namespace Wormholes.Consensus.Qbft

open Lib Common Node
open Rlp (asNat)
open Ibft (View Verdict Blocks Commitment)

variable {P : Type} {N : Network P} {byzantine : Finset Address} {w : World N}
variable {a : Address} {n : Note ℕ Hash} {p : P}

/-! ## The log -/

/-- The note a signed part is, if it is a vote. -/
def Signed.note (s : Signed P) : Option (Note ℕ Hash) :=
  match s.content with
  | .preprepare _ => none
  | .prepare digest => some (.prepare s.view.sequence s.view.round digest)
  | .commit digest _ => some (.commit s.view.sequence s.view.round digest)
  | .roundChange prepared => some (.change s.view.sequence s.view.round prepared)

/-- The votes among signed parts. -/
def logOf (signed : List (Address × Signed P)) : Log Address ℕ Hash :=
  signed.filterMap fun x => x.2.note.map (Prod.mk x.1)

def World.log (w : World N) : Log Address ℕ Hash := logOf w.signed

theorem mem_logOf {signed : List (Address × Signed P)} {s : Signed P} (hmem : (a, s) ∈ signed)
    (hn : s.note = some n) : (a, n) ∈ logOf signed := by
  apply List.mem_filterMap.mpr
  exact ⟨(a, s), hmem, by rw [hn]; rfl⟩

/-- The notes of the messages a core sends. -/
def notesOf (sent : List (Message P)) : List (Note ℕ Hash) := sent.filterMap fun m => m.signed.note

theorem log_perform (w : World N) (a : Address) (out : Out P) :
    (w.perform a out).log = (notesOf out.sent).map (Prod.mk a) ++ w.log := by
  have hnew : logOf (out.sent.map fun m => (a, m.signed)) =
      (notesOf out.sent).map (Prod.mk a) := by
    rw [logOf, List.filterMap_map, notesOf, List.map_filterMap]
    rfl
  rw [World.log, World.log, World.perform, logOf, List.filterMap_append, ← hnew]
  rfl

/-! ## The log is orderly -/

/-- The last prepared round and digest of a core, as its ROUND-CHANGE messages have them. -/
def Node.Stage.last (G : Config P) (b : Stage P) : Option (ℕ × Hash) := (b.roundChange G 0 []).prepared

/-- The note of a vote at a stage. -/
def Node.Vote.note (G : Config P) (b : Stage P) : Vote → Note ℕ Hash
  | .prepare digest => .prepare b.view.sequence b.view.round digest
  | .commit digest => .commit b.view.sequence b.view.round digest
  | .change round => .change b.view.sequence round (b.last G)

theorem Node.Voices.note {G : Config P} {b : Stage P} {vote : Option Vote} {m : Message P}
    (h : Voices G b vote m) (hn : m.signed.note = some n) : ∃ v, vote = some v ∧ n = v.note G b := by
  cases h with
  | preprepare => cases hn
  | prepare m hview hdigest =>
    cases hn
    refine ⟨_, rfl, ?_⟩
    rw [Vote.note, ← hview, ← hdigest]
    rfl
  | commit m hview hdigest =>
    cases hn
    refine ⟨_, rfl, ?_⟩
    rw [Vote.note, ← hview, ← hdigest]
    rfl
  | change round signature =>
    cases hn
    exact ⟨_, rfl, rfl⟩

/-- A core's stage against the log: it has said nothing of a later view, it prepares a proposal of
its view once, its last prepared round covers its COMMIT messages, and what it counts was signed. -/
structure Node.Stage.Honors (N : Network P) (log : Log Address ℕ Hash) (a : Address) (b : Stage P) :
    Prop extends b.Tallied N.config where
  validators : b.valSet = N.validators
  bounded : ∀ n, (a, n) ∈ log →
    n.slot < b.view.sequence ∨ n.slot = b.view.sequence ∧ n.round ≤ b.view.round
  unprepared : b.state = .acceptRequest →
    ∀ d, (a, .prepare b.view.sequence b.view.round d) ∉ log
  carried : ∀ r d, (a, .commit b.view.sequence r d) ∈ log →
    ∃ l d', b.last N.config = some (l, d') ∧ r ≤ l
  prepares_signed : ∀ m ∈ b.prepares, (m.source, .prepare m.sequence m.round m.digest) ∈ log
  commits_signed : ∀ m ∈ b.commits, (m.source, .commit m.sequence m.round m.digest) ∈ log

/-- Enough validators for a quorum said what the note is, the Byzantine ones aside. -/
def Said (N : Network P) (byzantine : Finset Address) (log : Log Address ℕ Hash) (n : Note ℕ Hash) :
    Prop :=
  Many N.validators.toFinset byzantine N.quorumSize fun u => (u, n) ∈ log

section Moves

variable {log : Log Address ℕ Hash} {b b' : Stage P} {c : Core P} {e : Node.Event P}
  {vote : Option Vote} {v : Vote} {committed : Option P}

theorem quorum_stage (b : Stage P) :
    b.quorum N.config = ((2 * b.valSet.length + 2) / 3 : ℕ) := by
  simp [Stage.quorum, Consensus.quorumSize, beforeCeil2Nby3, Network.config]

/-- A quorum whose messages are counted has said what they are counted for. -/
theorem said_of_ballots {M : Type} {payload : M → CommonPayload} {digest : M → Hash} {ms : List M}
    (h : Ballots payload digest b.valSet b.view (b.proposal.map N.config.blocks.hash) ms)
    (hvalidators : b.valSet = N.validators) (hp : b.proposal = some p)
    (hquorum : b.quorum N.config ≤ ms.length)
    (hsigned : ∀ m ∈ ms, (payload m).view = b.view → digest m = N.blocks.hash p →
      ((payload m).source, n) ∈ log) :
    Said N byzantine log n := by
  have hall : ∀ u ∈ (ms.map fun m => (payload m).source).toFinset, u ∈ N.validators ∧ (u, n) ∈ log := by
    intro u hu
    obtain ⟨m, hm, rfl⟩ := List.mem_map.mp (List.mem_toFinset.mp hu)
    obtain ⟨hsource, hview, hdigest⟩ := h.vote m hm
    rw [hp] at hdigest
    exact ⟨hvalidators ▸ hsource, hsigned m hm hview (Option.some.inj hdigest).symm⟩
  refine ⟨_, fun u hu => List.mem_toFinset.mpr (hall u hu).1, ?_, fun u hu _ => (hall u hu).2⟩
  rw [quorum_stage, hvalidators] at hquorum
  rw [List.toFinset_card_of_nodup h.distinct, List.length_map]
  exact Int.ofNat_le.mp hquorum

/-- The core has said nothing of a later view. -/
theorem Node.Stage.Honors.silent (h : b.Honors N log a) (hn : (a, n) ∈ log)
    (hlater : b.view.sequence < n.slot ∨ n.slot = b.view.sequence ∧ b.view.round < n.round) :
    False := by
  rcases h.bounded n hn with hlt | ⟨heq, hle⟩
  · omega
  · omega

theorem Node.Stage.Honors.mono {log' : Log Address ℕ Hash} (h : b.Honors N log a)
    (hown : ∀ n, (a, n) ∈ log' → (a, n) ∈ log) (hsub : log ⊆ log') : b.Honors N log' a :=
  { h with
    bounded := fun n hn => h.bounded n (hown n hn)
    unprepared := fun hstate d hd => h.unprepared hstate d (hown _ hd)
    carried := fun r d hd => h.carried r d (hown _ hd)
    prepares_signed := fun m hm => hsub (h.prepares_signed m hm)
    commits_signed := fun m hm => hsub (h.commits_signed m hm) }

/-- The stage of a later sequence, of which nothing was said. -/
theorem Node.Stage.Honors.advance {sequence : ℕ} {valSet : List Address} {target : UInt64}
    (h : b.Honors N log a) (hlt : b.view.sequence < sequence) (hvalidators : valSet = N.validators) :
    (b.advance sequence valSet target).Honors N log a := by
  refine ⟨tallied_of_nil rfl rfl, hvalidators, fun n hn => Or.inl ?_, fun _ d hd => h.silent hd (.inl hlt),
    fun r d hd => (h.silent hd (.inl hlt)).elim, nofun, nofun⟩
  rcases h.bounded n hn with hless | ⟨heq, -⟩
  · exact hless.trans hlt
  · exact heq ▸ hlt

theorem Node.Filed.view {G : Config P} (hfiled : Filed G b b') : b'.view = b.view := by
  cases hfiled <;> rfl

theorem Node.Filed.honors (hfiled : Filed N.config b b') (h : b.Honors N log a) :
    b'.Honors N log a := by
  cases hfiled with
  | none => exact h
  | file m => exact { h with }

/-- What reaches the core is in the log. -/
def Hears (N : Network P) (log : Log Address ℕ Hash) (c : Core P) (e : Node.Event P) : Prop :=
  ∀ m n, c.Delivers N.config e m → m.signed.note = some n → (m.common.source, n) ∈ log

/-- A move leaves a stage that is right for the same log. -/
theorem Node.Move.honors (hmove : Move N.config c e b b' vote committed) (h : b.Honors N log a)
    (hheard : Hears N log c e) (hvalidators : ∀ p, e.backend.validators p = N.validators) :
    b'.Honors N log a := by
  have htallied := hmove.tallied h.toTallied
  cases hmove with
  | quiet => exact h
  | accepted m hm haccept hstate hview =>
    exact ⟨htallied, h.validators, h.bounded, nofun, h.carried, h.prepares_signed, h.commits_signed⟩
  | counted p m hm hstate hcounts =>
    refine ⟨htallied, h.validators, h.bounded, h.unprepared, h.carried, fun m' hm' => ?_,
      h.commits_signed⟩
    rcases mem_addMessage.mp hm' with rfl | ⟨hold, -⟩
    · exact hheard _ _ hm rfl
    · exact h.prepares_signed m' hold
  | prepared p m hm hstate hcounts hquorum =>
    refine ⟨htallied, h.validators, h.bounded, nofun, fun r d hcommit => ?_, fun m' hm' => ?_,
      h.commits_signed⟩
    · refine ⟨b.view.round, N.blocks.hash p, ?_, ?_⟩
      · exact if_neg (N.config.hash_ne_zero p)
      · rcases h.bounded _ hcommit with hlt | hle
        · exact absurd hlt (lt_irrefl _)
        · exact hle.2
    · rcases mem_addMessage.mp hm' with rfl | ⟨hold, -⟩
      · exact hheard _ _ hm rfl
      · exact h.prepares_signed m' hold
  | countedCommit p m hm hstate hcounts =>
    refine ⟨htallied, h.validators, h.bounded, h.unprepared, h.carried, h.prepares_signed,
      fun m' hm' => ?_⟩
    rcases mem_addMessage.mp hm' with rfl | ⟨hold, -⟩
    · exact hheard _ _ hm rfl
    · exact h.commits_signed m' hold
  | committed p m hm hstate hcounts hquorum =>
    refine ⟨htallied, h.validators, h.bounded, nofun, h.carried, h.prepares_signed, fun m' hm' => ?_⟩
    rcases mem_addMessage.mp hm' with rfl | ⟨hold, -⟩
    · exact hheard _ _ hm rfl
    · exact h.commits_signed m' hold
  | entered round hlt hwraps =>
    refine ⟨htallied, h.validators, fun n hn => ?_, fun _ d hd => ?_, h.carried, nofun, nofun⟩
    · exact (h.bounded n hn).imp_right fun hle => ⟨hle.1, hle.2.trans hlt.le⟩
    · exact h.silent hd (.inr ⟨rfl, hlt⟩)
  | sequence sequence hlt => exact h.advance hlt (hvalidators _)
  | strayed sequence target round hlt hstray => exact h.advance hlt (hvalidators _)
  | early => exact h

/-- A vote agrees with the stage after it. -/
def Node.Vote.Fits (G : Config P) (b : Stage P) : Vote → Prop
  | .prepare _ => b.state ≠ .acceptRequest
  | .commit _ => ∃ d, b.last G = some (b.view.round, d)
  | .change round => round = b.view.round

/-- A vote of a stage's own view keeps the stage right for the longer log. -/
theorem Node.Stage.Honors.cons (h : b.Honors N log a) (hfits : v.Fits N.config b) :
    b.Honors N ((a, v.note N.config b) :: log) a := by
  have hcons : ∀ {n}, (a, n) ∈ (a, v.note N.config b) :: log →
      n = v.note N.config b ∨ (a, n) ∈ log := by
    intro n hn
    exact (List.mem_cons.mp hn).imp_left fun heq => (Prod.mk.inj heq).2
  refine
    { h with
      bounded := fun n hn => ?_, unprepared := fun hstate d hd => ?_, carried := fun r d hd => ?_
      prepares_signed := fun m hm => List.mem_cons_of_mem _ (h.prepares_signed m hm)
      commits_signed := fun m hm => List.mem_cons_of_mem _ (h.commits_signed m hm) }
  · rcases hcons hn with rfl | hold
    · cases v with
      | prepare => exact .inr ⟨rfl, le_rfl⟩
      | commit => exact .inr ⟨rfl, le_rfl⟩
      | change => exact .inr ⟨rfl, hfits.le⟩
    · exact h.bounded n hold
  · rcases hcons hd with heq | hold
    · cases v with
      | prepare => exact hfits hstate
      | commit => cases heq
      | change => cases heq
    · exact h.unprepared hstate d hold
  · rcases hcons hd with heq | hold
    · cases v with
      | prepare => cases heq
      | commit =>
        cases heq
        obtain ⟨d', hlast⟩ := hfits
        exact ⟨_, d', hlast, le_rfl⟩
      | change => cases heq
    · exact h.carried r d hold

/-- The core accepts the PRE-PREPARE that an event brings. -/
def Node.Core.Accepts (G : Config P) (c : Core P) (e : Node.Event P) (m : Preprepare P) : Prop :=
  c.Delivers G e (.preprepare m) ∧ (c.handlePreprepareMsg G e.backend m).err = none

/-- The log justifies what the core accepts in a later round. -/
def Justifies (N : Network P) (byzantine : Finset Address) (log : Log Address ℕ Hash) (c : Core P)
    (e : Node.Event P) : Prop :=
  ∀ m, c.Accepts N.config e m → m.round ≠ 0 →
    Justified N.validators.toFinset byzantine N.quorumSize log m.sequence m.round
      (N.blocks.hash m.proposal)

/-- A vote is admissible, and agrees with the stage if it announces the core's own round. -/
theorem Node.Move.admissible (hmove : Move N.config c e b b' (some v) committed)
    (h : b.Honors N log a) (h' : b'.Honors N log a) (hjust : Justifies N byzantine log c e)
    (hcommit : ∀ p, e.backend.commit p = true) :
    Admissible N.validators.toFinset byzantine N.quorumSize log a (v.note N.config b') ∧
      ((∀ round, v = .change round → round = b'.view.round) → v.Fits N.config b') := by
  generalize hvote : some v = vote at hmove
  -- a vote for another round carries what the stage has prepared last
  have hchange : ∀ round, Admissible N.validators.toFinset byzantine N.quorumSize log a
      ((Vote.change round).note N.config b') := fun _ r d hd _ => h'.carried r d hd
  cases hmove with
  | accepted m hm haccept hstate hview =>
    cases hvote
    refine ⟨⟨h.unprepared hstate, fun hne => ?_⟩, fun _ => nofun⟩
    have hround := hjust m ⟨hm, haccept⟩ (show m.view.round ≠ 0 by rw [hview]; exact hne)
    exact hview ▸ hround
  | prepared p m hm hstate hcounts hquorum =>
    cases hvote
    refine ⟨⟨?_, fun r prep hprep => ?_⟩, fun _ => ⟨_, if_neg (N.config.hash_ne_zero p)⟩⟩
    · refine said_of_ballots h'.prepares h'.validators hcounts.proposal hquorum ?_
      intro m' hm' hview hdigest
      rw [show N.config.blocks.hash p = m'.digest from hdigest.symm, ← hview]
      exact h'.prepares_signed m' hm'
    · -- it has announced no later round of the sequence
      rcases h.bounded _ hprep with hlt | hle
      · exact absurd hlt (lt_irrefl _)
      · exact hle.2
  | committed p =>
    rw [if_pos (hcommit p)] at hvote
    cases hvote
  | entered round =>
    cases hvote
    exact ⟨hchange round, fun hown => hown round rfl⟩
  | strayed _ _ round =>
    cases hvote
    exact ⟨hchange round, fun hown => hown round rfl⟩
  | early round =>
    cases hvote
    exact ⟨hchange round, fun hown => hown round rfl⟩
  | _ => cases hvote

/-- A proposal that a move commits is one a quorum said COMMIT for, at the stage's view. -/
theorem Node.Move.said (hmove : Move N.config c e b b' vote (some p)) (h' : b'.Honors N log a) :
    Said N byzantine log (.commit b.view.sequence b.view.round (N.blocks.hash p)) := by
  generalize hp : some p = committed at hmove
  cases hmove with
  | committed q m hm hstate hcounts hquorum =>
    cases hp
    refine said_of_ballots h'.commits h'.validators hcounts.proposal hquorum ?_
    intro m' hm' hview hdigest
    rw [← hdigest, show b.view = m'.view from hview.symm]
    exact h'.commits_signed m' hm'
  | _ => cases hp

end Moves

/-! ## Agreement -/

/-- A part of a message was signed. -/
def World.Heard (w : World N) (a : Address) (s : Signed P) : Prop := (a, s) ∈ w.signed

/-- The PRE-PREPARE has a ROUND-CHANGE payload of the account, for its sequence and its round or a
later one, with the property. -/
def Node.Preprepare.Announced (m : Preprepare P) (ok : SignedRoundChangePayload → Prop) (a : Address) :
    Prop :=
  ∃ rc ∈ m.justificationRoundChanges, rc.source = a ∧ rc.sequence = m.sequence ∧
    m.round ≤ rc.round ∧ ok rc

/-- The PRE-PREPARE has a PREPARE with a signature of the account for its proposal and sequence and for
the round, which the account did sign. -/
def World.Prepared (w : World N) (m : Preprepare P) (round : ℕ) (a : Address) : Prop :=
  ∃ q ∈ m.justificationPrepares, q.signer N.config = some a ∧ q.view = ⟨m.sequence, round⟩ ∧
    q.digest = N.blocks.hash m.proposal ∧ w.Heard a ⟨q.view, .prepare q.digest⟩

/-- A quorum of validators has the property. -/
def Quorum (N : Network P) (p : Address → Prop) : Prop :=
  ∃ Q ⊆ N.validators.toFinset, N.quorumSize ≤ Q.card ∧ ∀ a ∈ Q, p a

/-- The justification of a PRE-PREPARE is that of a quorum of different validators, all for its own
sequence and round, and its PREPARE messages are signed. -/
def World.WellJustified (w : World N) (m : Preprepare P) : Prop :=
  match m.justificationPrepares with
  | [] => Quorum N (m.Announced fun rc => rc.IsNil)
  | q :: _ =>
    Quorum N (m.Announced fun rc => rc.AtMost q.round) ∧ Quorum N (w.Prepared m q.round)

/-- A core accepts a PRE-PREPARE of a later round only with a good justification, and announces a
round only at the head of its chain. -/
def World.Regular (w : World N) : Event P → Prop
  | .turn a input verdict =>
    (∀ m, (w.cores a).Accepts N.config (w.event a input verdict) m → m.round ≠ 0 → w.WellJustified m) ∧
      ¬ (w.cores a).Strays N.config (w.event a input verdict)
  | _ => True

/-- The cores against the log, which is orderly, and the commitments, each of which a quorum said
COMMIT for. -/
structure Inv (byzantine : Finset Address) (w : World N) : Prop where
  cores : ∀ a, N.Honest byzantine a → (w.cores a).stage.Honors N w.log a
  log : Orderly N.validators.toFinset byzantine N.quorumSize w.log
  commitments : ∀ e ∈ w.commitments,
    ∃ r, Said N byzantine w.log (.commit e.sequence r (N.blocks.hash e.proposal))

theorem Node.SignedRoundChangePayload.preparedRound_of_prepared {rc : SignedRoundChangePayload} {l : ℕ}
    {d : Hash} (h : rc.prepared = some (l, d)) : rc.preparedRound = some l := by
  rw [SignedRoundChangePayload.prepared] at h
  split at h
  next round hround =>
    split at h
    · cases h
    · cases h
      exact hround
  · cases h

theorem Node.SignedRoundChangePayload.IsNil.prepared {rc : SignedRoundChangePayload} (h : rc.IsNil) :
    rc.prepared = none := by
  rw [SignedRoundChangePayload.prepared]
  split
  · rw [if_pos h.2]
  · rfl

theorem inv_init (N : Network P) (byzantine : Finset Address) : Inv byzantine (init N) where
  cores := fun _ _ =>
    { tallied_of_nil rfl rfl with
      validators := rfl
      bounded := nofun
      unprepared := fun _ _ => List.not_mem_nil
      carried := nofun
      prepares_signed := nofun
      commits_signed := nofun }
  log := .nil
  commitments := nofun

/-- A good justification is one in the log. -/
theorem World.WellJustified.justified {m : Preprepare P} (h : w.WellJustified m)
    (hgenuine : w.Genuine (.preprepare m)) :
    Justified N.validators.toFinset byzantine N.quorumSize w.log m.sequence m.round
      (N.blocks.hash m.proposal) := by
  have hchange : ∀ rc ∈ m.justificationRoundChanges,
      (rc.source, Note.change rc.sequence rc.round rc.prepared) ∈ w.log := by
    intro rc hrc
    have hsigned := hgenuine (rc.source, ⟨rc.view, .roundChange rc.prepared⟩)
      (List.mem_cons_of_mem _ (List.mem_map.mpr ⟨rc, hrc, rfl⟩))
    exact mem_logOf hsigned rfl
  rw [World.WellJustified] at h
  split at h
  · obtain ⟨Q, hsub, hcard, hall⟩ := h
    refine .inl ⟨Q, hsub, hcard, fun a ha _ => ?_⟩
    obtain ⟨rc, hrc, rfl, hsequence, hround, hnil⟩ := hall a ha
    have hprepared : rc.prepared = none := hnil.prepared
    refine ⟨rc.round, hround, ?_⟩
    rw [← hsequence, ← hprepared]
    exact hchange rc hrc
  next q _ _ =>
    obtain ⟨⟨Q, hsub, hcard, hall⟩, ⟨Q', hsub', hcard', hall'⟩⟩ := h
    refine .inr ⟨q.round, ⟨Q, hsub, hcard, fun a ha _ => ?_⟩, ⟨Q', hsub', hcard', fun a ha _ => ?_⟩⟩
    · obtain ⟨rc, hrc, rfl, hsequence, hround, hmost⟩ := hall a ha
      refine ⟨rc.round, hround, rc.prepared, ?_, ?_⟩
      · rw [← hsequence]
        exact hchange rc hrc
      · intro l d hsome
        exact hmost l (SignedRoundChangePayload.preparedRound_of_prepared hsome)
    · obtain ⟨q', -, -, hview, hdigest, hheard⟩ := hall' a ha
      rw [hview, hdigest] at hheard
      exact mem_logOf hheard rfl

/-- Every ROUND-CHANGE that is sent is for the core's round. -/
def Node.Out.OwnRound (out : Out P) : Prop :=
  ∀ m, .roundChange m ∈ out.sent → m.round = out.core.current.round

/-- What an event has to be like for the invariant: the log justifies what a core accepts in a later
round, and a core announces its own round only. -/
def World.Proper (byzantine : Finset Address) (w : World N) : Event P → Prop
  | .turn a input verdict => N.Honest byzantine a →
    (∀ m, w.Genuine (.preprepare m) → (w.cores a).Accepts N.config (w.event a input verdict) m →
      m.round ≠ 0 → Justified N.validators.toFinset byzantine N.quorumSize w.log m.sequence m.round
        (N.blocks.hash m.proposal)) ∧
      ∀ out, (w.cores a).handle N.config (w.event a input verdict) = some out → out.OwnRound
  | _ => True

theorem ownRound_of_not_strays {G : Config P} {c : Core P} {e : Node.Event P} {out : Out P}
    (hout : c.handle G e = some out) (hstay : ¬ c.Strays G e)
    (hcommit : ∀ p, e.backend.commit p = true) : out.OwnRound := by
  intro m hm
  obtain ⟨c', -, vote, hmove, -, hvoices⟩ := handle_turns hout
  cases hvoices _ hm with
  | change round signature => exact hmove.change_round hstay fun p _ => hcommit p

theorem World.Regular.proper {e : Event P} (h : w.Regular e) : w.Proper byzantine e := by
  cases e with
  | turn a input verdict =>
    intro _
    refine ⟨fun m hgenuine haccepts hne => (h.1 m haccepts hne).justified hgenuine, ?_⟩
    exact fun out hout => ownRound_of_not_strays hout h.2 fun _ => rfl
  | _ => trivial

/-- The log with one note of a core at most. -/
theorem Node.Stage.Honors.append {b : Stage P} {notes : List (Note ℕ Hash)} (h : b.Honors N w.log a)
    (hlength : notes.length ≤ 1) (hnotes : ∀ n ∈ notes, b.Honors N ((a, n) :: w.log) a) :
    b.Honors N (notes.map (Prod.mk a) ++ w.log) a := by
  cases notes with
  | nil => exact h
  | cons n rest =>
    rw [List.length_eq_zero_iff.mp (Nat.le_zero.mp (Nat.le_of_succ_le_succ hlength))]
    exact hnotes n List.mem_cons_self

/-- What an honest core does in a turn: it honours the log, says one thing at most that the log did not
have, which is admissible, and commits only what a quorum has said COMMIT for. -/
theorem Inv.turn (h : Inv byzantine w) (ha : N.Honest byzantine a) {input : Input P}
    {verdict : Verdict} {out : Out P}
    (hgenuine : ∀ m ∈ (w.cores a).brought N.config (w.event a input verdict), w.Genuine m)
    (hproper : w.Proper byzantine (.turn a input verdict))
    (hout : (w.cores a).handle N.config (w.event a input verdict) = some out) :
    out.core.stage.Honors N w.log a ∧ (notesOf out.sent).length ≤ 1 ∧
      (∀ n ∈ notesOf out.sent, Admissible N.validators.toFinset byzantine N.quorumSize w.log a n ∧
        out.core.stage.Honors N ((a, n) :: w.log) a) ∧
      ∀ p, out.committed = some p → ∃ r,
        Said N byzantine w.log (.commit (w.cores a).current.sequence r (N.blocks.hash p)) := by
  obtain ⟨c', hfiled, vote, hmove, hlength, hvoices⟩ := handle_turns hout
  have hcore := hfiled.honors (h.cores a ha)
  have hheard : Hears N w.log (w.cores a) (w.event a input verdict) := fun m n hm hn =>
    mem_logOf (hgenuine m hm.1 _ List.mem_cons_self) hn
  have hjust : Justifies N byzantine w.log (w.cores a) (w.event a input verdict) := fun m hm =>
    (hproper ha).1 m (hgenuine _ hm.1.1) hm
  have hstage := hmove.honors hcore hheard fun _ => rfl
  refine ⟨hstage, (List.length_filterMap_le _ _).trans hlength, fun n hn => ?_, fun p hp => ?_⟩
  · obtain ⟨m, hm, hnote⟩ := List.mem_filterMap.mp hn
    have hm' := hvoices m hm
    obtain ⟨v, rfl, rfl⟩ := hm'.note hnote
    obtain ⟨hadmissible, hfits⟩ := hmove.admissible hcore hstage hjust fun _ => rfl
    refine ⟨hadmissible, hstage.cons (hfits ?_)⟩
    rintro round rfl
    cases hm' with
    | preprepare => cases hnote
    | change _ signature => exact (hproper ha).2 out hout _ hm
  · rw [hp] at hmove
    have hsaid : Said N byzantine w.log _ := hmove.said hstage
    rw [hfiled.view] at hsaid
    exact ⟨_, hsaid⟩

/-- A core's turn adds no note of another one. -/
theorem mem_log_of_perform {u : Address} {n : Note ℕ Hash} {out : Out P} (hua : u ≠ a)
    (hn : (u, n) ∈ (w.perform a out).log) : (u, n) ∈ w.log := by
  rw [log_perform] at hn
  rcases List.mem_append.mp hn with hnew | hold
  · obtain ⟨_, -, heq⟩ := List.mem_map.mp hnew
    exact absurd (Prod.mk.inj heq).1.symm hua
  · exact hold

/-- An honest core's turn keeps the invariant. -/
theorem Inv.perform (h : Inv byzantine w) (ha : N.Honest byzantine a) {input : Input P}
    {verdict : Verdict} {out : Out P}
    (hgenuine : ∀ m ∈ (w.cores a).brought N.config (w.event a input verdict), w.Genuine m)
    (hproper : w.Proper byzantine (.turn a input verdict))
    (hout : (w.cores a).handle N.config (w.event a input verdict) = some out) :
    Inv byzantine (w.perform a out) := by
  obtain ⟨hstage, hnotes, hvotes, hsaid⟩ := h.turn ha hgenuine hproper hout
  have hlog := log_perform w a out
  have hsub : w.log ⊆ (w.perform a out).log := by
    rw [hlog]
    exact List.subset_append_right _ _
  refine ⟨fun u hu => ?_, ?_, fun e he => ?_⟩
  · by_cases hua : u = a
    · subst hua
      simp only [World.perform, Function.update_self]
      rw [← World.perform, hlog]
      exact hstage.append hnotes fun n hn => (hvotes n hn).2
    · have hother : (w.perform a out).cores u = w.cores u := Function.update_of_ne hua _ _
      rw [hother]
      exact (h.cores u hu).mono (fun n hn => mem_log_of_perform hua hn) hsub
  · rw [hlog]
    exact h.log.append hnotes fun n hn => (hvotes n hn).1
  · rcases List.mem_append.mp he with hnew | hold
    · obtain ⟨p, hp, rfl⟩ := Option.map_eq_some_iff.mp (Option.mem_toList.mp hnew)
      obtain ⟨r, hr⟩ := hsaid p hp
      exact ⟨r, hr.mono fun u hu => hsub hu⟩
    · obtain ⟨r, hr⟩ := h.commitments e hold
      exact ⟨r, hr.mono fun u hu => hsub hu⟩

/-- What a Byzantine validator signs says nothing of honest ones. -/
theorem Inv.forge (h : Inv byzantine w) {b : Address} (hb : b ∈ byzantine) (s : Signed P) :
    Inv byzantine { w with signed := (b, s) :: w.signed } := by
  have hsub : w.log ⊆ logOf ((b, s) :: w.signed) := List.filterMap_subset _ (List.subset_cons_self _ _)
  refine ⟨?_, ?_, ?_⟩
  · intro a ha
    refine (h.cores a ha).mono (fun n hn => ?_) hsub
    obtain ⟨y, hy, heq⟩ := List.mem_filterMap.mp hn
    rcases List.mem_cons.mp hy with rfl | hold
    · obtain ⟨n', -, heq'⟩ := Option.map_eq_some_iff.mp heq
      cases heq'
      exact absurd hb ha.2
    · exact List.mem_filterMap.mpr ⟨y, hold, heq⟩
  · show Orderly _ _ _ (logOf ((b, s) :: w.signed))
    cases hs : s.note with
    | none =>
      have hsame : logOf ((b, s) :: w.signed) = w.log :=
        List.filterMap_cons_none (by simp only [hs, Option.map_none])
      rw [hsame]
      exact h.log
    | some n =>
      have hmore : logOf ((b, s) :: w.signed) = (b, n) :: w.log :=
        List.filterMap_cons_some (by simp only [hs, Option.map_some])
      rw [hmore]
      exact .cons h.log fun hgood => absurd hb hgood
  · intro e he
    obtain ⟨r, hr⟩ := h.commitments e he
    exact ⟨r, hr.mono fun u hu => hsub hu⟩

/-- Every proper event keeps the invariant. -/
theorem inv_step [DecidableEq P] {w' : World N} {e : Event P} (h : Inv byzantine w)
    (hproper : w.Proper byzantine e) (hstep : step N byzantine e w = some w') : Inv byzantine w' := by
  cases e with
  | forge b s =>
    obtain ⟨hb, hw⟩ := Option.ite_none_right_eq_some.mp hstep
    cases hw
    exact h.forge hb s
  | turn a input verdict =>
    obtain ⟨⟨ha, hgenuine⟩, hw⟩ := Option.ite_none_right_eq_some.mp hstep
    cases hw
    cases hout : (w.cores a).handle N.config (w.event a input verdict) with
    | none => exact h
    | some out => exact h.perform ha hgenuine hproper hout
  | insert a p =>
    simp only [step] at hstep
    split at hstep
    · obtain ⟨-, hw⟩ := Option.ite_none_right_eq_some.mp hstep
      cases hw
      exact ⟨h.cores, h.log, h.commitments⟩
    · cases hstep

/-- **Agreement.** In a run of regular events, with at most `F` Byzantine validators, honest cores
that commit at one sequence commit one proposal, in whatever rounds. -/
theorem qbft_agreement [DecidableEq P] (N : Network P) (byzantine : Finset Address)
    (hbyzantine : (byzantine.card : ℤ) ≤ faulty N.validators) {es : List (Event P)} {w : World N}
    (run : Run (step N byzantine) World.Regular (init N) es w) {e e' : Commitment P}
    (he : e ∈ w.commitments) (he' : e' ∈ w.commitments) (hsequence : e.sequence = e'.sequence) :
    e.proposal = e'.proposal := by
  have hinv : Inv byzantine w :=
    run.invariant (inv_init N byzantine) fun h hregular hstep => inv_step h hregular.proper hstep
  obtain ⟨r, hsaid⟩ := hinv.commitments e he
  obtain ⟨r', hsaid'⟩ := hinv.commitments e' he'
  rw [hsequence] at hsaid
  have hquorum := Ibft.Network.card_lt_two_quorums hbyzantine
  have hhash : N.blocks.hash e.proposal = N.blocks.hash e'.proposal :=
    hinv.log.commits_agree hquorum hsaid hsaid'
  apply N.hash_injective
  rw [N.hash_eq, N.hash_eq, hhash]

/-! ### Four validators -/

/-- A test for events: the core is at the head of its chain, and a PRE-PREPARE that reaches it passes. -/
def World.tests (ok : Preprepare P → Bool) (w : World N) : Event P → Bool
  | .turn a input verdict =>
    (w.cores a).AtHead N.config (w.event a input verdict).backend &&
      match (w.cores a).brought N.config (w.event a input verdict) with
      | some (.preprepare m) => ok m
      | _ => true
  | _ => true

theorem World.of_tests {ok : Preprepare P → Bool} {input : Input P} {verdict : Verdict}
    (h : w.tests ok (.turn a input verdict) = true) :
    ¬ (w.cores a).Strays N.config (w.event a input verdict) ∧
      ∀ m, (w.cores a).Accepts N.config (w.event a input verdict) m → ok m = true := by
  obtain ⟨hhead, hbrought⟩ := Bool.and_eq_true_iff.mp h
  refine ⟨fun hstrays => hstrays.1 (of_decide_eq_true hhead), fun m haccepts => ?_⟩
  rwa [haccepts.1.1] at hbrought

/-- The encodings of finitely many blocks. -/
def smallBlocks (k : ℕ) : BlockCodec (Fin k) where
  hash p := BitVec.ofNat 256 (p + 1)
  item p := .list [Rlp.nat p, .list [], .list []]
  ofItem
    | .list [header, .list [], .list []] =>
      (asNat header).bind fun n => if h : n < k then some ⟨n, h⟩ else none
    | _ => none
  ofItem_item p := by simp [p.isLt]
  item_eq _ := ⟨_, _, _, rfl⟩

/-- Four validators, and two blocks of each of the numbers 2 and 3. All cores start from the head 1. In
round 0 the validator after the last block's author proposes, and the next one in round 1. The first
byte of a signature is its signer. -/
def rivalBlocks : Network (Fin 6) where
  validators := Ibft.fourValidators.validators
  nodup := Ibft.fourValidators.nodup
  policy := .roundRobin
  number p := [0, 1, 2, 3, 2, 3].getD p 0
  hash p := p + 1
  author p := [0, 4, 1, 2, 2, 3].getD p 0
  genesis := ⟨1, [0], by decide⟩
  hash_injective := fun _ _ h => Fin.ext (Nat.succ.inj h)
  hash_ne_zero := fun _ => Nat.succ_ne_zero _
  blocks := smallBlocks 6
  hash_eq := by decide
  getSignatureAddress := fun _ signature => signature.head?.map fun byte => BitVec.ofNat 160 byte
  sign := fun a _ => [a.toNat]

/-- The commitments a schedule leads to. -/
def commitmentsOf (byzantine : Finset Address) (es : List (Event (Fin 6))) :
    Option (List (Commitment (Fin 6))) :=
  (runAll (step rivalBlocks byzantine) es (init rivalBlocks)).map (·.commitments)

/-- The bytes of a message reach a core. -/
def deliver (a : Address) (m : Message (Fin 6)) : Event (Fin 6) :=
  .turn a (.message m.code ((m.encode rivalBlocks.blocks).getD [])) .ok

/-- The votes of a validator for a proposal. -/
def prepareOf (m : Preprepare (Fin 6)) (a : Address) : Node.Prepare :=
  ⟨⟨a, m.sequence, m.round, [a.toNat]⟩, rivalBlocks.blocks.hash m.proposal⟩

def commitOf (m : Preprepare (Fin 6)) (a : Address) : Node.Commit :=
  ⟨⟨a, m.sequence, m.round, [a.toNat]⟩, rivalBlocks.blocks.hash m.proposal, []⟩

/-- The cores receive a PRE-PREPARE for the block, then the PREPARE messages of the sources. -/
def prepareAll (m : Preprepare (Fin 6)) (cores sources : List Address) : List (Event (Fin 6)) :=
  cores.map (fun a => deliver a (.preprepare m)) ++
    cores.flatMap fun a => sources.map fun source => deliver a (.prepare (prepareOf m source))

/-- A core receives the COMMIT messages of the sources. -/
def commitOne (m : Preprepare (Fin 6)) (a : Address) (sources : List Address) :
    List (Event (Fin 6)) :=
  sources.map fun source => deliver a (.commit (commitOf m source))

/-- A Byzantine validator signs a PRE-PREPARE and votes for it. -/
def forgeAll (b : Address) (m : Preprepare (Fin 6)) : List (Event (Fin 6)) :=
  [Message.preprepare m, .prepare (prepareOf m b), .commit (commitOf m b)].map fun m => .forge b m.signed

/-- The first validator's proposal of block 2. -/
def firstProposal : Preprepare (Fin 6) := ⟨⟨1, 2, 0, [1]⟩, 2, [], []⟩

/-- The second validator is Byzantine. The others prepare block 2, and the first commits it. -/
def firstCommits : List (Event (Fin 6)) :=
  [.turn 1 (.request 2) .ok] ++ prepareAll firstProposal [1, 3, 4] [1, 3, 4] ++
    commitOne firstProposal 1 [1, 3, 4]

/-- The third and fourth validators go to round 1, whose proposer is the second. It signs a
ROUND-CHANGE and a PRE-PREPARE, and the third commits what it proposes. -/
def thirdCommits (prepared : Option (ℕ × Hash)) (m : Preprepare (Fin 6)) : List (Event (Fin 6)) :=
  [.turn 3 .timeout .ok, .turn 4 .timeout .ok, .forge 2 ⟨⟨2, 1⟩, .roundChange prepared⟩] ++
    forgeAll 2 m ++ prepareAll m [3, 4] [2, 3, 4] ++ commitOne m 3 [2, 3, 4]

/-- A proposal in round 1 with ROUND-CHANGE messages, given by their sources and what they prepared. -/
def proposalOf (p : Fin 6) (changes : List (Address × Option ℕ × Hash)) (prepares : List Node.Prepare) :
    Preprepare (Fin 6) where
  source := 2
  sequence := 2
  round := 1
  signature := [2]
  proposal := p
  justificationRoundChanges := changes.map fun x => ⟨⟨x.1, 2, 1, [x.1.toNat]⟩, x.2.1, x.2.2⟩
  justificationPrepares := prepares

/-- A proposal of block 2 in round 1, with the ROUND-CHANGE messages of three validators that prepared it
in round 0 and the PREPARE messages of three. -/
def laterProposal : Preprepare (Fin 6) :=
  proposalOf 2 ([2, 3, 4].map fun a => (a, some 0, 3)) ([1, 3, 4].map (prepareOf firstProposal))

/-- What reaches a core of it: nobody finds out whose the PREPARE messages are. -/
def broughtProposal : Preprepare (Fin 6) :=
  { laterProposal with
    justificationPrepares := laterProposal.justificationPrepares.map fun q => { q with source := 0 } }

/-- Of later rounds at most that proposal is delivered. -/
def World.delivers (w : World rivalBlocks) (m : Preprepare (Fin 6)) : Bool :=
  m.round = 0 || m = broughtProposal &&
    [1, 3, 4].all fun a => w.signed.any (· = (a, ⟨⟨2, 0⟩, .prepare 3⟩))

theorem signer_prepareOf (h : a ∈ [1, 3, 4]) :
    (prepareOf firstProposal a).signer rivalBlocks.config = some a := by
  have hall : ([1, 3, 4].all fun a => (prepareOf firstProposal a).signer rivalBlocks.config = some a) =
      true := by decide +kernel
  exact of_decide_eq_true (List.all_eq_true.mp hall a h)

theorem World.wellJustified_broughtProposal {w : World rivalBlocks}
    (h : ∀ a ∈ [1, 3, 4], w.Heard a ⟨⟨2, 0⟩, .prepare 3⟩) : w.WellJustified broughtProposal := by
  refine ⟨⟨{2, 3, 4}, by decide, by decide, fun a ha => ?_⟩,
    ⟨{1, 3, 4}, by decide, by decide, fun a ha => ?_⟩⟩
  · refine ⟨⟨⟨a, 2, 1, [a.toNat]⟩, some 0, 3⟩, ?_, rfl, rfl, le_rfl, ?_⟩
    · have hsource : a ∈ [2, 3, 4] := by simpa using ha
      exact List.mem_map.mpr ⟨(a, some 0, 3), List.mem_map_of_mem hsource, rfl⟩
    · rintro r ⟨⟩
      exact le_rfl
  · have hsource : a ∈ [1, 3, 4] := by simpa using ha
    have hheard := h a hsource
    rw [show (3 : Hash) = rivalBlocks.blocks.hash 2 from rfl] at hheard
    refine ⟨{ prepareOf firstProposal a with source := 0 }, ?_, signer_prepareOf hsource, rfl, rfl,
      hheard⟩
    exact List.mem_map_of_mem (List.mem_map_of_mem hsource)

theorem World.regular_of_tests {w : World rivalBlocks} {e : Event (Fin 6)}
    (h : w.tests w.delivers e = true) : w.Regular e := by
  cases e with
  | turn a input verdict =>
    obtain ⟨hstays, haccepts⟩ := World.of_tests h
    refine ⟨fun m hm hround => ?_, hstays⟩
    have hdelivers := haccepts m hm
    simp only [World.delivers, Bool.or_eq_true, Bool.and_eq_true, decide_eq_true_eq,
      List.all_eq_true, List.any_eq_true, exists_eq_right] at hdelivers
    obtain ⟨rfl, hheard⟩ := hdelivers.resolve_left hround
    exact World.wellJustified_broughtProposal hheard
  | _ => trivial

/-- The first validator commits block 2 in round 0. The third commits it in round 1, whose Byzantine
proposer has to propose it again. -/
theorem qbft_agreement_laterRound :
    ∃ w, Run (step rivalBlocks {2}) World.Regular (init rivalBlocks)
        (firstCommits ++ thirdCommits (some (0, 3)) laterProposal) w ∧
      w.commitments = [⟨3, 2, 2⟩, ⟨1, 2, 2⟩] ∧
      ∀ e ∈ w.commitments, ∀ e' ∈ w.commitments, e.sequence = e'.sequence →
        e.proposal = e'.proposal := by
  have hcommitments : (runAll (fun e w => if w.tests w.delivers e then step rivalBlocks {2} e w else none)
      (firstCommits ++ thirdCommits (some (0, 3)) laterProposal) (init rivalBlocks)).map
        (·.commitments) = some [⟨3, 2, 2⟩, ⟨1, 2, 2⟩] := by decide +kernel
  obtain ⟨w, hw, heq⟩ := Option.map_eq_some_iff.mp hcommitments
  have run := Run.of_tested World.regular_of_tests hw
  refine ⟨w, run, heq, fun e he e' he' hsequence => ?_⟩
  exact qbft_agreement rivalBlocks {2} (by decide) run he he' hsequence

/-- A proposal of block 4 that one ROUND-CHANGE of its proposer justifies, three times. -/
def repeatedProposal : Preprepare (Fin 6) := proposalOf 4 (List.replicate 3 (2, none, 0)) []

/-- Two honest cores commit different blocks at sequence 2. -/
theorem repeated_roundChange_disagree :
    ({2} : Finset Address).card ≤ faulty rivalBlocks.validators ∧
      commitmentsOf {2} (firstCommits ++ thirdCommits none repeatedProposal) =
        some [⟨3, 2, 4⟩, ⟨1, 2, 2⟩] := by
  decide +kernel

/-- A proposal of block 4 with the ROUND-CHANGE messages of three validators, two of which prepared
block 2, and three PREPARE messages that nobody signed. -/
def unsignedProposal : Preprepare (Fin 6) :=
  proposalOf 4 [(2, some 0, 5), (3, some 0, 3), (4, some 0, 3)]
    ([1, 3, 4].map fun a => ⟨⟨a, 2, 0, [a.toNat]⟩, 5⟩)

/-- The same with distinct ROUND-CHANGE messages of the right view. -/
theorem unsigned_prepares_disagree :
    commitmentsOf {2} (firstCommits ++ thirdCommits (some (0, 5)) unsignedProposal) =
      some [⟨3, 2, 4⟩, ⟨1, 2, 2⟩] := by
  decide +kernel

/-- The third validator is Byzantine. The fourth commits block 2, which the chains of the first and
the second get before their cores know: at their timeouts they enter round 0 of sequence 3 and
announce its round 1. -/
def announceEarly : List (Event (Fin 6)) :=
  [.turn 1 (.request 2) .ok] ++ prepareAll firstProposal [1, 2, 4] [1, 2, 4] ++
    commitOne firstProposal 4 [1, 2, 4] ++
    [.insert 1 2, .insert 2 2, .insert 4 2, .turn 4 .finalCommitted .ok, .turn 1 .timeout .ok,
      .turn 2 .timeout .ok]

/-- The second validator's proposal of block 3. -/
def secondProposal : Preprepare (Fin 6) := ⟨⟨2, 3, 0, [2]⟩, 3, [], []⟩

/-- A proposal of block 5 in round 1 with a ROUND-CHANGE of each of three validators, of the right
view, and none of which prepared anything. -/
def earlyProposal : Preprepare (Fin 6) :=
  ⟨⟨3, 3, 1, [3]⟩, 5, [1, 2, 3].map fun a => ⟨⟨a, 3, 1, [a.toNat]⟩, none, 0⟩, []⟩

/-- The fourth commits block 3 in round 0 of sequence 3, and the first block 5 in round 1. -/
def rivalsCommitted : List (Event (Fin 6)) :=
  [.turn 2 (.request 3) .ok] ++ prepareAll secondProposal [1, 2, 4] [1, 2, 4] ++
    commitOne secondProposal 4 [1, 2, 4] ++
    [.turn 1 .timeout .ok, .turn 2 .timeout .ok, .forge 3 ⟨⟨3, 1⟩, .roundChange none⟩] ++
    forgeAll 3 earlyProposal ++
    prepareAll earlyProposal [1, 2] [1, 2, 3] ++ commitOne earlyProposal 1 [1, 2, 3]

/-- Two honest cores commit different blocks at sequence 3, with a justification that is as it
should be: the announcements are older than what the cores prepared. -/
theorem early_announcement_disagree :
    commitmentsOf {3} (announceEarly ++ rivalsCommitted) =
      some [⟨1, 3, 5⟩, ⟨4, 3, 3⟩, ⟨4, 2, 2⟩] := by
  decide +kernel

end Wormholes.Consensus.Qbft
