import Wormholes.Laws.Consensus.QbftAgreement

/-!
# Laws.Consensus.QbftDecided — a justification protects what a quorum commits to

Agreement asks of the justification of a PRE-PREPARE what the source does not check. Here the messages
in it are taken to be signed by different validators and of the right sequence and round, and a core to
announce its own round only. Once a quorum has sent COMMIT for a digest, `isJustified` then lets only
that digest pass in later rounds (`justification_protects`), as long as cores do look: in a round that
is a multiple of `2 ^ 64` they accept whatever is proposed, and the digest of the run
`unchecked_round_overwrites` does not stay.
-/

namespace Wormholes.Consensus.Qbft

open Lib Common Node
open Ibft (View Verdict)

variable {P : Type} {N : Network P} {byzantine : Finset Address} {w : World N} {view : View}
  {rcs : List SignedRoundChangePayload} {prepares : List Node.Prepare}

/-- A justification in a view has messages that different validators signed: ROUND-CHANGE payloads of
the view and PREPARE messages of its sequence. -/
structure World.Authentic (w : World N) (view : View) (rcs : List SignedRoundChangePayload)
    (prepares : List Node.Prepare) : Prop where
  changes_distinct : (rcs.map fun rc => rc.source).Nodup
  changes : ∀ rc ∈ rcs, rc.source ∈ N.validators ∧ rc.view = view ∧
    w.Heard rc.source ⟨rc.view, .roundChange rc.prepared⟩
  prepares_distinct : (prepares.map fun q => q.signer N.config).Nodup
  prepares : ∀ q ∈ prepares, ∃ a ∈ N.validators, q.signer N.config = some a ∧
    q.sequence = view.sequence ∧ w.Heard a ⟨q.view, .prepare q.digest⟩

theorem authentic_nil : w.Authentic view [] [] := ⟨List.nodup_nil, nofun, List.nodup_nil, nofun⟩

/-- Messages of different accounts are as many validators. -/
theorem many_of_countP {α : Type} {source : α → Option Address} {messages : List α} {f : α → Bool}
    {p : Address → Prop} (hdistinct : (messages.map source).Nodup)
    (hquorum : N.quorumSize ≤ messages.countP f)
    (h : ∀ m ∈ messages, f m = true → ∃ a ∈ N.validators, source m = some a ∧ p a) :
    Many N.validators.toFinset byzantine N.quorumSize p := by
  have hsome : ∀ m ∈ messages.filter f, ∃ a ∈ N.validators, source m = some a ∧ p a := fun m hm =>
    h m (List.mem_of_mem_filter hm) (List.of_mem_filter hm)
  have hinj : ∀ m ∈ messages.filter f, ∀ m' ∈ messages.filter f,
      (source m).getD 0 = (source m').getD 0 → m = m' := by
    intro m hm m' hm' heq
    obtain ⟨a, -, ha, -⟩ := hsome m hm
    obtain ⟨a', -, ha', -⟩ := hsome m' hm'
    rw [ha, ha'] at heq
    refine List.inj_on_of_nodup_map hdistinct (List.mem_of_mem_filter hm) (List.mem_of_mem_filter hm') ?_
    rw [ha, ha']
    exact congrArg some heq
  have hall : ∀ a ∈ ((messages.filter f).map fun m => (source m).getD 0).toFinset,
      a ∈ N.validators ∧ p a := by
    intro a ha
    obtain ⟨m, hm, rfl⟩ := List.mem_map.mp (List.mem_toFinset.mp ha)
    obtain ⟨a, hmem, ha, hp⟩ := hsome m hm
    rw [ha]
    exact ⟨hmem, hp⟩
  refine ⟨_, fun a ha => List.mem_toFinset.mpr (hall a ha).1, ?_, fun a ha _ => (hall a ha).2⟩
  rw [List.toFinset_card_of_nodup (List.Nodup.map_on hinj (hdistinct.of_map.filter f)),
    List.length_map, ← List.countP_eq_length_filter]
  exact hquorum

/-- What an authentic justification justifies, the log does. -/
theorem World.Authentic.justified (h : w.Authentic view rcs prepares) (hne : N.validators ≠ []) {p : P}
    (hjust : isJustified (N.blocks.hash p) rcs prepares N.quorumSize = .ok ()) :
    Justified N.validators.toFinset byzantine N.quorumSize w.log view.sequence view.round
      (N.blocks.hash p) := by
  have hlength := List.length_pos_iff.mpr hne
  have hquorum : (1 : ℤ) ≤ N.quorumSize := by
    rw [Ibft.Network.quorumSize]
    omega
  have hdistinct : (rcs.map fun rc => some rc.source).Nodup := by
    have hmap := h.changes_distinct.map (Option.some_injective Address)
    rwa [List.map_map] at hmap
  have hchange : ∀ rc ∈ rcs, rc.source ∈ N.validators ∧
      (rc.source, Note.change view.sequence view.round rc.prepared) ∈ w.log := by
    intro rc hrc
    obtain ⟨hsource, hview, hheard⟩ := h.changes rc hrc
    rw [hview] at hheard
    exact ⟨hsource, mem_logOf hheard rfl⟩
  obtain ⟨-, ⟨-, hnil⟩ | ⟨hmany, round, hsame, hmost, -⟩⟩ := (isJustified_eq_ok_iff hquorum).mp hjust
  · refine .inl (many_of_countP hdistinct (Int.ofNat_le.mp hnil) fun rc hrc hnil => ?_)
    obtain ⟨hsource, hlog⟩ := hchange rc hrc
    rw [SignedRoundChangePayload.IsNil.prepared (of_decide_eq_true hnil)] at hlog
    exact ⟨_, hsource, rfl, view.round, le_rfl, hlog⟩
  · refine .inr ⟨round, many_of_countP hdistinct (Int.ofNat_le.mp hmost) fun rc hrc hle => ?_,
      many_of_countP (f := fun _ => true) h.prepares_distinct ?_ fun q hq _ => ?_⟩
    · obtain ⟨hsource, hlog⟩ := hchange rc hrc
      refine ⟨_, hsource, rfl, view.round, le_rfl, rc.prepared, hlog, fun l d hsome => ?_⟩
      exact of_decide_eq_true hle l (SignedRoundChangePayload.preparedRound_of_prepared hsome)
    · rw [List.countP_true]
      exact Int.ofNat_le.mp hmany
    · obtain ⟨a, hmem, hsigner, hsequence, hheard⟩ := h.prepares q hq
      obtain ⟨hround, hdigest⟩ := hsame q hq
      refine ⟨a, hmem, hsigner, ?_⟩
      rw [← hsequence, ← hround, ← hdigest]
      exact mem_logOf hheard rfl

/-- What is taken for granted of an event: the justification of a PRE-PREPARE that a core accepts in a
later round is authentic, and a core announces its own round only. -/
def World.Assumed (w : World N) : Event P → Prop
  | .turn a input verdict =>
    (∀ m, (w.cores a).Accepts N.config (w.event a input verdict) m → m.round ≠ 0 →
      w.Authentic m.view m.justificationRoundChanges m.justificationPrepares) ∧
      ∀ out, (w.cores a).handle N.config (w.event a input verdict) = some out → out.OwnRound
  | _ => True

/-- No core accepts a PRE-PREPARE of a later round that the source takes for round zero. -/
def World.Looks (w : World N) : Event P → Prop
  | .turn a input verdict =>
    ∀ m, (w.cores a).Accepts N.config (w.event a input verdict) m → m.round ≠ 0 →
      m.round % 2 ^ 64 ≠ 0
  | _ => True

theorem World.Assumed.proper {e : Event P} (h : w.Assumed e) (hlooks : w.Looks e)
    (hinv : Inv byzantine w) : w.Proper byzantine e := by
  cases e with
  | turn a input verdict =>
    intro ha
    refine ⟨fun m _ haccepts hround => ?_, h.2⟩
    have hjustifies := justifies_of_handlePreprepareMsg haccepts.2
    have hjust := (of_decide_eq_true hjustifies).resolve_left (hlooks m haccepts hround)
    have hquorum : (w.cores a).quorum N.config = N.quorumSize := by
      have hstage := quorum_stage (N := N) (w.cores a).stage
      rwa [(hinv.cores a ha).validators] at hstage
    rw [hquorum] at hjust
    exact (h.1 m haccepts hround).justified (List.ne_nil_of_mem ha.1) hjust
  | _ => trivial

/-- Once a quorum has sent COMMIT for a digest in a round, only a proposal of that digest is justified
in a later round of the sequence. -/
theorem justification_protects [DecidableEq P] (N : Network P) (byzantine : Finset Address)
    (hbyzantine : (byzantine.card : ℤ) ≤ faulty N.validators) (es : List (Event P)) (w : World N)
    (run : Run (step N byzantine) (fun w e => w.Assumed e ∧ w.Looks e) (init N) es w)
    (s r' r : ℕ) (d : Hash) (hlt : r' < r)
    (hcommits : Quorum N fun a => ∃ commitSeal, w.Heard a ⟨⟨s, r'⟩, .commit d commitSeal⟩)
    (p : P) (rcs : List SignedRoundChangePayload) (prepares : List Node.Prepare)
    (hauthentic : w.Authentic ⟨s, r⟩ rcs prepares)
    (hjustified : isJustified (N.blocks.hash p) rcs prepares N.quorumSize = .ok ()) :
    N.blocks.hash p = d := by
  have hinv : Inv byzantine w :=
    run.invariant (inv_init N byzantine) fun h hok hstep => inv_step h (hok.1.proper hok.2 h) hstep
  have hne : N.validators ≠ [] := by
    rintro hnil
    rw [hnil] at hbyzantine
    simp only [faulty, List.length_nil] at hbyzantine
    omega
  obtain ⟨Q, hsub, hcard, hall⟩ := hcommits
  have hmany : Said N byzantine w.log (.commit s r' d) := by
    refine ⟨Q, hsub, hcard, fun a ha _ => ?_⟩
    obtain ⟨commitSeal, hheard⟩ := hall a ha
    exact mem_logOf hheard rfl
  have hquorum := Ibft.Network.card_lt_two_quorums hbyzantine
  exact hinv.log.justified_eq hquorum hmany hlt (hauthentic.justified hne hjustified)

theorem World.assumed_of_tests {ok : Preprepare P → Bool} {e : Event P}
    (hok : ∀ m, ok m = true → m.round ≠ 0 →
      w.Authentic m.view m.justificationRoundChanges m.justificationPrepares)
    (h : w.tests ok e = true) : w.Assumed e := by
  cases e with
  | turn a input verdict =>
    obtain ⟨hstays, haccepts⟩ := World.of_tests h
    refine ⟨fun m hm hround => hok m (haccepts m hm) hround, fun out hout => ?_⟩
    exact ownRound_of_not_strays hout hstays fun _ => rfl
  | _ => trivial

/-! ## Four validators -/

/-- The third and fourth validators time out after the first commit, and the Byzantine one signs a
ROUND-CHANGE like theirs. -/
def firstChanges : List (Event (Fin 6)) :=
  firstCommits ++ [.turn 3 .timeout .ok, .turn 4 .timeout .ok,
    .forge 2 ⟨⟨2, 1⟩, .roundChange (some (0, 3))⟩]

/-- What is signed by then for block 2. -/
def firstVotes : List (Address × Signed (Fin 6)) :=
  [1, 3, 4].map (fun a => (a, ⟨⟨2, 0⟩, .prepare 3⟩)) ++
    [1, 3, 4].map (fun a => (a, ⟨⟨2, 0⟩, .commit 3 []⟩)) ++
      [2, 3, 4].map (fun a => (a, ⟨⟨2, 1⟩, .roundChange (some (0, 3))⟩))

/-- Only round zero. -/
def inRoundZero (m : Preprepare (Fin 6)) : Bool := m.round = 0

theorem World.assumed_and_looks {w : World rivalBlocks} {e : Event (Fin 6)}
    (h : w.tests inRoundZero e = true) : w.Assumed e ∧ w.Looks e := by
  have hzero : ∀ m, inRoundZero m = true → m.round = 0 := fun _ => of_decide_eq_true
  refine ⟨World.assumed_of_tests (fun m hm hround => absurd (hzero m hm) hround) h, ?_⟩
  cases e with
  | turn a input verdict =>
    exact fun m hm hround => absurd (hzero m ((World.of_tests h).2 m hm)) hround
  | _ => trivial

/-- The block that three of four validators committed to in round zero is justified in round one, and
no other is by the same messages. -/
theorem justification_protects_four :
    ∃ w, Run (step rivalBlocks {2}) (fun w e => w.Assumed e ∧ w.Looks e) (init rivalBlocks) firstChanges
        w ∧
      Quorum rivalBlocks (fun a => ∃ commitSeal, w.Heard a ⟨⟨2, 0⟩, .commit 3 commitSeal⟩) ∧
      w.Authentic ⟨2, 1⟩ laterProposal.justificationRoundChanges
        laterProposal.justificationPrepares ∧
      ∀ p, isJustified (rivalBlocks.blocks.hash p) laterProposal.justificationRoundChanges
        laterProposal.justificationPrepares rivalBlocks.quorumSize = .ok () ↔
          rivalBlocks.blocks.hash p = 3 := by
  have hsigned : (runAll (fun e w => if w.tests inRoundZero e then step rivalBlocks {2} e w else none)
      firstChanges (init rivalBlocks)).map (fun w => firstVotes.all fun v => w.signed.any (· = v)) =
        some true := by decide +kernel
  obtain ⟨w, hw, hall⟩ := Option.map_eq_some_iff.mp hsigned
  have run := Run.of_tested World.assumed_and_looks hw
  have hheard : ∀ v ∈ firstVotes, v ∈ w.signed := by
    simpa only [List.all_eq_true, List.any_eq_true, decide_eq_true_eq, exists_eq_right] using hall
  have hcommits : Quorum rivalBlocks
      (fun a => ∃ commitSeal, w.Heard a ⟨⟨2, 0⟩, .commit 3 commitSeal⟩) := by
    refine ⟨{1, 3, 4}, by decide, by decide, fun a ha => ⟨[], hheard _ ?_⟩⟩
    exact List.mem_append_left _ (List.mem_append_right _ (List.mem_map_of_mem (by simpa using ha)))
  have hauthentic : w.Authentic ⟨2, 1⟩ laterProposal.justificationRoundChanges
      laterProposal.justificationPrepares := by
    refine ⟨by decide, fun rc hrc => ?_, by decide +kernel, fun q hq => ?_⟩
    · obtain ⟨x, hx, rfl⟩ := List.mem_map.mp hrc
      obtain ⟨a, ha, rfl⟩ := List.mem_map.mp hx
      refine ⟨?_, rfl, hheard _ (List.mem_append_right _ (List.mem_map_of_mem ha))⟩
      exact (by decide +kernel : [2, 3, 4] ⊆ rivalBlocks.validators) ha
    · obtain ⟨a, ha, rfl⟩ := List.mem_map.mp hq
      have hprepare := hheard (a, ⟨⟨2, 0⟩, .prepare 3⟩)
        (List.mem_append_left _ (List.mem_append_left _ (List.mem_map_of_mem ha)))
      rw [show (3 : Hash) = rivalBlocks.blocks.hash 2 from rfl] at hprepare
      exact ⟨a, (by decide +kernel : [1, 3, 4] ⊆ rivalBlocks.validators) ha, signer_prepareOf ha, rfl,
        hprepare⟩
  refine ⟨w, run, hcommits, hauthentic, fun p => ⟨fun hjustified => ?_, fun hhash => ?_⟩⟩
  · exact justification_protects rivalBlocks {2} (by decide) _ w run 2 0 1 3 Nat.zero_lt_one hcommits p _ _
      hauthentic hjustified
  · rw [hhash]
    decide +kernel

/-! ## One validator -/

/-- One validator. After the genesis block all blocks have number 1. -/
def lone : Network (Fin 4) where
  validators := [1]
  nodup := by decide
  policy := .roundRobin
  number p := if p = 0 then 0 else 1
  hash p := p + 1
  author _ := 1
  genesis := ⟨0, [], nofun⟩
  hash_injective := fun _ _ h => Fin.ext (Nat.succ.inj h)
  hash_ne_zero := fun _ => Nat.succ_ne_zero _
  blocks := smallBlocks 4
  hash_eq := by decide
  getSignatureAddress := rivalBlocks.getSignatureAddress
  sign := rivalBlocks.sign

/-- The answers of the validator's node. -/
def loneNode : Backend (Fin 4) := lone.backend 1 lone.genesis .ok

/-- A run leads to a world in which the validator has the given core and has signed the parts. -/
def Reaches (c : Core (Fin 4)) (said : List (Signed (Fin 4))) : Prop :=
  ∃ es w, Run (step lone ∅) World.Assumed (init lone) es w ∧ w.cores 1 = c ∧
    w.chains 1 = lone.genesis ∧ ∀ s ∈ said, w.Heard 1 s

/-- A message of the validator without a justification. -/
def isBare : Message (Fin 4) → Bool
  | .preprepare m =>
    m.source = 1 && m.justificationRoundChanges.isEmpty && m.justificationPrepares.isEmpty
  | .roundChange _ => false
  | m => m.common.source = 1

theorem signatures_of_isBare {m : Message (Fin 4)} (h : isBare m = true) :
    m.signatures = [(1, m.signed)] := by
  cases m with
  | preprepare m =>
    simp only [isBare, Bool.and_eq_true, decide_eq_true_eq, List.isEmpty_iff] at h
    simp [Message.signatures, Message.common, h.1.1, h.1.2]
  | roundChange m => cases h
  | prepare m => exact congrArg (fun a => [(a, _)]) (of_decide_eq_true h)
  | commit m => exact congrArg (fun a => [(a, _)]) (of_decide_eq_true h)

/-- The core's step on an input, if it is at the head of its chain and the validator has signed the
message that comes. -/
def loneStep (input : Input (Fin 4)) (x : Core (Fin 4) × List (Signed (Fin 4))) :
    Option (Core (Fin 4) × List (Signed (Fin 4))) :=
  if x.1.AtHead lone.config loneNode ∧
      (x.1.brought lone.config ⟨input, loneNode⟩).all
        (fun m => isBare m && x.2.any (· = m.signed)) then
    (x.1.handle lone.config ⟨input, loneNode⟩).map fun out =>
      (out.core, out.sent.map Message.signed ++ x.2)
  else none

section Lone

variable {c c' : Core (Fin 4)} {said said' : List (Signed (Fin 4))}

/-- What the lone validator handles, with what it has signed, is a turn of its network. -/
theorem Reaches.step (h : Reaches c said) (input : Input (Fin 4))
    (hstep : loneStep input (c, said) = some (c', said')) : Reaches c' said' := by
  obtain ⟨es, w, run, rfl, hchain, hsaid⟩ := h
  obtain ⟨⟨hhead, hall⟩, hmap⟩ := Option.ite_none_right_eq_some.mp hstep
  obtain ⟨out, hout, heq⟩ := Option.map_eq_some_iff.mp hmap
  cases heq
  dsimp only at hhead hall hout
  have hevent : w.event 1 input .ok = ⟨input, loneNode⟩ := by rw [World.event, hchain]; rfl
  have hbare : ∀ m, (w.cores 1).brought lone.config ⟨input, loneNode⟩ = some m →
      isBare m = true ∧ m.signed ∈ said := by
    intro m hm
    rw [hm, Option.all_some, Bool.and_eq_true, List.any_eq_true] at hall
    simpa only [decide_eq_true_eq, exists_eq_right] using hall
  have hgenuine : ∀ m ∈ (w.cores 1).brought lone.config (w.event 1 input .ok), w.Genuine m := by
    intro m hm x hx
    obtain ⟨hm, hmem⟩ := hbare m (hevent ▸ hm)
    rw [signatures_of_isBare hm] at hx
    cases List.mem_singleton.mp hx
    exact hsaid _ hmem
  have hassumed : w.Assumed (.turn 1 input .ok) := by
    refine ⟨fun m hm _ => ?_, fun out hout => ?_⟩
    · have hm := (hbare _ (hevent ▸ hm.1.1)).1
      simp only [isBare, Bool.and_eq_true, List.isEmpty_iff] at hm
      rw [hm.1.2, hm.2]
      exact authentic_nil
    · refine ownRound_of_not_strays hout (fun hstrays => hstrays.1 ?_) fun _ => rfl
      rw [hevent]
      exact hhead
  refine ⟨_, _, run.snoc (u := w.perform 1 out) hassumed ?_, ?_, hchain, ?_⟩
  · have hhonest : lone.Honest ∅ 1 := by decide
    rw [Qbft.step, if_pos ⟨hhonest, hgenuine⟩, hevent, hout]
    rfl
  · simp only [World.perform, Function.update_self]
  · intro s hs
    rcases List.mem_append.mp hs with hnew | hold
    · obtain ⟨m, hm, rfl⟩ := List.mem_map.mp hnew
      exact List.mem_append_left _ (List.mem_map_of_mem hm)
    · exact List.mem_append_right _ (hsaid s hold)

theorem Reaches.run {inputs : List (Input (Fin 4))} (h : Reaches c said)
    (hrun : runAll loneStep inputs (c, said) = some (c', said')) : Reaches c' said' := by
  induction inputs generalizing c said with
  | nil =>
    cases hrun
    exact h
  | cons input inputs ih =>
    obtain ⟨⟨c₁, said₁⟩, hstep, hrest⟩ := Option.bind_eq_some_iff.mp hrun
    exact ih (h.step input hstep) hrest

theorem Reaches.mono (h : Reaches c said) (hsub : said' ⊆ said) : Reaches c said' := by
  obtain ⟨es, w, run, hc, hchain, hsaid⟩ := h
  exact ⟨es, w, run, hc, hchain, fun s hs => hsaid s (hsub hs)⟩

/-- The core in a later round of its sequence. -/
def Node.Core.later (c : Core (Fin 4)) (round : ℕ) (rcs : RoundChangeSet (Fin 4))
    (prepares : List Node.Prepare) : Core (Fin 4) :=
  { c with
    state := .acceptRequest
    proposer := Ibft.Node.ValidatorSet.calcProposer c.valSet .roundRobin 0 round
    current := c.updateRoundState ⟨c.current.sequence, round⟩ true
    roundChangeSet := rcs
    qbftPreparedPrepares := prepares }

theorem Reaches.timeout (h : Reaches c said) (hhead : c.AtHead lone.config loneNode) :
    ∃ rcs prepares, Reaches (c.later (c.current.round + 1) rcs prepares) said ∧
      (UInt64.ofNat (c.current.round + 1) = 0 →
        rcs = (RoundChangeSet.newRoundChangeSet c.valSet).newRound 0 ∧ prepares = []) := by
  have henter : c.startNewRound lone.config loneNode (c.current.round + 1) =
      c.enterRound lone.config loneNode ⟨c.current.sequence, c.current.round + 1⟩ true
        (c.current.round + 1) := by
    unfold Core.startNewRound
    rw [if_neg (not_le.mpr hhead.1), if_pos hhead.2, if_neg (by omega), if_neg (by omega)]
    rfl
  have hcore := (h.step .timeout (if_pos ⟨hhead, rfl⟩)).mono (List.subset_append_right _ _)
  change Reaches (c.startNewRound lone.config loneNode (c.current.round + 1)) said at hcore
  rw [henter] at hcore
  refine ⟨_, _, hcore, fun hzero => ?_⟩
  have htarget : UInt64.ofNat ((c.current.round : ℤ) + 1).natAbs = 0 := hzero
  exact ⟨by rw [if_pos htarget, htarget], if_pos htarget⟩

/-- Timeouts keep what a round change keeps. In a round that is zero for the source nothing is left of
the rounds between. -/
theorem Reaches.timeouts (h : Reaches c said) (hhead : c.AtHead lone.config loneNode) (n : ℕ) :
    ∃ rcs prepares, Reaches (c.later (c.current.round + (n + 1)) rcs prepares) said ∧
      (UInt64.ofNat (c.current.round + (n + 1)) = 0 →
        rcs = (RoundChangeSet.newRoundChangeSet c.valSet).newRound 0 ∧ prepares = []) := by
  induction n with
  | zero => exact h.timeout hhead
  | succ n ih =>
    obtain ⟨rcs, prepares, hlater, -⟩ := ih
    exact hlater.timeout hhead

end Lone

/-- The validator proposes a block in a round, and its PRE-PREPARE and PREPARE reach it. -/
def votes (round : ℕ) (p : Fin 4) : List (Input (Fin 4)) :=
  .request p ::
    [Message.preprepare ⟨⟨1, 1, round, [1]⟩, p, [], []⟩,
      .prepare ⟨⟨1, 1, round, [1]⟩, lone.blocks.hash p⟩].map fun m =>
        .message m.code ((m.encode lone.blocks).getD [])

/-- The core after inputs. -/
def coreAfter (inputs : List (Input (Fin 4))) (c : Core (Fin 4)) (said : List (Signed (Fin 4))) :
    Core (Fin 4) :=
  ((runAll loneStep inputs (c, said)).getD (c, said)).1

theorem Reaches.after {c : Core (Fin 4)} {said said' : List (Signed (Fin 4))}
    (h : Reaches c said) (inputs : List (Input (Fin 4)))
    (hsaid : (runAll loneStep inputs (c, said)).map Prod.snd = some said') :
    Reaches (coreAfter inputs c said) said' := by
  obtain ⟨x, hx, rfl⟩ := Option.map_eq_some_iff.mp hsaid
  rw [coreAfter, hx]
  exact h.run hx

/-- What the validator signs when it votes for a block. -/
def signedVotes (round : ℕ) (p : Fin 4) (digest : Hash) : List (Signed (Fin 4)) :=
  [⟨⟨1, round⟩, .commit digest []⟩, ⟨⟨1, round⟩, .prepare digest⟩, ⟨⟨1, round⟩, .preprepare p⟩]

/-- The core that has prepared the first block in round zero. -/
def decidedCore : Core (Fin 4) := coreAfter (votes 0 1) (lone.config.start loneNode 1) []

/-- The core in round `2 ^ 64`. -/
def wrappedCore : Core (Fin 4) :=
  decidedCore.later (2 ^ 64) ((RoundChangeSet.newRoundChangeSet [1]).newRound 0) []

theorem reaches_wrappedCore : Reaches wrappedCore (signedVotes 0 1 2) := by
  have hstart : Reaches (lone.config.start loneNode 1) [] := ⟨[], _, .nil _, rfl, rfl, nofun⟩
  have hdecided : Reaches decidedCore (signedVotes 0 1 2) := hstart.after _ (by decide +kernel)
  have hround : decidedCore.current.round = 0 := by decide +kernel
  have hvalSet : decidedCore.valSet = [1] := by decide +kernel
  obtain ⟨rcs, prepares, hreaches, hzero⟩ := hdecided.timeouts (by decide +kernel) (2 ^ 64 - 1)
  rw [hround, hvalSet] at hzero
  obtain ⟨rfl, rfl⟩ := hzero (by decide +kernel)
  rw [hround] at hreaches
  exact hreaches

/-- After `2 ^ 64` timeouts the validator prepares another block than the one it committed to, which
is then justified. -/
theorem unchecked_round_overwrites :
    ∃ es w rcs prepares, Run (step lone ∅) World.Assumed (init lone) es w ∧
      Quorum lone (fun a => ∃ commitSeal, w.Heard a ⟨⟨1, 0⟩, .commit 2 commitSeal⟩) ∧
      w.Authentic ⟨1, 2 ^ 64 + 1⟩ rcs prepares ∧
      isJustified (lone.blocks.hash 2) rcs prepares lone.quorumSize = .ok () ∧
      lone.blocks.hash 2 ≠ 2 := by
  have hreaches : Reaches _ (⟨⟨1, 2 ^ 64 + 1⟩, .roundChange (some (2 ^ 64, 3))⟩ ::
      (signedVotes (2 ^ 64) 2 3 ++ signedVotes 0 1 2)) :=
    reaches_wrappedCore.after (votes (2 ^ 64) 2 ++ [.timeout]) (by decide +kernel)
  obtain ⟨es, w, run, -, -, hsaid⟩ := hreaches
  refine ⟨es, w, [⟨⟨1, 1, 2 ^ 64 + 1, [1]⟩, some (2 ^ 64), 3⟩], [⟨⟨1, 1, 2 ^ 64, [1]⟩, 3⟩], run, ?_, ?_,
    by decide +kernel, by decide⟩
  · refine ⟨{1}, by decide, by decide, fun a ha => ⟨[], ?_⟩⟩
    rw [Finset.mem_singleton.mp ha]
    exact hsaid _ (by decide +kernel)
  · refine ⟨List.nodup_singleton _, fun rc hrc => ?_, List.nodup_singleton _, fun q hq => ?_⟩
    · cases List.mem_singleton.mp hrc
      exact ⟨List.mem_singleton.mpr rfl, rfl, hsaid _ (by decide +kernel)⟩
    · cases List.mem_singleton.mp hq
      exact ⟨1, List.mem_singleton.mpr rfl, by decide +kernel, rfl, hsaid _ (by decide +kernel)⟩

end Wormholes.Consensus.Qbft
