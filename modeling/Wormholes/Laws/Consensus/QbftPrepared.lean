import Wormholes.Laws.Consensus.QbftRoundChangeSet

/-!
# Laws.Consensus.QbftPrepared — a core can justify the block it has prepared

A core that has prepared a block keeps the PREPARE messages it did so with, and puts both into its
ROUND-CHANGE messages. Within a sequence its prepared round only grows, so it prepares one block of a
round. The source drops the PREPARE messages in round zero, where nothing is prepared, and takes every
multiple of `2 ^ 64` for round zero: `roundChange_justified` is about the runs in which no core with a
prepared block times out into such a round; in `prepares_dropped` one does.
-/

namespace Wormholes.Consensus.Qbft.Node

open Lib Common
open Ibft (View)

variable {P : Type} {G : Config P} {b b' b'' : Stage P} {c : Core P} {e : Event P}
variable {vote : Option Vote} {committed : Option P} {es : List (Event P)}

/-- Messages of different validators, for a view and a digest. -/
structure Ballots {M : Type} (payload : M → CommonPayload) (digest : M → Hash) (valSet : List Address)
    (view : View) (proposal : Option Hash) (ms : List M) : Prop where
  distinct : (ms.map fun m => (payload m).source).Nodup
  vote : ∀ m ∈ ms,
    (payload m).source ∈ valSet ∧ (payload m).view = view ∧ proposal = some (digest m)

theorem ballots_nil {M : Type} {payload : M → CommonPayload} {digest : M → Hash}
    {valSet : List Address} {view : View} {proposal : Option Hash} :
    Ballots payload digest valSet view proposal [] := ⟨List.nodup_nil, nofun⟩

theorem Ballots.add {M : Type} {payload : M → CommonPayload} {digest : M → Hash} {ms : List M} {m : M}
    {p : P} (h : Ballots payload digest b.valSet b.view (b.proposal.map G.blocks.hash) ms)
    (hm : b.Counts G p (payload m) (digest m)) :
    Ballots payload digest b.valSet b.view (b.proposal.map G.blocks.hash)
      (addMessage (fun m => (payload m).source) m ms) where
  distinct := by
    rw [addMessage, List.map_cons, List.nodup_cons]
    exact ⟨by simp, (List.filter_sublist.map _).nodup h.distinct⟩
  vote := by
    intro m' hm'
    rcases mem_addMessage.mp hm' with rfl | ⟨hm', -⟩
    · exact ⟨hm.source, hm.view, by rw [hm.proposal, hm.digest, Option.map_some]⟩
    · exact h.vote m' hm'

/-- What a core counts is for its view and its proposal. -/
structure Stage.Tallied (G : Config P) (b : Stage P) : Prop where
  fresh : b.state = .acceptRequest → b.prepares = [] ∧ b.commits = []
  prepares : Ballots Prepare.toCommonPayload Prepare.digest b.valSet b.view
    (b.proposal.map G.blocks.hash) b.prepares
  commits : Ballots Commit.toCommonPayload Commit.digest b.valSet b.view
    (b.proposal.map G.blocks.hash) b.commits

theorem tallied_of_nil (hprepares : b.prepares = []) (hcommits : b.commits = []) : b.Tallied G where
  fresh := fun _ => ⟨hprepares, hcommits⟩
  prepares := by
    rw [hprepares]
    exact ballots_nil
  commits := by
    rw [hcommits]
    exact ballots_nil

theorem Move.tallied (hmove : Move G c e b b' vote committed) (h : b.Tallied G) : b'.Tallied G := by
  cases hmove with
  | quiet => exact h
  | accepted m hm haccept hstate hview => exact tallied_of_nil (h.fresh hstate).1 (h.fresh hstate).2
  | counted p m hm hstate hcounts =>
    exact
      { h with
        fresh := fun hacc => absurd (hstate.symm.trans hacc) nofun
        prepares := h.prepares.add hcounts }
  | prepared p m hm hstate hcounts hquorum =>
    exact { h with fresh := nofun, prepares := h.prepares.add hcounts }
  | countedCommit p m hm hstate hcounts =>
    exact
      { h with
        fresh := fun hacc => absurd (hstate.symm.trans hacc) nofun
        commits := h.commits.add hcounts }
  | committed p m hm hstate hcounts hquorum =>
    exact { h with fresh := nofun, commits := h.commits.add hcounts }
  | entered => exact tallied_of_nil rfl rfl
  | sequence => exact tallied_of_nil rfl rfl
  | strayed => exact tallied_of_nil rfl rfl
  | early => exact h

/-- What a core counts is for its proposal, what it has prepared has a quorum behind it, and it has
prepared nothing in a round before it counts. -/
structure Stage.Sound (G : Config P) (b : Stage P) : Prop extends b.Tallied G where
  before : ∀ r, b.preparedRound = some r → r ≤ b.view.round ∧
    (b.state = .acceptRequest ∨ b.state = .preprepared → r < b.view.round)
  backed : ∀ r, b.preparedRound = some r → ∃ p, b.preparedBlock = some p ∧
    Ballots Prepare.toCommonPayload Prepare.digest b.valSet ⟨b.view.sequence, r⟩
      (some (G.blocks.hash p)) b.preparedPrepares ∧
    b.quorum G ≤ b.preparedPrepares.length

theorem Filed.sound (hfiled : Filed G b b') (h : b.Sound G) : b'.Sound G := by
  cases hfiled with
  | none => exact h
  | file m => exact { h with }

theorem Move.sound (hmove : Move G c e b b' vote committed)
    (hwraps : c.Wraps G e → b.preparedRound = none) (h : b.Sound G) : b'.Sound G := by
  have htallied := hmove.tallied h.toTallied
  cases hmove with
  | quiet => exact h
  | accepted m hm haccept hstate hview =>
    exact ⟨htallied, fun r hr => ⟨(h.before r hr).1, fun _ => (h.before r hr).2 (Or.inl hstate)⟩,
      h.backed⟩
  | counted p m hm hstate hcounts => exact ⟨htallied, h.before, h.backed⟩
  | prepared p m hm hstate hcounts hquorum =>
    refine ⟨htallied, fun r hr => ?_, fun r hr => ?_⟩
    · cases hr
      exact ⟨le_rfl, fun hstate => by rcases hstate with h | h <;> cases h⟩
    · cases hr
      have hballots := h.prepares.add hcounts
      rw [hcounts.proposal] at hballots
      exact ⟨p, rfl, hballots, hquorum⟩
  | countedCommit p m hm hstate hcounts => exact ⟨htallied, h.before, h.backed⟩
  | committed p m hm hstate hcounts hquorum =>
    refine ⟨htallied, fun r hr => ⟨(h.before r hr).1, fun hstate => ?_⟩, h.backed⟩
    rcases hstate with h | h <;> cases h
  | entered round hlt hzero =>
    refine ⟨htallied, fun r hr => ?_, fun r hr => ?_⟩
    · have hle := (h.before r hr).1
      exact ⟨hle.trans hlt.le, fun _ => hle.trans_lt hlt⟩
    · have hkept : UInt64.ofNat round ≠ 0 :=
        fun hz => absurd ((hwraps (hzero hz)).symm.trans hr) nofun
      obtain ⟨p, hp, hvotes, hquorum⟩ := h.backed r hr
      refine ⟨p, hp, ?_⟩
      simp only [Stage.next, Stage.quorum, if_neg hkept]
      exact ⟨hvotes, hquorum⟩
  | sequence => exact ⟨htallied, nofun, nofun⟩
  | strayed => exact ⟨htallied, nofun, nofun⟩
  | early => exact h

/-- A later stage is of a later sequence, or has a later prepared round, or the same block. -/
def Stage.After (b b' : Stage P) : Prop :=
  b.view.sequence < b'.view.sequence ∨ b.view.sequence = b'.view.sequence ∧
    ∀ r, b.preparedRound = some r → ∃ r', b'.preparedRound = some r' ∧
      (r < r' ∨ r = r' ∧ b'.preparedBlock = b.preparedBlock)

theorem after_of_eq (hsequence : b.view.sequence = b'.view.sequence)
    (hround : b'.preparedRound = b.preparedRound) (hblock : b'.preparedBlock = b.preparedBlock) :
    b.After b' :=
  Or.inr ⟨hsequence, fun r hr => ⟨r, hround.trans hr, Or.inr ⟨rfl, hblock⟩⟩⟩

theorem Stage.After.trans (h : b.After b') (h' : b'.After b'') : b.After b'' := by
  rcases h with hlt | ⟨heq, hall⟩
  · rcases h' with hlt' | ⟨heq', -⟩
    · exact Or.inl (hlt.trans hlt')
    · exact Or.inl (heq' ▸ hlt)
  · rcases h' with hlt' | ⟨heq', hall'⟩
    · exact Or.inl (heq ▸ hlt')
    · refine Or.inr ⟨heq.trans heq', fun r hr => ?_⟩
      obtain ⟨r', hr', hle⟩ := hall r hr
      obtain ⟨r'', hr'', hle'⟩ := hall' r' hr'
      refine ⟨r'', hr'', ?_⟩
      rcases hle with hlt | ⟨rfl, hblock⟩
      · exact Or.inl (hle'.elim hlt.trans fun h => h.1 ▸ hlt)
      · exact hle'.imp_right fun h => ⟨h.1, h.2.trans hblock⟩

theorem Move.after (hmove : Move G c e b b' vote committed) (h : b.Sound G) : b.After b' := by
  cases hmove with
  | prepared p m hm hstate hcounts hquorum =>
    exact Or.inr ⟨rfl, fun r hr => ⟨_, rfl, Or.inl ((h.before r hr).2 (Or.inr hstate))⟩⟩
  | sequence _ hlt => exact Or.inl hlt
  | strayed _ _ _ hlt => exact Or.inl hlt
  | _ => exact after_of_eq rfl rfl rfl

/-- No core with a prepared block times out into a round that the source takes for round zero. -/
def Core.Remembers (G : Config P) (c : Core P) (e : Event P) : Prop :=
  c.Wraps G e → c.current.preparedRound = none

theorem handle_sound {out : Out P} (h : c.stage.Sound G) (hok : c.Remembers G e)
    (hout : c.handle G e = some out) : out.core.stage.Sound G ∧ c.stage.After out.core.stage := by
  obtain ⟨c', hfiled, vote, hmove, -⟩ := handle_turns hout
  have hsame : c.stage.After c'.stage ∧ c'.stage.preparedRound = c.stage.preparedRound := by
    generalize c'.stage = b at hfiled
    cases hfiled <;> exact ⟨after_of_eq rfl rfl rfl, rfl⟩
  have h' := hfiled.sound h
  exact ⟨hmove.sound (fun hwraps => hsame.2.trans (hok hwraps)) h', hsame.1.trans (hmove.after h')⟩

theorem run_sound {c' : Core P} (h : c.stage.Sound G)
    (run : Run (step G) (Core.Remembers G) c es c') :
    c'.stage.Sound G ∧ c.stage.After c'.stage := by
  refine run.invariant (P := fun c' => c'.stage.Sound G ∧ c.stage.After c'.stage)
    ⟨h, after_of_eq rfl rfl rfl⟩ fun hinv hok hstep => ?_
  obtain ⟨out, hout, rfl⟩ := Option.map_eq_some_iff.mp hstep
  obtain ⟨hsound, hafter⟩ := handle_sound hinv.1 hok hout
  exact ⟨hsound, hinv.2.trans hafter⟩

/-- A core that has prepared a block has the PREPARE messages of a quorum for it, every ROUND-CHANGE it
broadcasts with a prepared round passes the check of a receiver with the same validators, and it
prepares one block of a round. -/
theorem roundChange_justified (G : Config P) (B : Backend P) (address : Address)
    (es : List (Event P)) (c : Core P)
    (run : Run (step G) (Core.Remembers G) (G.start B address) es c) :
    (∀ r, c.current.preparedRound = some r → r ≤ c.current.round ∧
      ∃ p, c.current.preparedBlock = some p ∧
        (c.qbftPreparedPrepares.map fun q => q.source).Nodup ∧
        c.quorum G ≤ c.qbftPreparedPrepares.length ∧
        ∀ q ∈ c.qbftPreparedPrepares, q.source ∈ c.valSet ∧ q.sequence = c.current.sequence ∧
          q.round = r ∧ q.digest = G.blocks.hash p) ∧
      (∀ e out m, c.Remembers G e → c.handle G e = some out → Message.roundChange m ∈ out.sent →
        m.preparedRound ≠ none → ∀ receiver : Core P, receiver.valSet = out.core.valSet →
          receiver.current.sequence = m.sequence →
          hasMatchingRoundChangeAndPrepares m.toSignedRoundChangePayload m.justification
            (receiver.quorum G) = .ok ()) ∧
      ∀ es' c' r, Run (step G) (Core.Remembers G) c es' c' →
        c'.current.sequence = c.current.sequence → c.current.preparedRound = some r →
        c'.current.preparedRound = some r → c'.current.preparedBlock = c.current.preparedBlock := by
  have hstart : (G.start B address).stage.Sound G := ⟨tallied_of_nil rfl rfl, nofun, nofun⟩
  have hsound := (run_sound hstart run).1
  refine ⟨fun r hr => ?_, ?_, ?_⟩
  · obtain ⟨p, hp, hvotes, hquorum⟩ := hsound.backed r hr
    refine ⟨(hsound.before r hr).1, p, hp, hvotes.distinct, hquorum, fun q hq => ?_⟩
    obtain ⟨hsource, hview, hdigest⟩ := hvotes.vote q hq
    exact ⟨hsource, congrArg View.sequence hview, congrArg View.round hview,
      (Option.some.inj hdigest).symm⟩
  · intro e out m hok hout hm hne receiver hvalSet hsequence
    obtain ⟨-, -, vote, -, -, hvoices⟩ := handle_turns hout
    cases hvoices _ hm
    obtain ⟨r, hr⟩ := Option.ne_none_iff_exists'.mp hne
    obtain ⟨p, hp, hvotes, hquorum⟩ := (handle_sound hsound hok hout).1.backed r hr
    have hreceiver : receiver.quorum G = out.core.stage.quorum G := by
      unfold Core.quorum
      rw [hvalSet, hsequence]
      rfl
    rw [hreceiver]
    refine hasMatching_eq_ok_iff.mpr ⟨hquorum, fun q hq => ?_⟩
    obtain ⟨-, hview, hdigest⟩ := hvotes.vote q hq
    refine ⟨?_, hr.trans (congrArg some (congrArg View.round hview).symm)⟩
    simp only [Stage.roundChange, hp, Option.map_some, Option.getD_some]
    exact (Option.some.inj hdigest).symm
  · intro es' c' r run' hsequence hr hr'
    rcases (run_sound hsound run').2 with hlt | ⟨-, hall⟩
    · exact absurd hlt (by simp [Core.stage, Core.currentView, hsequence])
    · obtain ⟨r', hr'', hle⟩ := hall r hr
      cases hr'.symm.trans hr''
      exact (hle.resolve_left (lt_irrefl r)).2

/-! ## The lone validator -/

/-- The lone validator's proposal and its PREPARE in round zero. -/
def loneEvents : List (Event ℕ) :=
  [⟨.message preprepareCode (bytes (.preprepare ⟨⟨1, 2, 0, [1]⟩, 2, [], []⟩)), plainBackend 1 [1]⟩,
    ⟨.message prepareCode (bytes (.prepare ⟨⟨1, 2, 0, [1]⟩, 2⟩)), plainBackend 1 [1]⟩]

theorem runAll_loneEvents :
    ∃ c, runAll (step plainConfig) loneEvents loneCore = some c ∧ c.currentView = ⟨2, 0⟩ ∧
      c.valSet = [1] ∧ c.current.preparedRound = some 0 := by
  obtain ⟨c, hc⟩ : ∃ c, runAll (step plainConfig) loneEvents loneCore = some c :=
    Option.isSome_iff_exists.mp (by decide +kernel)
  have hreached : (runAll (step plainConfig) loneEvents loneCore).map
      (fun c => (c.currentView, c.valSet, c.current.preparedRound)) =
        some (⟨2, 0⟩, [1], some 0) := by
    decide +kernel
  rw [hc] at hreached
  obtain ⟨hview, hrest⟩ := Prod.ext_iff.mp (Option.some.inj hreached)
  exact ⟨c, hc, hview, Prod.ext_iff.mp hrest⟩

/-- The proposal of the first of four validators and the PREPARE messages of three. -/
def fourEvents : List (Event ℕ) :=
  ⟨.message preprepareCode (bytes (.preprepare ⟨⟨1, 2, 0, [1]⟩, 2, [], []⟩)),
      plainBackend 1 [1, 2, 3, 4]⟩ ::
    [1, 2, 3].map fun n => ⟨.message prepareCode (bytes (.prepare ⟨⟨.ofNat 160 n, 2, 0, [n]⟩, 2⟩)),
      plainBackend 1 [1, 2, 3, 4]⟩

/-- The sequences and prepared rounds of the ROUND-CHANGE messages among those sent. -/
def changesOf (sent : List (Message ℕ)) : List (ℕ × Option ℕ) :=
  sent.filterMap fun m =>
    match m with
    | .roundChange m => some (m.sequence, m.preparedRound)
    | _ => none

/-- One of four validators has prepared a block. The ROUND-CHANGE it broadcasts at a timeout carries the
PREPARE messages of the other two and its own, and passes the check of a receiver. -/
theorem roundChange_justified_four :
    ∃ c out m, Run (step plainConfig) (Core.Remembers plainConfig)
        (plainConfig.start (plainBackend 1 [1, 2, 3, 4]) 1) fourEvents c ∧
      c.current.preparedRound = some 0 ∧ c.quorum plainConfig ≤ c.qbftPreparedPrepares.length ∧
      c.handle plainConfig ⟨.timeout, plainBackend 1 [1, 2, 3, 4]⟩ = some out ∧
      Message.roundChange m ∈ out.sent ∧ m.preparedRound = some 0 ∧
      hasMatchingRoundChangeAndPrepares m.toSignedRoundChangePayload m.justification
        (out.core.quorum plainConfig) = .ok () := by
  obtain ⟨c, hc, hout⟩ := Option.bind_eq_some_iff.mp (show
    (runAll (step plainConfig) fourEvents (plainConfig.start (plainBackend 1 [1, 2, 3, 4]) 1)).bind
      (fun c => (c.handle plainConfig ⟨.timeout, plainBackend 1 [1, 2, 3, 4]⟩).map fun out =>
        (c.currentView, c.current.preparedRound, out.core.current.sequence, changesOf out.sent)) =
          some (⟨2, 0⟩, some 0, 2, [(2, some 0)]) from by decide +kernel)
  obtain ⟨out, hout, hvalues⟩ := Option.map_eq_some_iff.mp hout
  obtain ⟨hview, hround, hsequence, hsent⟩ : _ ∧ _ ∧ _ ∧ _ := by simpa only [Prod.mk.injEq] using hvalues
  have run : Run (step plainConfig) (Core.Remembers plainConfig)
      (plainConfig.start (plainBackend 1 [1, 2, 3, 4]) 1) fourEvents c := by
    refine Run.of_runAll (fun u e he hwraps => ?_) hc
    -- no event is a timeout
    rcases List.mem_cons.mp he with rfl | hprepare
    · cases hwraps.1
    · obtain ⟨n, -, rfl⟩ := List.mem_map.mp hprepare
      cases hwraps.1
  obtain ⟨hprepared, hpasses, -⟩ :=
    roundChange_justified plainConfig (plainBackend 1 [1, 2, 3, 4]) 1 fourEvents c run
  obtain ⟨-, p, -, -, hquorum, -⟩ := hprepared 0 hround
  have hremembers : c.Remembers plainConfig ⟨.timeout, plainBackend 1 [1, 2, 3, 4]⟩ := by
    intro hwraps
    have hzero := hwraps.2.2
    rw [show c.current.round = 0 from congrArg View.round hview] at hzero
    cases hzero
  obtain ⟨x, hx, hsome⟩ := List.mem_filterMap.mp
    (show (2, some 0) ∈ changesOf out.sent from by rw [hsent]; exact List.mem_singleton.mpr rfl)
  cases x with
  | roundChange m =>
    obtain ⟨hsame, hm⟩ := Prod.mk.inj (Option.some.inj hsome)
    refine ⟨c, out, m, run, hround, hquorum, hout, hx, hm, ?_⟩
    exact hpasses _ out m hremembers hout hx (by rw [hm]; exact Option.some_ne_none 0) out.core rfl
      (hsequence.trans hsame.symm)
  | _ => cases hsome

/-- Timeouts at the head lead from round to round and leave the prepared round, but the PREPARE
messages for it are gone in a round that is zero for the source. -/
theorem run_timeouts {B : Backend P} {c₀ : Core P} (run : Run (step G) (fun _ _ => True) c₀ es c)
    (hhead : c.AtHead G B) (n : ℕ) :
    ∃ c', Run (step G) (fun _ _ => True) c₀ (es ++ List.replicate n ⟨.timeout, B⟩) c' ∧
      c'.currentView = ⟨c.current.sequence, c.current.round + n⟩ ∧
      c'.valSet = c.valSet ∧ c'.current.preparedRound = c.current.preparedRound ∧
      (n ≠ 0 → UInt64.ofNat (c.current.round + n) = 0 → c'.qbftPreparedPrepares = []) := by
  induction n with
  | zero => exact ⟨c, by simpa using run, rfl, rfl, rfl, fun h => absurd rfl h⟩
  | succ n ih =>
    obtain ⟨c', run', hview, hvalSet, hprepared, -⟩ := ih
    have hsequence : c'.current.sequence = c.current.sequence := congrArg View.sequence hview
    have hround : c'.current.round = c.current.round + n := congrArg View.round hview
    have hhead' : c'.AtHead G B := by
      unfold Core.AtHead
      rw [hsequence]
      exact hhead
    have hstage : (c'.startNewRound G B (c'.current.round + 1)).stage =
        c'.stage.next (c.current.round + (n + 1)) := by
      rw [stage_startNewRound hhead' (by omega), hround]
      rfl
    refine ⟨c'.startNewRound G B (c'.current.round + 1), ?_, ?_, ?_, ?_, fun _ hzero => ?_⟩
    · rw [List.replicate_succ', ← List.append_assoc]
      exact run'.snoc trivial rfl
    · refine (congrArg Stage.view hstage).trans ?_
      simp only [Stage.next, Core.stage, hview]
    · exact (congrArg Stage.valSet hstage).trans hvalSet
    · exact (congrArg Stage.preparedRound hstage).trans hprepared
    · exact (congrArg Stage.preparedPrepares hstage).trans (if_pos hzero)

/-- After `2 ^ 64` timeouts a core that has prepared a block has no PREPARE message for it. A ROUND-CHANGE
of another validator does not take it there: the source casts the round it joins to an `int`. -/
theorem prepares_dropped :
    ∃ es c, Run (step plainConfig) (fun _ _ => True) loneCore es c ∧
      c.current.preparedRound = some 0 ∧
      (c.qbftPreparedPrepares.length : ℤ) < c.quorum plainConfig := by
  obtain ⟨c, hc, hview, hvalSet, hround⟩ := runAll_loneEvents
  have hhead : c.AtHead plainConfig (plainBackend 1 [1]) := by
    have hsequence : c.current.sequence = 2 := congrArg View.sequence hview
    unfold Core.AtHead
    rw [hsequence]
    decide +kernel
  obtain ⟨c', run, -, hvalSet', hprepared, hdropped⟩ :=
    run_timeouts (Run.of_runAll (fun _ _ _ => trivial) hc) hhead (2 ^ 64)
  have hzero : UInt64.ofNat (c.current.round + 2 ^ 64) = 0 := by
    rw [show c.current.round = 0 from congrArg View.round hview]
    decide +kernel
  refine ⟨_, c', run, hprepared.trans hround, ?_⟩
  rw [hdropped (by decide) hzero]
  exact one_le_quorum (by simp [hvalSet', hvalSet])

end Wormholes.Consensus.Qbft.Node
