import Mathlib.Order.Bounds.Basic
import Wormholes.Laws.Consensus.QbftJustification
import Wormholes.Laws.Consensus.QbftNode
import Wormholes.Laws.Consensus.QbftTypes
import Wormholes.Lib.Run

/-!
# Laws.Consensus.QbftRoundChangeSet — what a round-change set remembers

A set keeps the last ROUND-CHANGE of each validator for a round and, in three maps beside them, the
highest prepared round, its block and its PREPARE messages. `file_of_carries` and `file_of_lower` say
what filing a message does. The maps are raised by a message that carries a block prepared later than
the highest one and are never lowered, while the message that raised them goes when its sender sends
another for the same round. `highest_prepared_backed` is about the runs in which no last backer goes
that way; in `lone_backer_replaced` one does.
-/

namespace Wormholes.Consensus.Qbft.Node

open Lib Common

variable {P : Type}
variable {preparedRound : ℕ} {p : P} {C : BlockCodec P}
variable {α : Type} {s : Rlp.Stream} {rcs' : RoundChangeSet P}
variable {m : RoundChange P} {quorumSize : ℤ}

/-! ## Message sets -/

theorem mem_addMessage {source : α → Address} {m m' : α} {messages : List α} :
    m' ∈ addMessage source m messages ↔ m' = m ∨ (m' ∈ messages ∧ source m' ≠ source m) := by
  simp only [addMessage, List.mem_cons, List.mem_filter, decide_eq_true_eq]

theorem find?_filter_of_imp {l : List α} {p q : α → Bool} (h : ∀ a ∈ l, p a = true → q a = true) :
    (l.filter q).find? p = l.find? p := by
  induction l with
  | nil => rfl
  | cons a l ih =>
    have ih := ih fun b hb => h b (List.mem_cons_of_mem a hb)
    by_cases hq : q a = true
    · rw [List.filter_cons_of_pos hq, List.find?_cons, List.find?_cons, ih]
    · have hp : p a = false := by
        rw [← Bool.not_eq_true]
        exact fun hp => hq (h a List.mem_cons_self hp)
      rw [List.filter_cons_of_neg hq, List.find?_cons, hp, ih]

namespace RoundChangeSet

variable {rcs : RoundChangeSet P} {k k' : UInt64} {m m' : RoundChange P} {quorumSize : ℤ}

/-- The messages of a round. -/
def stored (rcs : RoundChangeSet P) (k : UInt64) : List (RoundChange P) := (rcs.messages? k).getD []

/-- No round has two message sets. -/
def Keyed (rcs : RoundChangeSet P) : Prop := (rcs.roundChanges.map Prod.fst).Nodup

theorem keyed_newRoundChangeSet (valSet : List Address) :
    (newRoundChangeSet valSet : RoundChangeSet P).Keyed := List.nodup_nil

theorem messages?_eq_none_iff : rcs.messages? k = none ↔ k ∉ rcs.roundChanges.map Prod.fst := by
  simp only [messages?, Option.map_eq_none_iff, List.find?_eq_none, decide_eq_true_eq, List.mem_map,
    not_exists, not_and]

theorem stored_store_self (rcs : RoundChangeSet P) (k : UInt64) (m : RoundChange P) :
    (rcs.store k m).stored k = addMessage (fun m : RoundChange P => m.source) m (rcs.stored k) := by
  simp only [stored, messages?, store, List.find?_cons, decide_true, Option.map_some,
    Option.getD_some]

theorem stored_store_of_ne (hne : k' ≠ k) : (rcs.store k m).stored k' = rcs.stored k' := by
  have hfind : (rcs.roundChanges.filter fun r => r.1 ≠ k).find? (fun r => decide (r.1 = k')) =
      rcs.roundChanges.find? fun r => decide (r.1 = k') := by
    apply find?_filter_of_imp
    intro r _ hr
    rw [decide_eq_true_eq] at hr ⊢
    exact hr ▸ hne
  simp only [stored, messages?, store, List.find?_cons, hne.symm, decide_false, hfind]

theorem Keyed.store (h : rcs.Keyed) (k : UInt64) (m : RoundChange P) : (rcs.store k m).Keyed := by
  unfold Keyed RoundChangeSet.store
  rw [List.map_cons, List.nodup_cons]
  constructor
  · simp
  · exact (List.filter_sublist.map _).nodup h

theorem stored_newRound (rcs : RoundChangeSet P) (k k' : UInt64) :
    (rcs.newRound k).stored k' = rcs.stored k' := by
  unfold newRound
  cases hk : rcs.messages? k with
  | some messages => rfl
  | none =>
    by_cases heq : k = k'
    · subst heq
      simp only [stored, hk]
      simp only [messages?, List.find?_cons, decide_true, Option.map_some, Option.getD_some,
        Option.getD_none]
    · simp only [stored, messages?, List.find?_cons, heq, decide_false]

theorem Keyed.newRound (h : rcs.Keyed) (k : UInt64) : (rcs.newRound k).Keyed := by
  unfold RoundChangeSet.newRound
  cases hk : rcs.messages? k with
  | some messages => exact h
  | none => exact List.nodup_cons.mpr ⟨messages?_eq_none_iff.mp hk, h⟩

theorem newRound_maps (rcs : RoundChangeSet P) (k : UInt64) :
    (rcs.newRound k).validatorSet = rcs.validatorSet ∧
      (rcs.newRound k).prepareMessages = rcs.prepareMessages ∧
      (rcs.newRound k).highestPreparedRound = rcs.highestPreparedRound ∧
      (rcs.newRound k).highestPreparedBlock = rcs.highestPreparedBlock := by
  unfold newRound
  split <;> exact ⟨rfl, rfl, rfl, rfl⟩

/-- A round is cleared as a whole or not at all. -/
theorem clearLowerThan_cases (h : rcs.Keyed) (round k : UInt64) :
    ((rcs.clearLowerThan round).stored k = [] ∧
        (rcs.clearLowerThan round).highestPreparedRound k = none ∧
        (rcs.clearLowerThan round).highestPreparedBlock k = none) ∨
      ((rcs.clearLowerThan round).stored k = rcs.stored k ∧
        (rcs.clearLowerThan round).prepareMessages k = rcs.prepareMessages k ∧
        (rcs.clearLowerThan round).highestPreparedRound k = rcs.highestPreparedRound k ∧
        (rcs.clearLowerThan round).highestPreparedBlock k = rcs.highestPreparedBlock k) := by
  cases hgone : rcs.roundChanges.any fun r => r.1 = k ∧ (r.2 = [] ∨ k < round) with
  | true =>
    refine Or.inl ⟨?_, by simp only [clearLowerThan, hgone, if_true], by
      simp only [clearLowerThan, hgone, if_true]⟩
    obtain ⟨r, hr, hcond⟩ := List.any_eq_true.mp hgone
    obtain ⟨rfl, hcond⟩ := of_decide_eq_true hcond
    have hnone : (rcs.clearLowerThan round).messages? r.1 = none := by
      apply messages?_eq_none_iff.mpr
      intro hmem
      obtain ⟨r', hr', hkey⟩ := List.mem_map.mp hmem
      obtain ⟨hr', hkept⟩ := List.mem_filter.mp hr'
      -- the round has no other message set that could stay
      rw [List.inj_on_of_nodup_map h hr' hr hkey] at hkept
      exact of_decide_eq_true hkept hcond
    rw [stored, hnone, Option.getD_none]
  | false =>
    refine Or.inr ⟨?_, by simp only [clearLowerThan, hgone]; rfl, by
      simp only [clearLowerThan, hgone]; rfl, by simp only [clearLowerThan, hgone]; rfl⟩
    have hfind : (rcs.clearLowerThan round).roundChanges.find? (fun r => decide (r.1 = k)) =
        rcs.roundChanges.find? fun r => decide (r.1 = k) := by
      apply find?_filter_of_imp
      intro r hr hkey
      have hstays := List.any_eq_false.mp hgone r hr
      rw [decide_eq_true_eq] at hkey hstays ⊢
      exact fun hcond => hstays ⟨hkey, hkey ▸ hcond⟩
    rw [stored, messages?, hfind]
    rfl

theorem Keyed.clearLowerThan (h : rcs.Keyed) (round : UInt64) : (rcs.clearLowerThan round).Keyed :=
  (List.filter_sublist.map _).nodup h

end RoundChangeSet

/-! ## Filing a message -/

/-- The message carries a prepared block with a quorum of PREPARE messages that match it. -/
structure RoundChange.Carries (quorumSize : ℤ) (m : RoundChange P) (preparedRound : ℕ) (p : P) :
    Prop where
  preparedRound : m.preparedRound = some preparedRound
  preparedBlock : m.preparedBlock = some p
  justification : m.justification ≠ []
  matching : hasMatchingRoundChangeAndPrepares m.toSignedRoundChangePayload m.justification
    quorumSize = .ok ()

theorem carried_of_carries (h : m.Carries quorumSize preparedRound p) :
    Core.carried m = (some preparedRound, some p, m.justification) := by
  unfold Core.carried
  rw [if_pos ⟨by simp [h.preparedRound], by simp [h.preparedBlock], h.justification⟩,
    h.preparedRound, h.preparedBlock]

theorem carries_of_carried (h : (Core.carried m).1 = some preparedRound)
    (hmatching : hasMatchingRoundChangeAndPrepares m.toSignedRoundChangePayload
      (Core.carried m).2.2 quorumSize = .ok ()) : ∃ p, m.Carries quorumSize preparedRound p := by
  unfold Core.carried at h hmatching
  split at h
  next hall =>
    obtain ⟨p, hp⟩ := Option.isSome_iff_exists.mp hall.2.1
    rw [if_pos hall] at hmatching
    exact ⟨p, h, hp, hall.2.2, hmatching⟩
  · cases h

namespace RoundChangeSet

variable {rcs : RoundChangeSet P} {m : RoundChange P} {quorumSize : ℤ}

/-- The set with a message that raises the highest prepared round. -/
def raise (rcs : RoundChangeSet P) (m : RoundChange P) (preparedRound : ℕ) (p : P) :
    RoundChangeSet P :=
  let k := UInt64.ofNat m.round
  { rcs.store k m with
    highestPreparedRound := Function.update rcs.highestPreparedRound k (some preparedRound)
    highestPreparedBlock := Function.update rcs.highestPreparedBlock k (some (some p))
    prepareMessages := Function.update rcs.prepareMessages k m.justification }

theorem file_of_carries (h : m.Carries quorumSize preparedRound p)
    (hhigher : ∀ r ∈ rcs.highestPreparedRound (.ofNat m.round), r < preparedRound) :
    rcs.file m quorumSize = rcs.raise m preparedRound p := by
  unfold file add
  simp only [carried_of_carries h]
  rw [if_pos ⟨hhigher, h.matching⟩]
  rfl

theorem file_of_lower
    (h : ∀ preparedRound p, m.Carries quorumSize preparedRound p →
      ∃ r ∈ rcs.highestPreparedRound (.ofNat m.round), preparedRound ≤ r) :
    rcs.file m quorumSize = rcs.store (.ofNat m.round) m := by
  unfold file add
  cases hcarried : (Core.carried m).1 with
  | none => rfl
  | some preparedRound =>
    apply if_neg
    intro hraises
    obtain ⟨p, hp⟩ := carries_of_carried hcarried hraises.2
    obtain ⟨r, hr, hle⟩ := h preparedRound p hp
    exact absurd (hraises.1 r hr) (not_lt.mpr hle)

/-- Filing a message stores it, and may raise the highest prepared round of its own round. -/
theorem file_cases (rcs : RoundChangeSet P) (m : RoundChange P) (quorumSize : ℤ) :
    (∃ preparedRound p, m.Carries quorumSize preparedRound p ∧
        (∀ r ∈ rcs.highestPreparedRound (.ofNat m.round), r < preparedRound) ∧
        rcs.file m quorumSize = rcs.raise m preparedRound p) ∨
      ((∀ preparedRound p, m.Carries quorumSize preparedRound p →
          ∃ r ∈ rcs.highestPreparedRound (.ofNat m.round), preparedRound ≤ r) ∧
        rcs.file m quorumSize = rcs.store (.ofNat m.round) m) := by
  by_cases h : ∃ preparedRound p, m.Carries quorumSize preparedRound p ∧
      ∀ r ∈ rcs.highestPreparedRound (.ofNat m.round), r < preparedRound
  · obtain ⟨preparedRound, p, hcarries, hhigher⟩ := h
    exact Or.inl ⟨preparedRound, p, hcarries, hhigher, file_of_carries hcarries hhigher⟩
  · have hlower : ∀ preparedRound p, m.Carries quorumSize preparedRound p →
        ∃ r ∈ rcs.highestPreparedRound (.ofNat m.round), preparedRound ≤ r := by
      intro preparedRound p hcarries
      by_contra hnone
      push Not at hnone
      exact h ⟨preparedRound, p, hcarries, hnone⟩
    exact Or.inr ⟨hlower, file_of_lower hlower⟩

end RoundChangeSet

/-! ## Received messages -/

/-- The message went through `Decode` and `verifySignatures` at some core. -/
def RoundChange.Received (G : Config P) (m : RoundChange P) : Prop :=
  ∃ (c : Core P) (code : ℕ) (data : List ℕ), c.receive G code data = .ok (.roundChange m)

theorem decodeBlock_hash {digest : Hash} {r : Option P × Rlp.Stream}
    (h : decodeBlock C digest s = some r) : ∀ p ∈ r.1, C.hash p = digest := by
  obtain ⟨size, s', -, h⟩ := Rlp.bind_eq_some h
  split at h
  · obtain ⟨x, s'', -, h⟩ := Rlp.bind_eq_some h
    cases h
    exact nofun
  · obtain ⟨p, s'', -, h⟩ := Rlp.bind_eq_some h
    split at h
    · cases h
    next hdigest =>
      cases h
      intro p' hp'
      cases hp'
      exact not_not.mp hdigest

theorem decodeRoundChange_hash {r : RoundChange P × Rlp.Stream}
    (h : decodeRoundChange C s = some r) :
    ∀ p ∈ r.1.preparedBlock, C.hash p = r.1.preparedDigest := by
  obtain ⟨_, _, -, h⟩ := Rlp.bind_eq_some h
  obtain ⟨payload, _, -, h⟩ := Rlp.bind_eq_some h
  obtain ⟨block, _, hblock, h⟩ := Rlp.bind_eq_some h
  obtain ⟨justification, _, -, h⟩ := Rlp.bind_eq_some h
  obtain ⟨_, _, -, h⟩ := Rlp.bind_eq_some h
  cases h
  exact decodeBlock_hash hblock

theorem decode_roundChange {code : ℕ} {data : List ℕ}
    (h : decode C code data = .ok (.roundChange m)) : ∃ x, RoundChange.ofItem C x = some m := by
  have hok {α : Type} {x : Option α} {f : α → Message P} {err : DecodeError} {m : Message P}
      (h : orError (x.map f) err = .ok m) : ∃ a, x = some a ∧ f a = m := by
    cases x with
    | none => cases h
    | some a => exact ⟨a, rfl, Except.ok.inj h⟩
  unfold decode at h
  simp only at h
  split at h
  · obtain ⟨_, -, h⟩ := hok h
    cases h
  split at h
  · obtain ⟨_, -, h⟩ := hok h
    cases h
  split at h
  · obtain ⟨_, -, h⟩ := hok h
    cases h
  split at h
  · obtain ⟨m', hm', h⟩ := hok h
    cases h
    obtain ⟨x, -, hx⟩ := Option.bind_eq_some_iff.mp hm'
    exact ⟨x, hx⟩
  · cases h

/-- The prepared block of a received message has the message's prepared digest. -/
theorem RoundChange.Received.hash_eq {G : Config P} (h : m.Received G)
    (hp : m.preparedBlock = some p) : G.blocks.hash p = m.preparedDigest := by
  obtain ⟨c, code, data, hreceive⟩ := h
  obtain ⟨m', hdecode, hverify⟩ := receive_eq_ok hreceive
  cases m' with
  | roundChange m' =>
    obtain ⟨source, -, prepares, hm⟩ := verifySignatures_roundChange hverify
    cases hm
    obtain ⟨x, hx⟩ := decode_roundChange hdecode
    obtain ⟨r, hr, rfl⟩ := Option.map_eq_some_iff.mp hx
    exact decodeRoundChange_hash hr p hp
  | preprepare m' =>
    obtain ⟨source, -, rcs, -, hm⟩ := verifySignatures_preprepare hverify
    cases hm
  | prepare m' =>
    obtain ⟨source, -, h⟩ := bind_eq_ok.mp hverify
    cases h
  | commit m' =>
    obtain ⟨source, -, h⟩ := bind_eq_ok.mp hverify
    cases h

/-! ## Runs of a set -/

/-- What a core does to its round-change set within a sequence. -/
inductive Op (G : Config P) where
  | add (m : { m : RoundChange P // m.Received G })
  | newRound (round : ℕ)
  | clearLowerThan (round : ℕ)

variable {G : Config P} {quorumSize : ℤ} {rcs : RoundChangeSet P}

def Op.apply (quorumSize : ℤ) (op : Op G) (rcs : RoundChangeSet P) : Option (RoundChangeSet P) :=
  match op with
  | .add m => some (rcs.file m.1 quorumSize)
  | .newRound round => some (rcs.newRound (.ofNat round))
  | .clearLowerThan round => some (rcs.clearLowerThan (.ofNat round))

/-- The message carries a block of the given prepared round, and its digest is the given block's. -/
def RoundChange.Backs (G : Config P) (quorumSize : ℤ) (m : RoundChange P) (preparedRound : ℕ)
    (p : P) : Prop :=
  (∃ p', m.Carries quorumSize preparedRound p') ∧ m.preparedDigest = G.blocks.hash p

/-- A message takes the place of one that backs the highest prepared block only if another one does,
it does itself, or it carries a block prepared later. -/
def RoundChangeSet.Keeps (G : Config P) (quorumSize : ℤ) (rcs : RoundChangeSet P)
    (m : RoundChange P) : Prop :=
  ∀ preparedRound p, rcs.highestPreparedRound (.ofNat m.round) = some preparedRound →
    rcs.highestPreparedBlock (.ofNat m.round) = some (some p) →
    (∃ old ∈ rcs.stored (.ofNat m.round), old.source = m.source ∧
      old.Backs G quorumSize preparedRound p) →
    (∃ other ∈ rcs.stored (.ofNat m.round), other.source ≠ m.source ∧
        other.Backs G quorumSize preparedRound p) ∨
      m.Backs G quorumSize preparedRound p ∨
      ∃ later p', preparedRound < later ∧ m.Carries quorumSize later p'

def Op.Keeps (quorumSize : ℤ) (rcs : RoundChangeSet P) : Op G → Prop
  | .add m => rcs.Keeps G quorumSize m.1
  | _ => True

/-- What the three maps say of a round, and what the stored messages do. -/
structure Backed (G : Config P) (quorumSize : ℤ) (rcs : RoundChangeSet P) (k : UInt64) : Prop where
  highest : ∀ {preparedRound}, rcs.highestPreparedRound k = some preparedRound →
    ∃ p, rcs.highestPreparedBlock k = some (some p) ∧
      quorumSize ≤ (rcs.prepareMessages k).length ∧
      (∀ spp ∈ rcs.prepareMessages k, spp.round = preparedRound ∧ spp.digest = G.blocks.hash p) ∧
      ∃ m ∈ rcs.stored k, m.Backs G quorumSize preparedRound p
  bound : ∀ {m r p}, m ∈ rcs.stored k → m.Carries quorumSize r p →
    ∃ preparedRound ∈ rcs.highestPreparedRound k, r ≤ preparedRound

/-- A round whose messages and maps are those of a backed one is backed. -/
theorem Backed.congr {k : UInt64} (h : Backed G quorumSize rcs k)
    (hstored : rcs'.stored k = rcs.stored k)
    (hprepares : rcs'.prepareMessages k = rcs.prepareMessages k)
    (hround : rcs'.highestPreparedRound k = rcs.highestPreparedRound k)
    (hblock : rcs'.highestPreparedBlock k = rcs.highestPreparedBlock k) :
    Backed G quorumSize rcs' k where
  highest := by
    rw [hstored, hprepares, hround, hblock]
    exact h.highest
  bound := by
    rw [hstored, hround]
    exact h.bound

/-- The PREPARE messages a message carries are a quorum of its round and block. -/
theorem RoundChange.Carries.prepares (h : m.Carries quorumSize preparedRound p)
    (hhash : G.blocks.hash p = m.preparedDigest) :
    quorumSize ≤ m.justification.length ∧
      ∀ spp ∈ m.justification, spp.round = preparedRound ∧ spp.digest = G.blocks.hash p := by
  obtain ⟨hmany, hall⟩ := hasMatching_eq_ok_iff.mp h.matching
  refine ⟨hmany, fun spp hspp => ?_⟩
  obtain ⟨hdigest, hround⟩ := hall spp hspp
  rw [h.preparedRound, Option.some.injEq] at hround
  exact ⟨hround.symm, by rw [hdigest, hhash]⟩

theorem Backed.raise (h : Backed G quorumSize rcs (.ofNat m.round)) (hreceived : m.Received G)
    (hcarries : m.Carries quorumSize preparedRound p)
    (hhigher : ∀ r ∈ rcs.highestPreparedRound (.ofNat m.round), r < preparedRound) :
    Backed G quorumSize (rcs.raise m preparedRound p) (.ofNat m.round) := by
  have hhash := hreceived.hash_eq hcarries.preparedBlock
  have hstored := RoundChangeSet.stored_store_self rcs (.ofNat m.round) m
  constructor
  · intro preparedRound' h'
    simp only [RoundChangeSet.raise, Function.update_self, Option.some.injEq] at h' ⊢
    subst h'
    obtain ⟨hmany, hall⟩ := hcarries.prepares hhash
    refine ⟨p, rfl, hmany, hall, m, ?_, ⟨p, hcarries⟩, hhash.symm⟩
    exact hstored ▸ mem_addMessage.mpr (Or.inl rfl)
  · intro m' r p' hm' hcarries'
    refine ⟨preparedRound, Function.update_self _ _ _, ?_⟩
    rcases mem_addMessage.mp (hstored ▸ hm') with rfl | ⟨hm', -⟩
    · have hsame := hcarries.preparedRound.symm.trans hcarries'.preparedRound
      exact le_of_eq (Option.some.inj hsame).symm
    · obtain ⟨r', hr', hle⟩ := h.bound hm' hcarries'
      exact le_of_lt (lt_of_le_of_lt hle (hhigher r' hr'))

theorem Backed.store (h : Backed G quorumSize rcs (.ofNat m.round))
    (hkeeps : rcs.Keeps G quorumSize m)
    (hlower : ∀ preparedRound p, m.Carries quorumSize preparedRound p →
      ∃ r ∈ rcs.highestPreparedRound (.ofNat m.round), preparedRound ≤ r) :
    Backed G quorumSize (rcs.store (.ofNat m.round) m) (.ofNat m.round) := by
  have hstored := RoundChangeSet.stored_store_self rcs (.ofNat m.round) m
  constructor
  · intro preparedRound hround
    obtain ⟨p, hblock, hmany, hall, backer, hbacker, hbacks⟩ := h.highest hround
    refine ⟨p, hblock, hmany, hall, ?_⟩
    rw [hstored]
    by_cases hsource : backer.source = m.source
    · rcases hkeeps preparedRound p hround hblock ⟨backer, hbacker, hsource, hbacks⟩ with
        ⟨other, hother, hne, hbacks⟩ | hbacks | ⟨later, p', hlt, hcarries⟩
      · exact ⟨other, mem_addMessage.mpr (Or.inr ⟨hother, hne⟩), hbacks⟩
      · exact ⟨m, mem_addMessage.mpr (Or.inl rfl), hbacks⟩
      · obtain ⟨r, hr, hle⟩ := hlower later p' hcarries
        cases hround.symm.trans hr
        exact absurd hlt (not_lt.mpr hle)
    · exact ⟨backer, mem_addMessage.mpr (Or.inr ⟨hbacker, hsource⟩), hbacks⟩
  · intro m' r p' hm' hcarries
    rcases mem_addMessage.mp (hstored ▸ hm') with rfl | ⟨hm', -⟩
    · exact hlower r p' hcarries
    · exact h.bound hm' hcarries

theorem Backed.file (h : ∀ k, Backed G quorumSize rcs k) (hreceived : m.Received G)
    (hkeeps : rcs.Keeps G quorumSize m) (k : UInt64) :
    Backed G quorumSize (rcs.file m quorumSize) k := by
  rcases rcs.file_cases m quorumSize with ⟨preparedRound, p, hcarries, hhigher, hfile⟩ | ⟨hlower, hfile⟩
  · rw [hfile]
    by_cases hk : k = .ofNat m.round
    · exact hk ▸ (h _).raise hreceived hcarries hhigher
    · refine (h k).congr (RoundChangeSet.stored_store_of_ne hk) ?_ ?_ ?_ <;>
        exact Function.update_of_ne hk _ _
  · rw [hfile]
    by_cases hk : k = .ofNat m.round
    · exact hk ▸ (h _).store hkeeps hlower
    · exact (h k).congr (RoundChangeSet.stored_store_of_ne hk) rfl rfl rfl

theorem RoundChangeSet.Keyed.file (h : rcs.Keyed) (m : RoundChange P) (quorumSize : ℤ) :
    (rcs.file m quorumSize).Keyed := by
  rcases rcs.file_cases m quorumSize with ⟨preparedRound, p, -, -, hfile⟩ | ⟨-, hfile⟩
  · rw [hfile]
    exact h.store (.ofNat m.round) m
  · rw [hfile]
    exact h.store _ m

/-- One operation that keeps the backers keeps every round backed. -/
theorem Op.apply_backed {op : Op G} (hkeyed : rcs.Keyed) (h : ∀ k, Backed G quorumSize rcs k)
    (hkeeps : op.Keeps quorumSize rcs) (hop : op.apply quorumSize rcs = some rcs') :
    rcs'.Keyed ∧ ∀ k, Backed G quorumSize rcs' k := by
  cases op with
  | add m =>
    cases hop
    exact ⟨hkeyed.file m.1 quorumSize, Backed.file h m.2 hkeeps⟩
  | newRound round =>
    cases hop
    obtain ⟨-, hprepares, hround, hblock⟩ := rcs.newRound_maps (.ofNat round)
    exact ⟨hkeyed.newRound _, fun k => (h k).congr (rcs.stored_newRound _ k) (by rw [hprepares])
      (by rw [hround]) (by rw [hblock])⟩
  | clearLowerThan round =>
    cases hop
    refine ⟨hkeyed.clearLowerThan _, fun k => ?_⟩
    rcases RoundChangeSet.clearLowerThan_cases hkeyed (.ofNat round) k with
      ⟨hstored, hround, -⟩ | ⟨hstored, hprepares, hround, hblock⟩
    · constructor
      · rw [hround]
        exact nofun
      · rw [hstored]
        exact nofun
    · exact (h k).congr hstored hprepares hround hblock

/-- As long as no ROUND-CHANGE takes the place of the last one that backs the highest prepared block
of a round, that block is backed by a stored message and a quorum of PREPARE messages, and no stored
message carries a block prepared later. -/
theorem highest_prepared_backed (G : Config P) (valSet : List Address) (quorumSize : ℤ)
    (ops : List (Op G)) (rcs : RoundChangeSet P)
    (run : Run (Op.apply quorumSize) (fun rcs op => op.Keeps quorumSize rcs)
      (.newRoundChangeSet valSet) ops rcs)
    (round preparedRound : ℕ) (h : rcs.highestPreparedRound (.ofNat round) = some preparedRound) :
    ∃ p, rcs.highestPreparedBlock (.ofNat round) = some (some p) ∧
      (∃ m ∈ rcs.stored (.ofNat round), m.preparedRound = some preparedRound ∧
        m.preparedDigest = G.blocks.hash p) ∧
      (quorumSize ≤ (rcs.prepareMessages (.ofNat round)).countP fun spp =>
        spp.round = preparedRound ∧ spp.digest = G.blocks.hash p) ∧
      IsGreatest { r | ∃ m ∈ rcs.stored (.ofNat round), ∃ p, m.Carries quorumSize r p }
        preparedRound := by
  obtain ⟨-, hbacked⟩ := run.invariant (P := fun rcs => rcs.Keyed ∧ ∀ k, Backed G quorumSize rcs k)
    ⟨RoundChangeSet.keyed_newRoundChangeSet valSet, fun _ => ⟨nofun, nofun⟩⟩
    fun hinv hkeeps hop => Op.apply_backed hinv.1 hinv.2 hkeeps hop
  obtain ⟨p, hblock, hmany, hall, m, hm, ⟨p', hcarries⟩, hdigest⟩ := (hbacked _).highest h
  refine ⟨p, hblock, ⟨m, hm, hcarries.preparedRound, hdigest⟩, ?_, ⟨m, hm, p', hcarries⟩, ?_⟩
  · rwa [List.countP_eq_length.mpr fun spp hspp => decide_eq_true (hall spp hspp)]
  · rintro r ⟨m', hm', p'', hcarries'⟩
    obtain ⟨preparedRound', h', hle⟩ := (hbacked _).bound hm' hcarries'
    cases h.symm.trans h'
    exact hle

/-! ## A lone backer replaced -/

/-- Blocks are numbers with two hashes between them, and the first byte of a signature is its
signer. -/
def plainConfig : Config ℕ where
  policy := .roundRobin
  ceil2Nby3Block := none
  blocks := { plainBlocks with hash := fun p => if p = 0 then 1 else 2 }
  number := id
  getSignatureAddress := fun _ signature => signature.head?.map fun byte => BitVec.ofNat 160 byte
  hash_ne_zero := by
    intro p
    dsimp only
    split <;> decide

/-- What validators and a proposer a plain backend answers. -/
def plainBackend (last : ℕ) (validators : List Address) : Backend ℕ where
  lastProposal := last
  lastProposer := 0
  validators := fun _ => validators
  verify := fun _ => .ok
  commit := fun _ => true
  sign := fun _ => [1]
  signWithoutHashing := fun _ _ => []

/-- The bytes of a message. -/
def bytes (m : Message ℕ) : List ℕ := (m.encode plainConfig.blocks).getD []

/-- A ROUND-CHANGE with a block prepared in round zero, and one of the same validator without. -/
def preparedChange : RoundChange ℕ where
  source := 1
  sequence := 2
  round := 1
  signature := [1]
  preparedRound := some 0
  preparedDigest := 2
  preparedBlock := some 2
  justification := [{ source := 1, sequence := 2, round := 0, signature := [1], digest := 2 }]

def bareChange : RoundChange ℕ :=
  { preparedChange with
    preparedRound := none, preparedDigest := 0, preparedBlock := none, justification := [] }

/-- The core of the only validator. -/
def loneCore : Core ℕ := plainConfig.start (plainBackend 1 [1]) 1

theorem received_preparedChange : preparedChange.Received plainConfig :=
  ⟨loneCore, roundChangeCode, bytes (.roundChange preparedChange), by decide +kernel⟩

theorem received_bareChange : bareChange.Received plainConfig :=
  ⟨loneCore, roundChangeCode, bytes (.roundChange bareChange), by decide +kernel⟩

/-- A validator sends a ROUND-CHANGE with a prepared block and then one without: the set still names the
block of round 0 as the highest prepared one, and no stored message carries it. -/
theorem lone_backer_replaced :
    ∃ rcs, Run (Op.apply 1) (fun _ _ => True) (.newRoundChangeSet [1])
        [Op.add ⟨preparedChange, received_preparedChange⟩, .add ⟨bareChange, received_bareChange⟩]
        rcs ∧
      rcs.highestPreparedRound 1 = some 0 ∧ ∀ m ∈ rcs.stored 1, m.preparedRound ≠ some 0 :=
  ⟨_, Run.of_runAll (fun _ _ _ => trivial) rfl, by decide +kernel, by decide +kernel⟩

/-- With only the first message the block is backed. -/
theorem highest_prepared_backed_once :
    ∃ rcs, Run (Op.apply 1) (fun rcs op => op.Keeps 1 rcs) (.newRoundChangeSet [1])
        [Op.add ⟨preparedChange, received_preparedChange⟩] rcs ∧
      ∃ p, rcs.highestPreparedBlock 1 = some (some p) ∧
        ∃ m ∈ rcs.stored 1, m.preparedDigest = plainConfig.blocks.hash p := by
  have run : Run (Op.apply 1) (fun rcs op => op.Keeps 1 rcs) (.newRoundChangeSet [1])
      [Op.add ⟨preparedChange, received_preparedChange⟩] _ :=
    Run.cons nofun rfl (.nil _)
  obtain ⟨p, hp, ⟨m, hm, -, hdigest⟩, -⟩ :=
    highest_prepared_backed plainConfig [1] 1 _ _ run 1 0 (by decide +kernel)
  exact ⟨_, run, p, hp, m, hm, hdigest⟩

end Wormholes.Consensus.Qbft.Node
