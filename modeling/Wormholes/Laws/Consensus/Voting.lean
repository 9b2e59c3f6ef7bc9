import Wormholes.Consensus.Voting
import Mathlib.Data.List.Perm.Basic

/-!
# Laws.Consensus.Voting — the tally counts the listed votes

`tallyOf` is the tally that a list of votes has. Every piece of `snapApplyHeader` keeps the stored tally
the one of the listed votes. While a vote is settled the votes still say what the old validator set asked
for, so the pieces are about any `flag` that the votes agree with.
-/

namespace Wormholes.Consensus.Voting

open Common

variable {flag flag' : Address → Bool} {votes votes' : List Vote} {v vote : Vote} {a candidate : Address}
  {s t : Snapshot}

/-- Whose vote on which account it is. -/
def Vote.key (v : Vote) : Address × Address := (v.validator, v.address)

/-- The number of votes on an account. -/
def votesOn (votes : List Vote) (a : Address) : ℕ := votes.countP (·.address = a)

theorem votesOn_cons : votesOn (v :: votes) a = votesOn votes a + if a = v.address then 1 else 0 := by
  rw [votesOn, List.countP_cons]
  simp only [votesOn, decide_eq_true_eq, eq_comm (a := a)]

/-- The tally of votes that say `flag` of their accounts. -/
def tallyOf (flag : Address → Bool) (votes : List Vote) (a : Address) : Option Tally :=
  if votesOn votes a = 0 then none else some ⟨flag a, votesOn votes a⟩

/-- The votes say `flag` of their accounts and the tally is theirs. -/
structure Tallied (flag : Address → Bool) (votes : List Vote) (tally : Address → Option Tally) : Prop where
  flags : ∀ v ∈ votes, v.authorize = flag v.address
  tally : tally = tallyOf flag votes

namespace Tallied

theorem nil : Tallied flag [] fun _ => none := ⟨List.forall_mem_nil _, rfl⟩

theorem perm {tally : Address → Option Tally} (h : Tallied flag votes tally)
    (hperm : votes.Perm votes') : Tallied flag votes' tally := by
  refine ⟨fun v hv => h.flags v (hperm.mem_iff.mpr hv), h.tally.trans ?_⟩
  funext a
  rw [tallyOf, tallyOf, votesOn, hperm.countP_eq, ← votesOn]

theorem uncast (h : Tallied flag (v :: votes) s.tally) :
    Tallied flag votes (s.uncast v.address v.authorize).tally := by
  refine ⟨fun u hu => h.flags u (List.mem_cons_of_mem _ hu), funext fun a => ?_⟩
  have hflag := h.flags v List.mem_cons_self
  simp only [Snapshot.uncast, h.tally, tallyOf, votesOn_cons]
  grind [tallyOf, votesOn_cons]

theorem cast (h : Tallied flag votes s.tally) (hflag : vote.authorize = flag vote.address) :
    Tallied flag (vote :: votes) (Function.update s.tally vote.address
      (some (.plusOne vote.authorize (s.tally vote.address)))) := by
  refine ⟨fun v hv => ?_, funext fun a => ?_⟩
  · rcases List.mem_cons.mp hv with rfl | hv
    · exact hflag
    · exact h.flags v hv
  · rw [h.tally]
    grind [tallyOf, votesOn_cons, Tally.plusOne]

theorem uncasts {gone : List Vote} (h : Tallied flag (gone ++ votes) s.tally) :
    Tallied flag votes (gone.foldl (fun s v => s.uncast v.address v.authorize) s).tally := by
  induction gone generalizing s with
  | nil => exact h
  | cons v gone ih => exact ih h.uncast

/-- Without the votes on an account, what they say of it does not matter. -/
theorem delete (h : Tallied flag votes s.tally) (hflag : ∀ a, a ≠ candidate → flag' a = flag a) :
    Tallied flag' (votes.filter (·.address ≠ candidate))
      (Function.update s.tally candidate none) := by
  have hcount : ∀ a, votesOn (votes.filter (·.address ≠ candidate)) a =
      if a = candidate then 0 else votesOn votes a := by
    intro a
    rw [votesOn, List.countP_filter]
    split
    next ha => exact List.countP_eq_zero.mpr fun v _ => by simp [ha]
    next ha => exact List.countP_congr fun v _ => by grind
  refine ⟨fun v hv => ?_, funext fun a => ?_⟩
  · grind [h.flags v]
  · rw [h.tally]
    grind [tallyOf]

end Tallied

theorem mem_addValidator {valSet : ValidatorSet} :
    a ∈ (valSet.addValidator candidate).validators ↔ a ∈ valSet.validators ∨ a = candidate := by
  unfold ValidatorSet.addValidator
  split
  next h => exact ⟨Or.inl, fun ha => ha.elim id fun ha => ha ▸ List.contains_iff_mem.mp h⟩
  next => rw [ProposerPolicy.sort, (List.perm_insertionSort _ _).mem_iff, List.mem_append, List.mem_singleton]

namespace Snapshot

/-- Whether a vote on an account is one to admit it. -/
def wanted (s : Snapshot) (a : Address) : Bool := !s.valSet.validators.contains a

theorem wanted_eq : s.wanted a = decide (a ∉ s.valSet.validators) := by
  simp [wanted]

/-- The listed votes are by validators, one for each validator and account, and the tally is theirs. -/
structure Valid (s : Snapshot) : Prop where
  tallied : Tallied s.wanted s.votes s.tally
  once : (s.votes.map Vote.key).Nodup
  voters : ∀ v ∈ s.votes, v.validator ∈ s.valSet.validators

namespace Valid

theorem of_nil (hvotes : s.votes = []) (htally : s.tally = fun _ => none) : s.Valid := by
  refine ⟨?_, ?_, ?_⟩
  · rw [hvotes, htally]
    exact .nil
  · simp [hvotes]
  · simp [hvotes]

theorem copy (h : s.Valid) : s.copy.Valid := by
  have hmem : ∀ a, a ∈ s.copy.valSet.validators ↔ a ∈ s.valSet.validators := fun a =>
    (List.perm_insertionSort _ _).mem_iff
  have hwanted : s.copy.wanted = s.wanted := by
    funext a
    rw [wanted_eq, wanted_eq]
    exact decide_eq_decide.mpr (not_congr (hmem a))
  exact ⟨hwanted ▸ h.tallied, h.once, fun v hv => (hmem _).mpr (h.voters v hv)⟩

theorem discardPrevious (h : s.Valid) (validator candidate : Address) :
    (s.discardPrevious validator candidate).Valid ∧
      (s.discardPrevious validator candidate).valSet = s.valSet ∧
      (validator, candidate) ∉ (s.discardPrevious validator candidate).votes.map Vote.key := by
  unfold Snapshot.discardPrevious
  split
  next vote hfound =>
    have hmem := List.mem_of_find?_eq_some hfound
    have hkey : vote.key = (validator, candidate) := by simpa [Vote.key] using List.find?_some hfound
    have hperm := List.perm_cons_erase hmem
    have hold := (hperm.map Vote.key).nodup_iff.mp h.once
    rw [List.map_cons, hkey, List.nodup_cons] at hold
    exact ⟨⟨(h.tallied.perm hperm).uncast, hold.2,
      fun v hv => h.voters v (List.mem_of_mem_erase hv)⟩, rfl, hold.1⟩
  next hnone =>
    refine ⟨h, rfl, fun hmem => ?_⟩
    obtain ⟨v, hv, heq⟩ := List.mem_map.mp hmem
    exact List.find?_eq_none.mp hnone v hv (decide_eq_true (Prod.mk.inj heq))

theorem castVote (h : s.Valid) (hvoter : vote.validator ∈ s.valSet.validators)
    (hnew : vote.key ∉ s.votes.map Vote.key) : (s.castVote vote).Valid := by
  unfold Snapshot.castVote
  split
  next t hcast =>
    unfold cast at hcast
    split at hcast
    next hcheck =>
      cases hcast
      have hflag : vote.authorize = s.wanted vote.address := by
        grind [checkVote, wanted]
      have hperm := (List.perm_append_singleton vote s.votes).symm
      refine ⟨(h.tallied.cast hflag).perm hperm, ?_, fun v hv => ?_⟩
      · exact (hperm.map _).nodup_iff.mp (List.nodup_cons.mpr ⟨hnew, h.once⟩)
      · rcases List.mem_cons.mp (hperm.mem_iff.mpr hv) with rfl | hv
        · exact hvoter
        · exact h.voters v hv
    next => cases hcast
  next => exact h

/-- A vote passed: only the votes on the candidate can be on a member of another kind now. -/
theorem passed {u : Snapshot} (h : s.Valid) (htallied : Tallied s.wanted u.votes u.tally)
    (hsub : u.votes.Sublist s.votes)
    (hmem : ∀ a, a ≠ candidate → (a ∈ u.valSet.validators ↔ a ∈ s.valSet.validators))
    (hvoters : ∀ v ∈ u.votes, v.validator ∈ u.valSet.validators) :
    Valid { u with
      votes := u.votes.filter (·.address ≠ candidate)
      tally := Function.update u.tally candidate none } where
  tallied := htallied.delete fun a ha => by
    rw [wanted_eq, wanted_eq]
    exact decide_eq_decide.mpr (not_congr (hmem a ha))
  once := h.once.sublist ((List.filter_sublist.trans hsub).map _)
  voters v hv := hvoters v (List.mem_of_mem_filter hv)

theorem settle (h : s.Valid) (candidate : Address) : (s.settle candidate).Valid := by
  unfold Snapshot.settle
  split
  next => exact h
  next tally htally =>
    split
    next =>
      split
      next hadmit =>
        refine h.passed h.tallied (List.Sublist.refl _) (fun a ha => ?_) fun v hv => ?_
        · exact mem_addValidator.trans (or_iff_left ha)
        · exact mem_addValidator.mpr (Or.inl (h.voters v hv))
      next hremove =>
        have hperm : s.votes.Perm (s.votes.filter (·.validator = candidate) ++
            s.votes.filter (·.validator ≠ candidate)) := by
          simpa using (List.filter_append_perm (·.validator = candidate) s.votes).symm
        have hmem : ∀ a, a ≠ candidate →
            (a ∈ (s.valSet.removeValidator candidate).validators ↔ a ∈ s.valSet.validators) :=
          fun a ha => List.mem_erase_of_ne ha
        refine h.passed ?_ List.filter_sublist hmem fun v hv => ?_
        · exact Tallied.uncasts (h.tallied.perm hperm)
        · obtain ⟨hv, hne⟩ := List.mem_filter.mp hv
          exact (hmem _ (of_decide_eq_true hne)).mpr (h.voters v hv)
    next => exact h

end Valid

/-- The votes on an account are by as many validators. -/
theorem Valid.exists_voters (h : s.Valid) (candidate : Address) : ∃ voters : Finset Address,
    voters.card = votesOn s.votes candidate ∧
      ∀ a ∈ voters, ∃ v ∈ s.votes, v.validator = a ∧ v.address = candidate := by
  have honce : ((s.votes.filter (·.address = candidate)).map Vote.validator).Nodup := by
    refine List.Nodup.of_map (·, candidate) ?_
    have hkeys := h.once.sublist ((List.filter_sublist (p := (·.address = candidate))).map _)
    rw [List.map_map]
    rwa [List.map_congr_left fun v hv => show v.key = (v.validator, candidate) by
      rw [Vote.key, of_decide_eq_true (List.mem_filter.mp hv).2]] at hkeys
  refine ⟨_, (List.toFinset_card_of_nodup honce).trans ?_, fun a ha => ?_⟩
  · rw [List.length_map, votesOn, List.countP_eq_length_filter]
  · obtain ⟨v, hv, rfl⟩ := List.mem_map.mp (List.mem_toFinset.mp ha)
    obtain ⟨hv, haddress⟩ := List.mem_filter.mp hv
    exact ⟨v, hv, rfl, of_decide_eq_true haddress⟩

/-- A set that changes when a vote is settled does so by the votes of more than half. -/
theorem Valid.settle_valSet (h : s.Valid) (candidate : Address) :
    (s.settle candidate).valSet = s.valSet ∨
      s.valSet.validators.length < 2 * votesOn s.votes candidate ∧
        (s.settle candidate).valSet.validators.Perm
          (if candidate ∈ s.valSet.validators then s.valSet.validators.erase candidate
          else candidate :: s.valSet.validators) := by
  unfold Snapshot.settle
  split
  next => exact Or.inl rfl
  next tally htally =>
    rw [h.tallied.tally, tallyOf] at htally
    split at htally
    next => cases htally
    next =>
      cases htally
      split
      next hmany =>
        refine Or.inr ⟨by dsimp only at hmany; omega, ?_⟩
        rw [wanted_eq]
        split
        next hadmit =>
          have hnew := of_decide_eq_true hadmit
          rw [if_neg hnew, ValidatorSet.addValidator, if_neg (mt List.contains_iff_mem.mp hnew)]
          exact (List.perm_insertionSort _ _).trans (List.perm_append_singleton _ _)
        next hremove =>
          rw [if_pos (not_not.mp (mt decide_eq_true hremove))]
          exact .refl _
      next => exact Or.inl rfl

theorem castVote_valSet : (s.castVote vote).valSet = s.valSet := by
  unfold castVote cast
  split_ifs <;> rfl

theorem mem_castVote (h : v ∈ (s.castVote vote).votes) : v = vote ∨ v ∈ s.votes := by
  grind [castVote, cast]

theorem mem_discardPrevious {validator : Address}
    (h : v ∈ (s.discardPrevious validator candidate).votes) : v ∈ s.votes := by
  grind [discardPrevious, List.mem_of_mem_erase]

end Snapshot

variable {Header : Type} {E : Engine Header}

/-- What a header does before its vote is settled: the vote is listed among the earlier ones. -/
theorem snapApplyHeader_cast {header : Header} (h : s.Valid)
    (happly : E.snapApplyHeader s header = .ok t) :
    ∃ (u : Snapshot) (vote : Vote), u.Valid ∧ u.valSet = s.valSet ∧ t = u.settle vote.address ∧
      E.author header = .ok vote.validator ∧
      E.readVote header = .ok (vote.address, vote.authorize) ∧ ∀ v ∈ u.votes, v = vote ∨ v ∈ s.votes := by
  unfold Engine.snapApplyHeader at happly
  split at happly
  next => cases happly
  next =>
    generalize hstart : (if E.number header % s.epoch = 0 then
        { s with votes := [], tally := fun _ => none } else s) = start at happly
    have hvalid : start.Valid ∧ start.valSet = s.valSet ∧ ∀ v ∈ start.votes, v ∈ s.votes := by
      subst hstart
      split
      next => exact ⟨.of_nil rfl rfl, rfl, List.forall_mem_nil _⟩
      next => exact ⟨h, rfl, fun _ hv => hv⟩
    obtain ⟨validator, hauthor, happly⟩ := Res.bind_eq_ok.mp happly
    obtain ⟨_, hvalidator, happly⟩ := Res.bind_eq_ok.mp happly
    obtain ⟨⟨candidate, authorize⟩, hvote, happly⟩ := Res.bind_eq_ok.mp happly
    cases happly
    obtain ⟨hdiscarded, hset, hnew⟩ := hvalid.1.discardPrevious validator candidate
    have hvoter := List.contains_iff_mem.mp (Res.require_eq_ok.mp hvalidator)
    refine ⟨_, ⟨validator, E.number header, candidate, authorize⟩, ?_, ?_, rfl, hauthor, hvote,
      fun v hv => ?_⟩
    · exact hdiscarded.castVote (hset ▸ hvoter) hnew
    · rw [Snapshot.castVote_valSet, hset, hvalid.2.1]
    · exact (Snapshot.mem_castVote hv).imp_right fun hv => hvalid.2.2 v (Snapshot.mem_discardPrevious hv)

theorem snapApplyHeader_valid {header : Header} (h : s.Valid)
    (happly : E.snapApplyHeader s header = .ok t) : t.Valid := by
  obtain ⟨u, vote, hu, -, rfl, -⟩ := snapApplyHeader_cast h happly
  exact hu.settle vote.address

theorem foldlM_valid {headers : List Header} (h : s.Valid)
    (happly : headers.foldlM E.snapApplyHeader s = .ok t) : t.Valid := by
  induction headers generalizing s with
  | nil =>
    cases happly
    exact h
  | cons header headers ih =>
    obtain ⟨u, hu, happly⟩ := Res.bind_eq_ok.mp happly
    exact ih (snapApplyHeader_valid h hu) happly

theorem snapApply_valid {headers : List Header} (h : s.Valid) (happly : E.snapApply s headers = .ok t) :
    t.Valid := by
  cases headers with
  | nil =>
    cases happly
    exact h
  | cons first headers =>
    obtain ⟨-, -, happly⟩ := Res.bind_eq_ok.mp happly
    obtain ⟨-, -, happly⟩ := Res.bind_eq_ok.mp happly
    obtain ⟨u, hu, happly⟩ := Res.bind_eq_ok.mp happly
    cases happly
    have hvalid := foldlM_valid h.copy hu
    exact ⟨hvalid.tallied, hvalid.once, hvalid.voters⟩

/-- The snapshots that `snapApply` makes of a genesis snapshot. -/
inductive Engine.Reachable (E : Engine Header) : Snapshot → Prop
  | genesis (epoch : ℕ) (hash : Hash) (validators : List Address) (policy : ProposerPolicy) :
      E.Reachable (newSnapshot epoch 0 hash (.newSet validators policy))
  | apply {s t : Snapshot} {headers : List Header} (h : E.Reachable s)
      (happly : E.snapApply s headers = .ok t) : E.Reachable t

theorem Engine.Reachable.valid (h : E.Reachable s) : s.Valid := by
  induction h with
  | genesis => exact .of_nil rfl rfl
  | apply _ happly ih => exact snapApply_valid ih happly

/-- In every reachable snapshot an account has a tally exactly if there are votes on it. The tally counts
them and says, as each of them does, whether the account is not a validator. No validator has two votes
on one account, and only validators have any. -/
theorem tally_counts_votes (h : E.Reachable s) :
    (∀ a, ((s.tally a).isSome = true ↔ ∃ v ∈ s.votes, v.address = a) ∧
      ∀ tally, s.tally a = some tally → tally.votes = s.votes.countP (·.address = a) ∧
        tally.authorize = decide (a ∉ s.valSet.validators) ∧
        ∀ v ∈ s.votes, v.address = a → v.authorize = tally.authorize) ∧
      (s.votes.map fun v => (v.validator, v.address)).Nodup ∧
      ∀ v ∈ s.votes, v.validator ∈ s.valSet.validators := by
  have hvalid := h.valid
  refine ⟨fun a => ?_, hvalid.once, hvalid.voters⟩
  rw [hvalid.tallied.tally, tallyOf]
  have hcount : votesOn s.votes a = 0 ↔ ¬ ∃ v ∈ s.votes, v.address = a := by
    simp [votesOn, List.countP_eq_zero]
  split
  next hzero => exact ⟨iff_of_false Bool.false_ne_true (hcount.mp hzero), fun _ h => (by cases h)⟩
  next hpos =>
    refine ⟨iff_of_true rfl (not_not.mp (mt hcount.mpr hpos)), ?_⟩
    rintro tally ⟨⟩
    exact ⟨rfl, Snapshot.wanted_eq, fun v hv ha => ha ▸ hvalid.tallied.flags v hv⟩

/-- Headers that are their numbers, authors and votes. -/
def plainEngine : Engine (ℕ × Address × Address × Bool) where
  number header := header.1
  hash header := header.1
  author header := .ok header.2.1
  readVote header := .ok header.2.2

/-- The first of three validators votes for a fourth one. -/
theorem tally_counts_votes_one : ∃ s, plainEngine.Reachable s ∧
    s.votes = [⟨1, 1, 4, true⟩] ∧ (s.tally 4).isSome = true := by
  obtain ⟨s, hs, hvotes⟩ : ∃ s, plainEngine.Reachable s ∧ s.votes = [⟨1, 1, 4, true⟩] :=
    ⟨_, .apply (.genesis 10 0 [1, 2, 3] ⟨.roundRobin, fun a b => a < b⟩)
      (show plainEngine.snapApply _ [(1, 1, 4, true)] = _ from rfl), rfl⟩
  exact ⟨s, hs, hvotes, ((tally_counts_votes hs).1 4).1.mpr ⟨_, hvotes ▸ List.mem_singleton_self _, rfl⟩⟩

/-- The set of validators changes by one account at a time, and only when more than half of the
validators have voted for it, by the header or earlier. -/
theorem validators_change_by_majority {header : Header} (h : E.Reachable s)
    (happly : E.snapApply s [header] = .ok t) :
    t.valSet.validators.Perm s.valSet.validators ∨
      ∃ (candidate : Address) (voters : Finset Address),
        t.valSet.validators.Perm (if candidate ∈ s.valSet.validators then
          s.valSet.validators.erase candidate else candidate :: s.valSet.validators) ∧
        s.valSet.validators.length < 2 * voters.card ∧
        ∀ a ∈ voters, a ∈ s.valSet.validators ∧
          (E.author header = .ok a ∧
              E.readVote header = .ok (candidate, decide (candidate ∉ s.valSet.validators)) ∨
            ∃ v ∈ s.votes, v.validator = a ∧ v.address = candidate ∧
              v.authorize = decide (candidate ∉ s.valSet.validators)) := by
  obtain ⟨-, -, happly⟩ := Res.bind_eq_ok.mp happly
  obtain ⟨-, -, happly⟩ := Res.bind_eq_ok.mp happly
  obtain ⟨w, hw, happly⟩ := Res.bind_eq_ok.mp happly
  cases happly
  obtain ⟨w, hheader, hw⟩ := Res.bind_eq_ok.mp hw
  cases hw
  obtain ⟨u, vote, hu, hset, rfl, hauthor, hvote, hvotes⟩ := snapApplyHeader_cast h.valid.copy hheader
  have hperm : u.valSet.validators.Perm s.valSet.validators := hset ▸ List.perm_insertionSort _ _
  have hmem (a : Address) : a ∈ u.valSet.validators ↔ a ∈ s.valSet.validators := hperm.mem_iff
  rcases hu.settle_valSet vote.address with hsame | ⟨hmany, hchanged⟩
  · left
    dsimp only
    rwa [hsame]
  · obtain ⟨voters, hcard, hvoters⟩ := hu.exists_voters vote.address
    refine Or.inr ⟨vote.address, voters, hchanged.trans ?_, ?_, fun a ha => ?_⟩
    · simp only [hmem]
      split
      next => exact hperm.erase _
      next => exact hperm.cons _
    · rwa [hcard, ← hperm.length_eq]
    · obtain ⟨v, hv, rfl, haddress⟩ := hvoters a ha
      have hflag := hu.tallied.flags v hv
      rw [haddress, Snapshot.wanted_eq] at hflag
      simp only [hmem] at hflag
      refine ⟨(hmem _).mp (hu.voters v hv), (hvotes v hv).imp ?_ fun hold => ?_⟩
      · rintro rfl
        exact ⟨hauthor, hflag ▸ hvote⟩
      · exact ⟨v, hold, rfl, haddress, hflag⟩

/-- The only validator admits a second one with its own vote. -/
theorem validators_change_by_majority_one : ∃ (s t : Snapshot) (voters : Finset Address),
    plainEngine.snapApply s [(1, 1, 4, true)] = .ok t ∧ t.valSet.validators = [1, 4] ∧
      1 < 2 * voters.card := by
  obtain ⟨s, t, hs, happly, hone, htwo⟩ : ∃ s t, plainEngine.Reachable s ∧
      plainEngine.snapApply s [(1, 1, 4, true)] = .ok t ∧ s.valSet.validators = [1] ∧
      t.valSet.validators = [1, 4] :=
    ⟨_, _, .genesis 10 0 [1] ⟨.roundRobin, fun a b => a < b⟩, rfl, rfl, rfl⟩
  have hchange := validators_change_by_majority hs happly
  rw [hone, htwo] at hchange
  rcases hchange with hperm | ⟨-, voters, -, hmany, -⟩
  · cases hperm.length_eq
  · exact ⟨s, t, voters, happly, htwo, hmany⟩

end Wormholes.Consensus.Voting
