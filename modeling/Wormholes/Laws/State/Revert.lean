import Wormholes.Laws.State.Operation
import Mathlib.Data.List.TakeWhile

/-!
# Laws.State.Revert — a revert gives back the accounts of its snapshot

`Tracked` relates the revisions of a state to the states at their snapshots: the journal leads from
each to the next newer one. A journaled operation keeps it, a snapshot adds to it and a revert goes
back in it (`Tracked.revert`). So after any operations, nested snapshots and reverts among them, a
revert gives back every account as it was, with an absent balance read as zero
(`revertToSnapshot_restores`).

A finalised transaction ends the reach of its snapshots and is left out, and so is a revert in between
to an older snapshot, which takes the later ones with it.
-/

namespace Wormholes

open Lib StateDB

variable {ps : List (ℕ × StateDB)} {older : List Revision} {id : ℕ}
variable {s t : StateDB} {rs : List Revision}

/-! ## Snapshots and the states recorded for them -/

/-- The revisions of a state, newest first, each with the state recorded for it: the journal leads
from each recorded state to the next newer one and from the newest to the state. -/
def Tracked (s : StateDB) : List Revision → List (ℕ × StateDB) → Prop
  | [], [] => True
  | r :: rs, p :: ps =>
    r.id = p.1 ∧ r.journalIndex = p.2.journal.length ∧
      Logged JournalEntry.revert Accounts.Equiv p.2.accounts p.2.journal s.accounts s.journal ∧
        Tracked p.2 rs ps
  | _, _ => False

theorem Tracked.journaled (h : Tracked s rs ps)
    (hj : Logged JournalEntry.revert Accounts.Equiv s.accounts s.journal
      t.accounts t.journal) : Tracked t rs ps := by
  match rs, ps, h with
  | [], [], _ => trivial
  | _ :: _, _ :: _, ⟨hid, hindex, hlog, hrest⟩ => exact ⟨hid, hindex, hlog.trans hj, hrest⟩

/-- A state that looks like another and has its journal has its recorded states. -/
theorem Tracked.congr (h : Tracked s rs ps) (haccounts : t.accounts.Equiv s.accounts)
    (hjournal : t.journal = s.journal) :
    Tracked t rs ps := by
  match rs, ps, h with
  | [], [], _ => trivial
  | _ :: _, _ :: _, ⟨hid, hindex, ⟨es, hes, hundo⟩, hrest⟩ =>
    exact ⟨hid, hindex, ⟨es, hjournal.trans hes, fun m hm => hundo m (hm.trans haccounts)⟩, hrest⟩

/-- Every revision has a recorded state, and the journal leads from it to the current one. -/
theorem Tracked.dropWhile (h : Tracked s rs ps) (id : ℕ) {r : Revision}
    (hr : (rs.dropWhile fun r => decide (r.id > id)) = r :: older) :
    ∃ p ps', (ps.dropWhile fun p => decide (p.1 > id)) = p :: ps' ∧ p ∈ ps ∧
      r.journalIndex = p.2.journal.length ∧
      Logged JournalEntry.revert Accounts.Equiv p.2.accounts p.2.journal s.accounts s.journal ∧
      Tracked p.2 older ps' ∧ ∀ q ∈ ps', q ∈ ps := by
  induction rs generalizing s ps with
  | nil => cases hr
  | cons r₀ rs ih =>
    cases ps with
    | nil => exact h.elim
    | cons p₀ ps =>
      obtain ⟨hid, hindex, hlog, hrest⟩ := h
      rw [List.dropWhile_cons] at hr ⊢
      by_cases hlater : r₀.id > id
      · -- this revision is newer than the one reverted to
        rw [if_pos (by simpa using hlater)] at hr
        rw [if_pos (by simpa [← hid] using hlater)]
        obtain ⟨p, ps', hdrop, hmem, hindex', hlog', hrest', hsub⟩ := ih hrest hr
        exact ⟨p, ps', hdrop, List.mem_cons_of_mem _ hmem, hindex', hlog'.trans hlog, hrest',
          fun q hq => List.mem_cons_of_mem _ (hsub q hq)⟩
      · rw [if_neg (by simpa using hlater)] at hr
        rw [if_neg (by simpa [← hid] using hlater)]
        cases hr
        exact ⟨p₀, ps, rfl, List.mem_cons_self, hindex, hlog, hrest,
          fun q hq => List.mem_cons_of_mem _ hq⟩

/-- A revert to a revision with a recorded state gives back its accounts and journal. The older
revisions `old` need no recorded states. -/
theorem Tracked.exists_revert {old : List Revision} {r : Revision} (h : Tracked s rs ps)
    (hrs : s.validRevisions = rs ++ old)
    (hr : (rs.dropWhile fun r => decide (r.id > id)) = r :: older) (hid : r.id = id) :
    ∃ t p ps', s.revertToSnapshot id = some t ∧
      (ps.dropWhile fun p => decide (p.1 > id)) = p :: ps' ∧ p ∈ ps ∧
      t.accounts.Equiv p.2.accounts ∧ t.journal = p.2.journal ∧ t.pools = s.pools ∧
      t.validRevisions = older ++ old ∧ t.nextRevisionId = s.nextRevisionId ∧
      Tracked t older ps' ∧ ∀ q ∈ ps', q ∈ ps := by
  obtain ⟨p, ps', hdrop, hmem, hindex, hlog, hrest, hsub⟩ := h.dropWhile id hr
  obtain ⟨m, hm, hequiv, hjournal⟩ := hlog.undo_take (Accounts.Equiv.refl _)
  have hfound : (s.validRevisions.dropWhile fun r => decide (r.id > id)) = r :: (older ++ old) := by
    rw [hrs, List.dropWhile_append, hr]
    rfl
  have hrevert : s.revertToSnapshot id = some
      { s with accounts := m, journal := p.2.journal, validRevisions := older ++ old } := by
    rw [revertToSnapshot, hfound]
    simp only [hid, if_true, hindex, hm, hjournal, Option.map_some]
  exact ⟨_, p, ps', hrevert, hdrop, hmem, hequiv, rfl, rfl, rfl, rfl, hrest.congr hequiv rfl, hsub⟩

/-- A revert gives back the accounts and the journal recorded for its snapshot. -/
theorem Tracked.revert (h : Tracked s s.validRevisions ps)
    (hrevert : s.revertToSnapshot id = some t) :
    ∃ p ps', (ps.dropWhile fun p => decide (p.1 > id)) = p :: ps' ∧ p ∈ ps ∧
      t.accounts.Equiv p.2.accounts ∧ t.pools = s.pools ∧
      Tracked t t.validRevisions ps' ∧ ∀ q ∈ ps', q ∈ ps := by
  cases hr : s.validRevisions.dropWhile fun r => decide (r.id > id) with
  | nil =>
    rw [revertToSnapshot, hr] at hrevert
    cases hrevert
  | cons r older =>
    by_cases hid : r.id = id
    · obtain ⟨u, p, ps', hu, hdrop, hmem, hequiv, -, hpools, hold, -, htracked, hsub⟩ :=
        h.exists_revert (List.append_nil _).symm hr hid
      rw [hu] at hrevert
      cases hrevert
      rw [List.append_nil] at hold
      exact ⟨p, ps', hdrop, hmem, hequiv, hpools, hold ▸ htracked, hsub⟩
    · rw [revertToSnapshot, hr] at hrevert
      simp [hid] at hrevert

/-! ## Operations -/

variable {H : Hasher}

/-- The journal undoes every operation but snapshots, reverts and the end of a transaction. -/
theorem Operation.apply_journaled {op : Operation} (h : op.apply H s = some t)
    (hsnapshot : op ≠ .snapshot) (hrevert : ∀ id, op ≠ .revertToSnapshot id)
    (hfinalise : op ≠ .finalise) : Journaled s t := by
  cases op with
  | createAccount a =>
    cases h
    exact (createAccount_steps s a (P := fun _ _ _ => True) fun _ => trivial).journaled
  | addBalance a x => cases h; exact (addBalance_steps s a x).journaled
  | subBalance a x => cases h; exact (subBalance_steps s a x).journaled
  | addVoteWeight a x => exact (addVoteWeight_steps s a h).journaled
  | subVoteWeight a x => exact (addVoteWeight_steps s a h).journaled
  | setNonce a n => cases h; exact (setNonce_steps s a n).journaled
  | setCode a c => cases h; exact (setCode_steps s a c).journaled
  | setState a key value => cases h; exact (setState_steps s a key value).journaled
  | suicide a =>
    cases h
    exact (suicide_steps s a (P := fun _ _ _ => True) fun _ => trivial).journaled
  | changeApproveAddress a b => cases h; exact (changeApproveAddress_steps s a b).journaled
  | cancelApproveAddress a b => cases h; exact (cancelApproveAddress_steps s a b).journaled
  | changeNFTApproveAddress a b => cases h; exact (changeNFTApproveAddress_steps s a b).journaled
  | cancelNFTApproveAddress a b => cases h; exact (cancelNFTApproveAddress_steps s a b).journaled
  | splitNFT16 a level => exact (splitNFT16_nftWrite h).steps.journaled
  | mergeNFT16 a => exact (mergeNFT16_nftWrite h).steps.journaled
  | changeNFTOwner a b level => exact (changeNFTOwner_nftWrite h).steps.journaled
  | exchangeNFTToCurrency a b bn level => exact (exchangeNFTToCurrency_steps h).journaled
  | createNFTByUser a b royalty url => cases h; exact (createNFTByUser_steps s a b royalty url).journaled
  | createNFTByOfficial16 owners bn => exact (createNFTByOfficial16_steps h).journaled
  | injectOfficialNFT e => cases h; exact (injectOfficialNFT_steps s e (P := fun _ _ _ => True)).journaled
  | electNominatedOfficialNFT => exact (electNominatedOfficialNFT_steps h).journaled
  | voteOfficialNFT n => cases h; exact (voteOfficialNFT_steps s n (P := fun _ _ _ => True)).journaled
  | pledgeToken a x => cases h; exact (pledgeToken_steps s a x).journaled
  | cancelPledgedToken a x => exact (cancelPledgedToken_steps h).journaled
  | openExchanger a x bn fee name url =>
    cases h
    exact (openExchanger_steps s a x bn fee name url).journaled
  | closeExchanger a bn => exact (closeExchanger_steps h).journaled
  | addExchangerToken a x => exact (addExchangerToken_steps h).journaled
  | subExchangerToken a x => exact (subExchangerToken_steps h).journaled
  | addOrUpdateActiveMiner a x height =>
    cases h
    exact (addOrUpdateActiveMiner_steps s a x height (P := fun _ _ _ => True)).journaled
  | snapshot => exact absurd rfl hsnapshot
  | revertToSnapshot id => exact absurd rfl (hrevert id)
  | finalise => exact absurd rfl hfinalise

namespace AccountOperation

/-- An operation between a snapshot and its revert: a snapshot, a revert, or a journaled one. -/
theorem apply_cases {op : AccountOperation} (h : op.apply H s = some t)
    (hop : op ≠ database .finalise) :
    t = s.snapshot ∨ (∃ id, op = database (.revertToSnapshot id) ∧ s.revertToSnapshot id = some t) ∨
      Journaled s t := by
  have hfound := getOrNewStateObject_found s
  have hsteps : ∀ a, Journaled s (s.getOrNewStateObject a).1 := fun a =>
    (getOrNewStateObject_steps s a (P := fun _ _ _ => True)).journaled
  cases op with
  | database op =>
    by_cases hsnapshot : op = .snapshot
    · subst hsnapshot
      cases h
      exact Or.inl rfl
    by_cases hrevert : ∃ id, op = .revertToSnapshot id
    · obtain ⟨id, rfl⟩ := hrevert
      exact Or.inr (Or.inl ⟨id, rfl, h⟩)
    · refine Or.inr (Or.inr (Operation.apply_journaled h hsnapshot ?_ ?_))
      · exact fun id hid => hrevert ⟨id, hid⟩
      · exact fun hfin => hop (congrArg database hfin)
  | setBalance a x =>
    cases h
    refine Or.inr (Or.inr ((hsteps a).trans ?_))
    exact (Steps.rewrite (.refl _) (hfound a) (JournalEntry.restores_balance x) trivial :
      Steps (fun _ _ _ => True) _ _).journaled
  | setNFTInfo a info =>
    cases h
    exact Or.inr (Or.inr (putNFTInfo_nftWrite s a info).steps.journaled)
  | cleanNFT a =>
    cases h
    exact Or.inr (Or.inr (putNFTInfo_nftWrite s a .blank).steps.journaled)
  | setOwner a b =>
    cases h
    exact Or.inr (Or.inr ((hsteps a).trans (changeObjectOwner_nftWrite (hfound a) b).steps.journaled))
  | addPledgedBalance a x =>
    cases h
    exact Or.inr (Or.inr (addPledgedBalance_steps s a x).journaled)
  | subPledgedBalance a x => exact Or.inr (Or.inr (subPledgedBalance_steps s a h).journaled)
  | addExchangerBalance a x => exact Or.inr (Or.inr (addExchangerBalance_steps s a h).journaled)
  | subExchangerBalance a x => exact Or.inr (Or.inr (addExchangerBalance_steps s a h).journaled)

end AccountOperation

/-! ## Between a snapshot and its revert -/

/-- The revision a snapshot of a state is entered as. -/
def StateDB.mark (s : StateDB) : Revision := ⟨s.nextRevisionId, s.journal.length⟩

@[simp] theorem StateDB.mark_id (s : StateDB) : s.mark.id = s.nextRevisionId := rfl

/-- `t` comes after a snapshot of `s` that is still valid: the revisions since then have recorded
states, the first of them `s`. -/
structure Since (s t : StateDB) (rs : List Revision) (ps : List (ℕ × StateDB)) : Prop where
  revisions : t.validRevisions = rs ++ s.mark :: s.validRevisions
  tracked : Tracked t (rs ++ [s.mark]) (ps ++ [(s.nextRevisionId, s)])
  later : ∀ r ∈ rs, s.nextRevisionId < r.id
  next : s.nextRevisionId < t.nextRevisionId

namespace Since

variable {s t u : StateDB} {rs : List Revision} {ps : List (ℕ × StateDB)}

theorem snapshot_self (s : StateDB) : Since s s.snapshot [] [] where
  revisions := rfl
  tracked := ⟨rfl, rfl, Logged.refl _ _, trivial⟩
  later := by simp
  next := Nat.lt_succ_self _

theorem journaled (h : Since s t rs ps) (hj : Journaled t u) : Since s u rs ps where
  revisions := hj.revisions.trans h.revisions
  tracked := h.tracked.journaled hj.logged
  later := h.later
  next := hj.nextId ▸ h.next

theorem snapshot (h : Since s t rs ps) :
    Since s t.snapshot (⟨t.nextRevisionId, t.journal.length⟩ :: rs) ((t.nextRevisionId, t) :: ps) where
  revisions := congrArg (List.cons _) h.revisions
  tracked := ⟨rfl, rfl, Logged.refl _ _, h.tracked⟩
  later := by
    intro r hr
    rcases List.mem_cons.mp hr with rfl | hr
    · exact h.next
    · exact h.later r hr
  next := Nat.lt_succ_of_lt h.next

/-- The revisions since the snapshot, seen in the whole list. -/
theorem revisions_append (h : Since s t rs ps) : t.validRevisions =
    (rs ++ [s.mark]) ++ s.validRevisions := by
  rw [h.revisions, List.append_assoc]
  rfl

/-- The recorded states behind the one of a later revision still end with that of the snapshot. -/
theorem exists_of_dropWhile {base : Revision} {p q : ℕ × StateDB} {ps' : List (ℕ × StateDB)}
    (hq : q.1 ≤ id) (hps : ((ps ++ [q]).dropWhile fun p => decide (p.1 > id)) = p :: ps')
    (htracked : Tracked u (older ++ [base]) ps') : ∃ ps'', ps' = ps'' ++ [q] := by
  rw [List.dropWhile_append] at hps
  cases hdrop : ps.dropWhile fun p => decide (p.1 > id) with
  | nil =>
    rw [hdrop] at hps
    simp only [List.isEmpty_nil, if_true, List.dropWhile_cons] at hps
    rw [if_neg (by simpa using hq)] at hps
    cases hps
    cases older <;> exact htracked.elim
  | cons p₀ ps₀ =>
    rw [hdrop] at hps
    cases hps
    exact ⟨ps₀, rfl⟩

/-- A revert to a later snapshot stays after this one. -/
theorem revert (h : Since s t rs ps) (hid : s.nextRevisionId < id)
    (hrevert : t.revertToSnapshot id = some u) : ∃ rs' ps', Since s u rs' ps' := by
  cases hdrop : rs.dropWhile fun r => decide (r.id > id) with
  | nil =>
    -- the walk stops at this snapshot's own revision, which has another id
    have hwalk : (t.validRevisions.dropWhile fun r => decide (r.id > id)) =
        s.mark :: s.validRevisions := by
      rw [h.revisions, List.dropWhile_append, hdrop]
      simp only [List.isEmpty_nil, if_true, List.dropWhile_cons]
      rw [if_neg (by simpa using Nat.le_of_lt hid)]
    rw [revertToSnapshot, hwalk] at hrevert
    simp [hid.ne] at hrevert
  | cons r older =>
    have hwalk : ((rs ++ [s.mark]).dropWhile
        fun r : Revision => decide (r.id > id)) =
        r :: (older ++ [s.mark]) := by
      rw [List.dropWhile_append, hdrop]
      rfl
    by_cases hr : r.id = id
    · obtain ⟨v, p, ps', hv, hps, -, -, -, -, hrevisions, hnext, htracked, -⟩ :=
        h.tracked.exists_revert h.revisions_append hwalk hr
      rw [hv] at hrevert
      cases hrevert
      obtain ⟨ps'', rfl⟩ := exists_of_dropWhile (Nat.le_of_lt hid) hps htracked
      refine ⟨older, ps'', ⟨?_, htracked, ?_, hnext ▸ h.next⟩⟩
      · rw [hrevisions, List.append_assoc]
        rfl
      · intro r' hr'
        have hmem : r' ∈ rs.dropWhile fun r => decide (r.id > id) := by
          rw [hdrop]
          exact List.mem_cons_of_mem _ hr'
        exact h.later r' (List.dropWhile_subset _ hmem)
    · have hfail : t.revertToSnapshot id = none := by
        rw [revertToSnapshot, h.revisions_append, List.dropWhile_append, hwalk]
        simp [hr]
      rw [hfail] at hrevert
      cases hrevert

/-- The revert to the snapshot succeeds and gives back its accounts and journal. -/
theorem restores (h : Since s t rs ps) :
    ∃ u, t.revertToSnapshot s.nextRevisionId = some u ∧ u.accounts.Equiv s.accounts ∧
      u.journal = s.journal ∧ u.validRevisions = s.validRevisions := by
  have hall : rs.dropWhile (fun r => decide (r.id > s.nextRevisionId)) = [] := by
    rw [List.dropWhile_eq_nil_iff]
    intro r hr
    simpa using h.later r hr
  have hwalk : ((rs ++ [s.mark]).dropWhile
      fun r : Revision => decide (r.id > s.nextRevisionId)) =
      [s.mark] := by
    rw [List.dropWhile_append, hall]
    simp
  obtain ⟨u, p, ps', hu, hps, -, hequiv, hjournal, -, hrevisions, -, htracked, -⟩ :=
    h.tracked.exists_revert h.revisions_append hwalk rfl
  -- no recorded state is left, so the one found is the last: the snapshot's own
  have hps' : ps' = [] := by
    cases ps' with
    | nil => rfl
    | cons q qs => exact htracked.elim
  have hlast : p = (s.nextRevisionId, s) := by
    have hsuffix := List.dropWhile_suffix (l := ps ++ [(s.nextRevisionId, s)])
      (fun p : ℕ × StateDB => decide (p.1 > s.nextRevisionId))
    rw [hps, hps'] at hsuffix
    obtain ⟨pre, hpre⟩ := hsuffix
    have hget := congrArg List.getLast? hpre
    simpa using hget
  subst hlast
  exact ⟨u, hu, hequiv, hjournal, hrevisions⟩

end Since

/-- Between a snapshot and its revert, the snapshot stays valid. -/
theorem AccountOperation.since_of_run {ops : List AccountOperation}
    (hrun : Run (apply H) (fun _ op => op.Between s.nextRevisionId) s.snapshot ops t) :
    ∃ rs ps, Since s t rs ps := by
  refine hrun.invariant (P := fun u => ∃ rs ps, Since s u rs ps) ⟨[], [], Since.snapshot_self s⟩ ?_
  intro t u op hsince hop hstep
  obtain ⟨rs, ps, hsince⟩ := hsince
  have hfinalise : op ≠ database .finalise := by
    intro h
    subst h
    exact hop
  rcases apply_cases hstep hfinalise with rfl | ⟨id, rfl, hrevert⟩ | hj
  · exact ⟨_, _, hsince.snapshot⟩
  · exact hsince.revert hop hrevert
  · exact ⟨rs, ps, hsince.journaled hj⟩

/-- **A revert restores the accounts.** After any account operations, with nested snapshots and reverts
among them, the revert to a snapshot succeeds, and every account exists exactly if it did and has the
fields it had, an absent balance read as zero. -/
theorem revertToSnapshot_restores {s t : StateDB} {ops : List AccountOperation}
    (hrun : Run (AccountOperation.apply H) (fun _ op => op.Between s.nextRevisionId) s.snapshot ops t) :
    ∃ u, t.revertToSnapshot s.nextRevisionId = some u ∧
      ∀ a, u.exist a = s.exist a ∧
        (u.getStateObject a).map StateObject.normal = (s.getStateObject a).map StateObject.normal := by
  obtain ⟨rs, ps, hsince⟩ := AccountOperation.since_of_run hrun
  obtain ⟨u, hu, hequiv, -, -⟩ := hsince.restores
  refine ⟨u, hu, fun a => ⟨?_, hequiv a⟩⟩
  have hsome := congrArg Option.isSome (hequiv a)
  simpa [exist, getStateObject] using hsome

/-- An NFT is written and paid for, an inner snapshot is reverted, and the account is made anew and
destroys itself. -/
def busyOperations : List AccountOperation :=
  [.setNFTInfo 1 { AccountNFT.blank with owner := 7 }, .database (.addBalance 1 5),
    .database .snapshot, .addPledgedBalance 2 3, .database (.revertToSnapshot 1),
    .database (.createAccount 1), .database (.suicide 1)]

/-- The empty state is restored after all of them. -/
theorem revertToSnapshot_restores_busy : ∃ t u,
    Run (AccountOperation.apply ⟨fun _ => []⟩)
        (fun _ op => op.Between Operation.bareState.nextRevisionId) Operation.bareState.snapshot
        busyOperations t ∧
      t.revertToSnapshot Operation.bareState.nextRevisionId = some u ∧
        ∀ a, u.exist a = Operation.bareState.exist a := by
  have hsome : (runAll (AccountOperation.apply ⟨fun _ => []⟩) busyOperations
      Operation.bareState.snapshot).isSome = true := by
    decide +kernel
  obtain ⟨t, ht⟩ := Option.isSome_iff_exists.mp hsome
  have hbetween : ∀ op ∈ busyOperations, op.Between Operation.bareState.nextRevisionId := by
    intro op hop
    simp only [busyOperations, List.mem_cons, List.not_mem_nil, or_false] at hop
    rcases hop with rfl | rfl | rfl | rfl | rfl | rfl | rfl
    all_goals first | exact Nat.one_pos | trivial
  have hrun : Run (AccountOperation.apply ⟨fun _ => []⟩)
      (fun _ op => op.Between Operation.bareState.nextRevisionId) Operation.bareState.snapshot
      busyOperations t := Run.of_runAll (fun _ => hbetween) ht
  obtain ⟨u, hu, hsame⟩ := revertToSnapshot_restores hrun
  exact ⟨t, u, hrun, hu, fun a => (hsame a).1⟩

end Wormholes
