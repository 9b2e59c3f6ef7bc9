import Wormholes.Laws.Chain.Steps
import Wormholes.Vm.Call

/-!
# Laws.Vm.Static — what a static call can leave behind

A frame below a static call may make accounts that are as good as absent, and touch others: that
is what `Touches` says, together with what a revert needs to know of the journal. The write
protection stops every other change but two kinds. The NFT opcodes that write have no `writes`
flag, and a `CALL` without value whose input is a payload runs `HandleNFT`. `Harmless` is when
those write nothing.
-/

namespace Wormholes.Vm

open Lib Core StateDB

variable {m : Accounts} {failed : Bool} {addr : Address} {input : CallInput} {value : ℕ}

/-! ## Touched states -/

/-- A journal entry over `s` whose undoing changes nothing an account holds. -/
def TouchEntry (s : StateDB) (e : JournalEntry) : Prop :=
  (∃ a, e = .touchChange a) ∨ ∃ a, e = .createObjectChange a ∧ s.accounts a = none

/-- The accounts `m` are those of `s` and fresh ones. -/
def OnlyFresh (s : StateDB) (m : Accounts) : Prop :=
  ∀ a, m a = s.accounts a ∨ s.accounts a = none ∧ m a = some .fresh

/-- `t` comes from `s` by touching accounts and taking snapshots. -/
structure Touches (s t : StateDB) : Prop where
  accounts : OnlyFresh s t.accounts
  pools : t.pools = s.pools
  journal : ∃ es, t.journal = es ++ s.journal ∧ ∀ e ∈ es, TouchEntry s e
  revisions : ∃ rs, t.validRevisions = rs ++ s.validRevisions ∧ ∀ r ∈ rs, s.nextRevisionId ≤ r.id
  nextRevisionId : s.nextRevisionId ≤ t.nextRevisionId

variable {s t u : StateDB} {a b : Address}

theorem OnlyFresh.none_of_none (h : OnlyFresh s m) (ha : m a = none) : s.accounts a = none := by
  rcases h a with heq | ⟨hnone, -⟩
  · rw [← heq, ha]
  · exact hnone

namespace Touches

theorem refl (s : StateDB) : Touches s s where
  accounts := fun _ => .inl rfl
  pools := rfl
  journal := ⟨[], rfl, by simp⟩
  revisions := ⟨[], rfl, by simp⟩
  nextRevisionId := le_rfl

theorem trans (h : Touches s t) (h' : Touches t u) : Touches s u where
  accounts := by
    intro a
    rcases h'.accounts a with heq | ⟨hnone, hfresh⟩
    · rw [heq]
      exact h.accounts a
    · exact .inr ⟨h.accounts.none_of_none hnone, hfresh⟩
  pools := h'.pools.trans h.pools
  journal := by
    obtain ⟨es, hes, htouch⟩ := h.journal
    obtain ⟨fs, hfs, htouch'⟩ := h'.journal
    refine ⟨fs ++ es, by rw [hfs, hes, List.append_assoc], fun e he => ?_⟩
    rcases List.mem_append.mp he with he | he
    · rcases htouch' e he with htouched | ⟨a, rfl, ha⟩
      · exact .inl htouched
      · exact .inr ⟨a, rfl, h.accounts.none_of_none ha⟩
    · exact htouch e he
  revisions := by
    obtain ⟨rs, hrs, hid⟩ := h.revisions
    obtain ⟨qs, hqs, hid'⟩ := h'.revisions
    refine ⟨qs ++ rs, by rw [hqs, hrs, List.append_assoc], fun r hr => ?_⟩
    rcases List.mem_append.mp hr with hr | hr
    · exact h.nextRevisionId.trans (hid' r hr)
    · exact hid r hr
  nextRevisionId := h.nextRevisionId.trans h'.nextRevisionId

theorem snapshot (s : StateDB) : Touches s s.snapshot where
  accounts := fun _ => .inl rfl
  pools := rfl
  journal := ⟨[], rfl, by simp⟩
  revisions := ⟨[⟨s.nextRevisionId, s.journal.length⟩], rfl, by simp⟩
  nextRevisionId := Nat.le_succ _

theorem getOrNewStateObject (s : StateDB) (a : Address) :
    Touches s (s.getOrNewStateObject a).1 := by
  unfold StateDB.getOrNewStateObject
  split
  next => exact refl s
  next hnone =>
    have hcreate : s.createObject a = s.change (.createObjectChange a) a .fresh := by
      unfold createObject
      rw [hnone]
    rw [hcreate]
    refine ⟨fun b => ?_, rfl, ⟨[.createObjectChange a], rfl, ?_⟩, ⟨[], rfl, by simp⟩, le_rfl⟩
    · by_cases hb : b = a
      · subst hb
        exact .inr ⟨hnone, Accounts.set_self _ _ _⟩
      · exact .inl (Accounts.set_of_ne _ _ hb)
    · intro e he
      rw [List.mem_singleton.mp he]
      exact .inr ⟨a, rfl, hnone⟩

theorem append (s : StateDB) (a : Address) : Touches s (s.append (.touchChange a)) where
  accounts := fun _ => .inl rfl
  pools := rfl
  journal := ⟨[.touchChange a], rfl, fun e he => .inl ⟨a, List.mem_singleton.mp he⟩⟩
  revisions := ⟨[], rfl, by simp⟩
  nextRevisionId := le_rfl

theorem addBalance_zero (s : StateDB) (a : Address) : Touches s (s.addBalance a 0) := by
  have hnew := getOrNewStateObject s a
  simp only [addBalance, if_true]
  split
  · exact hnew.trans (append _ a)
  · exact hnew

theorem transfer_zero (s : StateDB) (a b : Address) : Touches s (s.transfer a b 0) := by
  have hsub : Touches s (s.subBalance a 0) := by
    simp only [subBalance, if_true]
    exact getOrNewStateObject s a
  exact hsub.trans (addBalance_zero _ b)

end Touches

/-! ## Reverts -/

/-- Undoing touches leaves accounts that are fresh or as before. -/
theorem undoAll_onlyFresh {es : List JournalEntry} {m' : Accounts} (hes : ∀ e ∈ es, TouchEntry s e)
    (hm : OnlyFresh s m) (h : undoAll JournalEntry.revert es m = some m') : OnlyFresh s m' := by
  induction es generalizing m with
  | nil =>
    cases h
    exact hm
  | cons e es ih =>
    obtain ⟨m₁, hrev, hrest⟩ := Option.bind_eq_some_iff.mp h
    refine ih (fun e' he' => hes e' (List.mem_cons_of_mem e he')) ?_ hrest
    rcases hes e List.mem_cons_self with ⟨a, rfl⟩ | ⟨a, rfl, ha⟩
    · cases hrev
      exact hm
    · cases hrev
      intro b
      by_cases hb : b = a
      · subst hb
        exact .inl ((Accounts.set_self _ _ _).trans ha.symm)
      · rw [Accounts.set_of_ne _ _ hb]
        exact hm b

/-- A frame that only touched accounts and is reverted has only touched accounts. -/
theorem Touches.revert (h : Touches s.snapshot t)
    (hrev : t.revertToSnapshot s.nextRevisionId = some u) : Touches s u := by
  obtain ⟨es, hes, htouch⟩ := h.journal
  obtain ⟨rs, hrs, hid⟩ := h.revisions
  have hfind : (t.validRevisions.dropWhile fun r => decide (r.id > s.nextRevisionId)) =
      ⟨s.nextRevisionId, s.journal.length⟩ :: s.validRevisions := by
    rw [hrs, List.dropWhile_append_of_pos]
    · change List.dropWhile _ (⟨s.nextRevisionId, s.journal.length⟩ :: s.validRevisions) = _
      rw [List.dropWhile_cons_of_neg (by simp)]
    · intro r hr
      exact decide_eq_true (hid r hr)
  have hundone : t.journal.length - s.journal.length = es.length := by
    rw [hes]
    simp [StateDB.snapshot]
  have htake : t.journal.take es.length = es := by rw [hes, List.take_left]
  have hdrop : t.journal.drop es.length = s.journal := by
    rw [hes, List.drop_left]
    rfl
  unfold revertToSnapshot at hrev
  rw [hfind] at hrev
  simp only [if_true, hundone, htake, hdrop] at hrev
  obtain ⟨m, hm, rfl⟩ := Option.map_eq_some_iff.mp hrev
  exact
    { accounts := undoAll_onlyFresh htouch h.accounts hm
      pools := h.pools
      journal := ⟨[], rfl, by simp⟩
      revisions := ⟨[], rfl, by simp⟩
      nextRevisionId := (Nat.le_succ _).trans h.nextRevisionId }

theorem Touches.settle (h : Touches s.snapshot t)
    (hsettle : settle s.nextRevisionId t failed = some u) : Touches s u := by
  unfold Vm.settle at hsettle
  split at hsettle
  next => exact h.revert hsettle
  next =>
    cases hsettle
    exact (Touches.snapshot s).trans h

/-! ## Frames -/

variable (K : Crypto) (blocknumber : ℕ)

/-- What the write protection lets through writes nothing: a transfer, an approval or a mint is
refused by the opcode's own check, a blanket approval is already as it is asked to be, and
`HandleNFT` refuses the payload of a call without value. -/
def Harmless (s : StateDB) (ctx : Context) (op : StateOp) : Prop :=
  match op with
  | .nTransferFrom fromAddr _ nftAddr =>
    ¬ (getNFTOwner16 K.toHasher s nftAddr = fromAddr ∧
        getNFTOwner16 K.toHasher s nftAddr = ctx.caller ∨
      isApproved K.toHasher s nftAddr fromAddr = true)
  | .nApprove _ nftAddr => ctx.caller ≠ getNFTOwner16 K.toHasher s nftAddr
  | .nSetApprovalForAll toAddr approved => s.isApprovedForAll ctx.caller toAddr = approved
  | .nMint .. => s.getExchangerFlag ctx.caller = false
  | .call addr (.wormholes w) 0 =>
    ∃ msg, handleNFT K s.snapshot blocknumber ctx.self addr w 0 = .err msg
  | _ => True

variable {K blocknumber} {ctx : Context}

theorem isApproveAddress_getOrNew (s : StateDB) (a b : Address) :
    (s.getOrNewStateObject a).2.isApproveAddress b = s.isApprovedForAll a b := by
  unfold getOrNewStateObject isApprovedForAll
  cases s.getStateObject a with
  | none => rfl
  | some o => rfl

/-- A blanket approval that is as asked only touches the account. -/
theorem touches_opNSetApprovalForAll {approved : Bool}
    (h : s.isApprovedForAll a b = approved) :
    Touches s (Core.opNSetApprovalForAll s a b approved) := by
  rw [← isApproveAddress_getOrNew] at h
  have hnew := Touches.getOrNewStateObject s a
  unfold Core.opNSetApprovalForAll
  cases approved with
  | true =>
    simp only [if_true, changeApproveAddress, h]
    exact hnew
  | false =>
    simp only [Bool.false_eq_true, if_false, cancelApproveAddress, h]
    exact hnew

/-- An opcode without a frame that passes the write protection and is harmless. -/
theorem touches_applyLocal {op : StateOp} (hallowed : op.writeProtected = false)
    (hok : Harmless K blocknumber s ctx op) (h : applyLocal K ctx op s = .ok t) : Touches s t := by
  cases op with
  | sstore | log | selfDestruct | create => cases hallowed
  | read | call | callCode | delegateCall | staticCall =>
    cases h
    exact .refl s
  | nTransferFrom fromAddr toAddr nftAddr =>
    have herr : applyLocal K ctx (.nTransferFrom fromAddr toAddr nftAddr) s = .err _ := if_neg hok
    rw [herr] at h
    cases h
  | nApprove toAddr nftAddr =>
    have herr : applyLocal K ctx (.nApprove toAddr nftAddr) s = .err _ := if_neg hok
    rw [herr] at h
    cases h
  | nSetApprovalForAll toAddr approved =>
    cases h
    exact touches_opNSetApprovalForAll hok
  | nMint toAddr royalty uri =>
    have hflag : s.getExchangerFlag ctx.caller = false := hok
    have herr : applyLocal K ctx (.nMint toAddr royalty uri) s = .err _ :=
      if_neg (by simp [hflag])
    rw [herr] at h
    cases h

/-- A call that passes the write protection carries no value. -/
theorem value_eq_zero (h : (StateOp.call addr input value).writeProtected = false) : value = 0 := by
  simpa [StateOp.writeProtected, StateOp.writes] using h

/-- A harmless call up to the callee's code. -/
theorem touches_evmCall (hallowed : (StateOp.call addr input value).writeProtected = false)
    (hok : Harmless K blocknumber s ctx (.call addr input value))
    (h : evmCall K s blocknumber ctx.self addr input value = some (t, failed)) :
    Touches s.snapshot t := by
  obtain rfl := value_eq_zero hallowed
  unfold evmCall at h
  rw [if_neg (by simp)] at h
  cases input with
  | plain =>
    cases h
    exact .transfer_zero _ _ _
  | malformed =>
    cases h
    exact .refl _
  | wormholes w =>
    obtain ⟨msg, hmsg⟩ := hok
    simp only [hmsg] at h
    cases h
    exact .refl _

/-- A harmless frame below a static call only touches accounts. -/
theorem touches_exec {readOnly : Bool}
    (h : Exec K blocknumber (Harmless K blocknumber) readOnly ctx s t failed)
    (hro : readOnly = true) : Touches s t := by
  induction h with
  | halt => exact .refl _
  | fail => exact .refl _
  | opcode op hallowed hok happly _ ih =>
    subst hro
    exact (touches_applyLocal hallowed hok happly).trans (ih rfl)
  | callFailed addr input value hallowed hok hcall _ ih =>
    subst hro
    exact ((Touches.snapshot _).trans (touches_evmCall hallowed hok hcall)).trans (ih rfl)
  | call addr input value hallowed hok hcall _ hsettle _ ihcallee ih =>
    subst hro
    have hframe := (touches_evmCall hallowed hok hcall).trans (ihcallee rfl)
    exact (hframe.settle hsettle).trans (ih rfl)
  | callCode _ _ hsettle _ ihcallee ih => exact ((ihcallee hro).settle hsettle).trans (ih hro)
  | delegateCall _ _ hsettle _ ihcallee ih => exact ((ihcallee hro).settle hsettle).trans (ih hro)
  | staticCall addr _ _ hsettle _ ihcallee ih =>
    have hframe := (Touches.addBalance_zero _ addr).trans (ihcallee rfl)
    exact (hframe.settle hsettle).trans (ih hro)
  | createFailed _ _ hallowed =>
    subst hro
    cases hallowed
  | create _ _ _ hallowed =>
    subst hro
    cases hallowed

/-! ## Static calls -/

/-- What the account at an address holds; an absent one reads as a fresh one. -/
def content (s : StateDB) (a : Address) : StateObject := (s.accounts a).getD .fresh

/-- Every account holds the same balance, nonce, code, storage, NFT, approvals and stakes, and the
pools are the same. -/
structure Unchanged (s t : StateDB) : Prop where
  content_eq : ∀ a, content t a = content s a
  pools_eq : t.pools = s.pools

theorem Touches.unchanged (h : Touches s t) : Unchanged s t := by
  refine ⟨fun a => ?_, h.pools⟩
  unfold content
  rcases h.accounts a with heq | ⟨hnone, hfresh⟩
  · rw [heq]
  · rw [hnone, hfresh]
    rfl

/-- A static call in which whatever passes the write protection is harmless changes nothing. -/
theorem staticCall_unchanged {caller addr : Address}
    (h : StaticCall K blocknumber (Harmless K blocknumber) caller addr s t) : Unchanged s t := by
  obtain ⟨s', failed, hexec, hsettle⟩ := h
  have hframe := (Touches.addBalance_zero s.snapshot addr).trans (touches_exec hexec rfl)
  exact (hframe.settle hsettle).unchanged

/-- A static call of account 2. It takes back an approval that was never given, calls account 5 without
value, calls it once more with a mint whose royalty is out of range, and stops. -/
theorem staticCall_unchanged_refused :
    ∃ t, StaticCall .trivial 1 (Harmless .trivial 1) 1 2 (Genesis.small []).emptyState t ∧
      Unchanged (Genesis.small []).emptyState t := by
  have hcall : ∃ t, StaticCall .trivial 1 (Harmless .trivial 1) 1 2 (Genesis.small []).emptyState t :=
    ⟨_, _, false, .opcode (.nSetApprovalForAll 3 false) rfl rfl rfl <|
      .call 5 .plain 0 rfl trivial rfl .halt rfl <|
      .callFailed 5 (.wormholes (.bare 0)) 0 rfl ⟨_, rfl⟩ rfl .halt, rfl⟩
  obtain ⟨t, hcall⟩ := hcall
  exact ⟨t, hcall, staticCall_unchanged hcall⟩

theorem isApprovedForAll_eq (s : StateDB) (a b : Address) :
    s.isApprovedForAll a b = (content s a).isApproveAddress b := by
  unfold isApprovedForAll content getStateObject
  cases s.accounts a with
  | none => rfl
  | some o => rfl

/-- Below a static call `NSETAPPROVALFORALL` approves account 3 for the caller's NFTs, and a `CALL`
without value mints an NFT. -/
theorem staticCall_writes :
    (∃ t, StaticCall .trivial 1 (fun _ _ _ => True) 1 2 (Genesis.small []).emptyState t ∧
      t.isApprovedForAll 1 3 = true ∧ ¬ Unchanged (Genesis.small []).emptyState t) ∧
    ∃ t, StaticCall .trivial 1 (fun _ _ _ => True) 1 2 (Genesis.small []).emptyState t ∧
      t.pools.mintDeep.userMint = 2 ∧ ¬ Unchanged (Genesis.small []).emptyState t := by
  constructor
  · refine ⟨_, ⟨_, false, .opcode (.nSetApprovalForAll 3 true) rfl trivial rfl .halt, rfl⟩, ?_⟩
    refine (and_iff_left_of_imp fun happroved hsame => ?_).mpr (by decide +kernel)
    rw [isApprovedForAll_eq, hsame.content_eq] at happroved
    exact absurd happroved (by decide +kernel)
  · refine ⟨_, ⟨_, false, .call 5 (.wormholes { WormholesTx.bare 0 with royalty := 100 }) 0 rfl trivial
      rfl .halt rfl .halt, rfl⟩, ?_⟩
    refine (and_iff_left_of_imp fun hminted hsame => ?_).mpr (by decide +kernel)
    rw [hsame.pools_eq] at hminted
    exact absurd hminted (by decide)

end Wormholes.Vm
