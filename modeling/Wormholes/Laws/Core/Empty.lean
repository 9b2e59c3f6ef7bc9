import Wormholes.Laws.Chain.Steps

/-!
# Laws.Core.Empty — accounts that a transaction leaves empty

`Finalise(true)` is to remove the accounts that a transaction touched and left with nothing. The test
it makes takes the length of an NFT's approved address, which is an array of twenty bytes, so no
account ever passes it: a touched account with nothing goes away only if it destroyed itself.

`Call` is not to make an account for a call of value zero. Its guard asks for a flag that is set only
later, so the guard never fires and the transfer of nothing makes the account.
-/

namespace Wormholes

open Core StateDB

/-- Every field of an account has its default: zero or absent, no text, no flag, no address. -/
structure StateObject.Default (o : StateObject) : Prop where
  nonce : o.nonce = 0
  balance : o.balance = 0
  code : o.code = []
  pledgedBalance : o.pledgedBalance.getD 0 = 0
  exchangerFlag : o.exchangerFlag = false
  blockNumber : o.blockNumber.getD 0 = 0
  exchangerBalance : o.exchangerBalance.getD 0 = 0
  voteWeight : o.voteWeight.getD 0 = 0
  feeRate : o.feeRate = 0
  exchangerName : o.exchangerName = []
  exchangerURL : o.exchangerURL = []
  approveAddressList : o.approveAddressList = []
  nft : o.nft = .blank

theorem StateObject.default_fresh : StateObject.fresh.Default where
  nonce := rfl
  balance := rfl
  code := rfl
  pledgedBalance := rfl
  exchangerFlag := rfl
  blockNumber := rfl
  exchangerBalance := rfl
  voteWeight := rfl
  feeRate := rfl
  exchangerName := rfl
  exchangerURL := rfl
  approveAddressList := rfl
  nft := rfl

/-- After finalisation no account that the transaction touched has all its fields at their
defaults. -/
def EmptyCleared (s : StateDB) : Prop :=
  ∀ a ∈ s.dirties, ∀ o, s.finalise.accounts a = some o → ¬o.Default

/-- The transaction touched no account whose fields are all at their defaults, those apart that
destroyed themselves. -/
def NoneEmpty (s : StateDB) : Prop :=
  ∀ a ∈ s.dirties, ∀ o, s.accounts a = some o → o.suicided = true ∨ ¬o.Default

/-- Finalisation removes no account for being empty, so none is left only if none was there. -/
theorem emptyCleared_iff (s : StateDB) : EmptyCleared s ↔ NoneEmpty s := by
  constructor
  · intro h a ha o ho
    cases hsuicided : o.suicided with
    | true => exact Or.inl rfl
    | false =>
      refine Or.inr (h a ha o ?_)
      rw [accounts_finalise, ho, Option.filter_some, hsuicided]
      rfl
  · intro h a ha o ho
    have hbefore := accounts_of_finalise ho
    refine (h a ha o hbefore).resolve_left fun hsuicided => ?_
    rw [accounts_finalise, hbefore, Option.filter_some, hsuicided] at ho
    cases ho

/-! ## Calls of value zero -/

section

variable (K : Crypto) (db : StateDB) (number : ℕ) (caller addr : Address)

/-- A call of value zero without a payload to an address that does not exist, followed by
finalisation, leaves the accounts that exist. -/
def ZeroCallKeepsAccounts : Prop :=
  db.exist addr = false → ∀ r, evmCall K db number caller addr .plain 0 = some r →
    ∀ a, r.1.finalise.exist a = db.exist a

theorem evmCall_plain_zero :
    evmCall K db number caller addr .plain 0 = some (db.snapshot.transfer caller addr 0, false) := by
  simp [evmCall]

end

theorem accounts_addBalance_zero (s : StateDB) (a : Address) :
    (s.addBalance a 0).accounts = (s.getOrNewStateObject a).1.accounts := by
  unfold addBalance
  dsimp only
  rw [if_pos rfl, never_empty]
  rfl

theorem accounts_subBalance_zero (s : StateDB) (a : Address) :
    (s.subBalance a 0).accounts = (s.getOrNewStateObject a).1.accounts := rfl

/-- An absent account that is opened is a fresh one. -/
theorem accounts_getOrNewStateObject_of_none {s : StateDB} {a b : Address}
    (h : s.accounts b = none) :
    (s.getOrNewStateObject a).1.accounts b = if b = a then some .fresh else none := by
  by_cases hb : b = a
  · subst hb
    simp [getOrNewStateObject, getStateObject, createObject, h, change]
  · cases ha : s.accounts a with
    | none => simp [getOrNewStateObject, getStateObject, createObject, ha, change, Accounts.set, hb, h]
    | some o => simp [getOrNewStateObject, getStateObject, ha, hb, h]

/-- A transfer of nothing makes the account it is to. -/
theorem accounts_transfer_zero {s : StateDB} (caller : Address) {addr : Address}
    (h : s.accounts addr = none) : (s.transfer caller addr 0).accounts addr = some .fresh := by
  have hsent := accounts_getOrNewStateObject_of_none (a := caller) h
  rw [← accounts_subBalance_zero] at hsent
  show ((s.subBalance caller 0).addBalance addr 0).accounts addr = some .fresh
  rw [accounts_addBalance_zero]
  by_cases hcaller : addr = caller
  · rw [if_pos hcaller] at hsent
    rw [getOrNewStateObject, getStateObject, hsent]
    exact hsent
  · rw [if_neg hcaller] at hsent
    rw [accounts_getOrNewStateObject_of_none hsent, if_pos rfl]

/-- What a call of value zero to an absent account leaves there. -/
theorem finalise_zero_call {db : StateDB} (caller : Address) {addr : Address}
    (h : db.accounts addr = none) :
    (db.snapshot.transfer caller addr 0).finalise.accounts addr = some .fresh := by
  have hfresh := accounts_transfer_zero (s := db.snapshot) caller h
  rw [accounts_finalise, hfresh]
  rfl

/-- A call of value zero makes an account at the called address, unless there is one. -/
theorem zeroCallKeepsAccounts_iff (K : Crypto) (db : StateDB) (number : ℕ) (caller addr : Address) :
    ZeroCallKeepsAccounts K db number caller addr ↔ db.exist addr = true := by
  constructor
  · intro hkeeps
    by_contra hexist
    have hnone : db.exist addr = false := Bool.eq_false_iff.mpr hexist
    have habsent : db.accounts addr = none := Option.isNone_iff_eq_none.mp (by
      simpa [exist, getStateObject] using hnone)
    have hafter := hkeeps hnone _ (evmCall_plain_zero K db number caller addr) addr
    rw [hnone, exist, getStateObject, finalise_zero_call caller habsent] at hafter
    cases hafter
  · intro hexist hnone
    rw [hexist] at hnone
    cases hnone

/-- Finalisation leaves no empty account a transaction touched, if there was none, and a call of
value zero leaves the accounts that exist, if the called one does. -/
theorem empty_accounts_cleared_iff (s : StateDB) (K : Crypto) (db : StateDB) (number : ℕ)
    (caller addr : Address) :
    (EmptyCleared s ↔ NoneEmpty s) ∧
      (ZeroCallKeepsAccounts K db number caller addr ↔ db.exist addr = true) :=
  ⟨emptyCleared_iff s, zeroCallKeepsAccounts_iff K db number caller addr⟩

/-- After the genesis block an account calls an address that does not exist, with value zero. The
account that the call makes there survives the end of the transaction. -/
theorem zero_call_leaves_account :
    ∃ (db t : StateDB) (caller addr : Address),
      db = (Genesis.small []).chain.db ∧ db.exist addr = false ∧
      evmCall .trivial db 1 caller addr .plain 0 = some (t, false) ∧ addr ∈ t.dirties ∧
      t.finalise.accounts addr = some .fresh ∧ ¬EmptyCleared t := by
  refine ⟨_, _, 0xc0, 0xe0, rfl, by decide +kernel, evmCall_plain_zero _ _ _ _ _,
    by decide +kernel, ?_, ?_⟩
  · exact finalise_zero_call 0xc0 rfl
  · intro hcleared
    exact hcleared 0xe0 (by decide +kernel) _ (finalise_zero_call 0xc0 rfl) StateObject.default_fresh

end Wormholes
