import Wormholes.Core.StateTransition
import Wormholes.Laws.Chain.Steps
import Wormholes.Lib.Outcome

/-!
# Laws.Core.Fees — what a message pays and who gets it

A message buys all its gas, gets back what is left, and the fee for the rest goes to the coinbase
or back to the sender. `FeesConserved` says of the balances before and after the message's run that
debits and credits balance and who is credited. They do for every message but two kinds, when gas has a
price. The fee of a liveness transaction goes to the coinbase and to the sender. And a creation whose data
happens to decode as an exchange payload gets the exchange's fee back, because the type is read from the
data alone.
-/

namespace Wormholes.Core

open Lib

variable {evm : Evm} {msg : Message} {db : StateDB} {gp : ℕ} {r : ExecutionResult}

/-! ## Intrinsic gas -/

theorem txGas_bounds (evm : Evm) (msg : Message) :
    21000 ≤ txGas evm msg ∧ txGas evm msg ≤ 53000 := by
  unfold txGas
  split <;> decide

theorem nonZeroGas_le (evm : Evm) : nonZeroGas evm ≤ 68 := by
  unfold nonZeroGas
  split <;> decide

/-- Slices that fit the address space do not wrap the sum, so a message costs at least the base
price. -/
theorem le_intrinsicGas {gas : ℕ} (h : intrinsicGas evm msg = .ok gas) : 21000 ≤ gas := by
  obtain ⟨hlow, hhigh⟩ := txGas_bounds evm msg
  unfold intrinsicGas at h
  dsimp only at h
  split at h
  next => cases h
  next =>
    split at h
    next => cases h
    next =>
      cases h
      have hnz : (msg.data.countP fun c => decide (c.toNat ≠ 0)) ≤ maxSlice :=
        List.countP_le_length.trans msg.data_le
      have hcost := Nat.mul_le_mul hnz (nonZeroGas_le evm)
      have hdata := msg.data_le
      have haddr := msg.accessAddresses_le
      have hkeys := msg.accessStorageKeys_le
      unfold maxSlice at hdata haddr hkeys hcost
      rw [Nat.mod_eq_of_lt (by omega)]
      omega

/-! ## The run of a message -/

/-- The transition once the gas is bought. -/
def bought (evm : Evm) (msg : Message) (db : StateDB) (gp : ℕ) : Transition :=
  (preCheck evm msg (.start db gp)).toOption.getD (.start db gp)

/-- What the virtual machine returns for a message applied to state `db`: it meets the state with
the gas bought, and the gas without the intrinsic gas. -/
def vmOutcome (evm : Evm) (msg : Message) (db : StateDB) (gp : ℕ) : EvmResult :=
  evm.run msg (bought evm msg db gp).db
    ((bought evm msg db gp).gas - (intrinsicGas evm msg).toOption.getD 0)

theorem run_gas_le (evm : Evm) (msg : Message) (db : StateDB) (gas : ℕ) :
    (evm.run msg db gas).gas ≤ gas := by
  unfold Evm.run
  split
  · exact evm.create_gas_le _ _ _ _ _
  · exact evm.call_gas_le _ _ _ _ _ _

/-- The transition after the refund. -/
def refunded (evm : Evm) (msg : Message) (db : StateDB) (gp : ℕ) : Transition :=
  refundGas msg (refundQuotient evm) (vmOutcome evm msg db gp).refund
    { bought evm msg db gp with
      db := (vmOutcome evm msg db gp).db, gas := (vmOutcome evm msg db gp).gas }

theorem refuse_eq_ok {c : Prop} [Decidable c] {e : TxError} {u : Unit}
    (h : refuse c e = .ok u) : ¬ c := by
  unfold refuse at h
  split at h
  next => cases h
  next hc => exact hc

theorem buyGas_eq_ok {st : Transition} (h : buyGas msg (.start db gp) = .ok st) :
    st = { db := db.subBalance msg.sender (msg.gas * msg.gasPrice : ℕ), gp := gp - msg.gas,
           gas := msg.gas, initialGas := msg.gas } := by
  unfold buyGas Transition.start at h
  dsimp only at h
  split at h
  next => cases h
  next =>
    split at h
    next => cases h
    next =>
      cases h
      rw [Nat.zero_add]

/-- A message that is applied has bought its gas and pays for what it used of it. -/
theorem transitionDb_eq_ok (h : transitionDb evm msg db gp = .ok r) :
    ∃ gas, intrinsicGas evm msg = .ok gas ∧ gas ≤ msg.gas ∧
      bought evm msg db gp =
        { db := db.subBalance msg.sender (msg.gas * msg.gasPrice : ℕ), gp := gp - msg.gas,
          gas := msg.gas, initialGas := msg.gas } ∧
      r.final = payFees evm msg (vmOutcome evm msg db gp).vmerr (refunded evm msg db gp) ∧
      r.usedGas = r.final.gasUsed ∧ r.vmerr = (vmOutcome evm msg db gp).vmerr := by
  obtain ⟨st, hpre, h⟩ := bind_eq_ok.mp h
  obtain ⟨gas, hgas, h⟩ := bind_eq_ok.mp h
  obtain ⟨_, henough, h⟩ := bind_eq_ok.mp h
  obtain ⟨_, -, h⟩ := bind_eq_ok.mp h
  have hbought : bought evm msg db gp = st := by
    unfold bought
    rw [hpre]
    rfl
  obtain ⟨_, -, hbuy⟩ := bind_eq_ok.mp hpre
  obtain rfl := buyGas_eq_ok hbuy
  have hle := Nat.le_of_not_lt (refuse_eq_ok henough)
  refine ⟨gas, hgas, hle, hbought, ?_⟩
  unfold refunded vmOutcome
  rw [hbought, hgas]
  cases h
  exact ⟨rfl, rfl, rfl⟩

/-- The gas left after the refund. -/
def gasLeft (evm : Evm) (msg : Message) (db : StateDB) (gp : ℕ) : ℕ := (refunded evm msg db gp).gas

theorem two_le_refundQuotient (evm : Evm) : 2 ≤ refundQuotient evm := by
  unfold refundQuotient
  split <;> decide

/-- Even after the refund some gas is used. -/
theorem gasLeft_lt {gas : ℕ} (hgas : intrinsicGas evm msg = .ok gas) (hle : gas ≤ msg.gas)
    (hbought : (bought evm msg db gp).gas = msg.gas ∧ (bought evm msg db gp).initialGas = msg.gas) :
    gasLeft evm msg db gp < msg.gas := by
  have hbase := le_intrinsicGas hgas
  have hrun : (vmOutcome evm msg db gp).gas ≤ msg.gas - gas := by
    have hvalue : (intrinsicGas evm msg).toOption.getD 0 = gas := by
      rw [hgas]
      rfl
    unfold vmOutcome
    rw [hvalue, hbought.1]
    exact run_gas_le evm msg _ _
  have hquot : (msg.gas - (vmOutcome evm msg db gp).gas) / refundQuotient evm ≤
      (msg.gas - (vmOutcome evm msg db gp).gas) / 2 :=
    Nat.div_le_div_left (two_le_refundQuotient evm) (by decide)
  have hleft : gasLeft evm msg db gp = (vmOutcome evm msg db gp).gas +
      min (((bought evm msg db gp).initialGas - (vmOutcome evm msg db gp).gas) / refundQuotient evm)
        (vmOutcome evm msg db gp).refund := rfl
  rw [hbought.2] at hleft
  omega

/-! ## What the accounts are paid -/

/-- What an account has of `toSender` for the sender and `toCoinbase` for the coinbase. -/
def share (evm : Evm) (msg : Message) (toSender toCoinbase : ℕ) (a : Address) : ℤ :=
  (if a = msg.sender then (toSender : ℤ) else 0) + if a = evm.coinbase then (toCoinbase : ℤ) else 0

/-- The sender's and the coinbase's part of the fee, by the payload's type. -/
def feeToSender (txType : ℕ) (vmerr : Option String) (fee : ℕ) : ℕ :=
  if txType = 6 ∧ vmerr = none ∨ txType = 30 then fee else 0

@[inherit_doc feeToSender]
def feeToCoinbase (txType : ℕ) (vmerr : Option String) (fee : ℕ) : ℕ :=
  if txType = 6 ∧ vmerr = none then 0 else fee

theorem getWormholesType_of_not (h : isWormholesNFTTx msg ≠ true) : getWormholesType evm msg = 0 := by
  unfold getWormholesType
  rw [if_neg h]

theorem payFees_gasUsed (evm : Evm) (msg : Message) (vmerr : Option String) (st : Transition) :
    (payFees evm msg vmerr st).gasUsed = st.gasUsed := by
  unfold payFees
  dsimp only
  split_ifs <;> rfl

/-- The balances after the final credits. -/
theorem payFees_getBalance (evm : Evm) (msg : Message) (vmerr : Option String) (st : Transition)
    (a : Address) :
    (payFees evm msg vmerr st).db.getBalance a = st.db.getBalance a +
      share evm msg (feeToSender (getWormholesType evm msg) vmerr (st.gasUsed * msg.gasPrice))
        (feeToCoinbase (getWormholesType evm msg) vmerr (st.gasUsed * msg.gasPrice)) a := by
  unfold payFees feeToSender feeToCoinbase share Transition.addBalance
  dsimp only
  by_cases hworm : isWormholesNFTTx msg = true
  · rw [if_pos hworm]
    by_cases hsix : getWormholesType evm msg = 6 ∧ vmerr = none
    · have hlive : getWormholesType evm msg ≠ 30 := by omega
      simp [hsix, StateDB.getBalance_addBalance]
    · by_cases hlive : getWormholesType evm msg = 30
      · simp [hlive, StateDB.getBalance_addBalance]
        ring
      · simp [hsix, hlive, StateDB.getBalance_addBalance]
  · simp [hworm, getWormholesType_of_not hworm, StateDB.getBalance_addBalance]

/-! ## Conservation -/

/-- A call whose fee is waived: a successful exchange or a liveness call. -/
def Exempt (evm : Evm) (msg : Message) (vmerr : Option String) : Prop :=
  msg.contractCreation = false ∧
    (getWormholesType evm msg = 6 ∧ vmerr = none ∨ getWormholesType evm msg = 30)

/-- The fee handling takes `debit` from the sender's balance before the run, and adds `toSender` to the
sender's and `toCoinbase` to the coinbase's afterwards. -/
structure FeesPaid (evm : Evm) (msg : Message) (db : StateDB) (gp : ℕ) (r : ExecutionResult)
    (debit toSender toCoinbase : ℕ) : Prop where
  before : ∀ a, (bought evm msg db gp).db.getBalance a = db.getBalance a - share evm msg debit 0 a
  after : ∀ a, r.final.db.getBalance a =
    (vmOutcome evm msg db gp).db.getBalance a + share evm msg toSender toCoinbase a

/-- The balances show debits of the sender that are its credits and the coinbase's. The coinbase gets the
fee of the gas used, or nothing where the fee is waived and the sender is refunded in full. -/
def FeesConserved (evm : Evm) (msg : Message) (db : StateDB) (gp : ℕ) (r : ExecutionResult) : Prop :=
  ∃ debit toSender toCoinbase, FeesPaid evm msg db gp r debit toSender toCoinbase ∧
    debit = toSender + toCoinbase ∧
    (¬ Exempt evm msg r.vmerr → toCoinbase = r.usedGas * msg.gasPrice) ∧
    (Exempt evm msg r.vmerr → toCoinbase = 0 ∧ toSender = debit)

/-- Gas is free, or the payload is no liveness payload and the message no successful creation with
an exchange payload for its data, unless the sender is the coinbase. -/
def FeesOk (evm : Evm) (msg : Message) (vmerr : Option String) : Prop :=
  msg.gasPrice = 0 ∨ getWormholesType evm msg ≠ 30 ∧
    ¬ (msg.contractCreation = true ∧ getWormholesType evm msg = 6 ∧ vmerr = none ∧
      msg.sender ≠ evm.coinbase)

/-- What two accounts are paid, together if they are one. -/
theorem share_eq_iff {s c s' c' : ℕ} :
    (∀ a, share evm msg s c a = share evm msg s' c' a) ↔
      s + c = s' + c' ∧ (msg.sender ≠ evm.coinbase → s = s') := by
  constructor
  · intro h
    have hsender := h msg.sender
    have hcoinbase := h evm.coinbase
    by_cases hsame : msg.sender = evm.coinbase
    · simp only [share, hsame, if_true] at hsender
      exact ⟨by omega, fun hne => absurd hsame hne⟩
    · simp only [share, hsame, Ne.symm hsame, if_true, if_false] at hsender hcoinbase
      exact ⟨by omega, fun _ => by omega⟩
  · rintro ⟨hsum, hne⟩ a
    by_cases hsame : msg.sender = evm.coinbase
    · unfold share
      rw [hsame]
      split <;> omega
    · have hs := hne hsame
      have hc : c = c' := by omega
      rw [hs, hc]

/-- The fee handling on the balances: what was bought is debited, what is left of it and the sender's part
of the fee are given back, and the coinbase gets its part. -/
theorem feesPaid_transitionDb (h : transitionDb evm msg db gp = .ok r) :
    FeesPaid evm msg db gp r (msg.gas * msg.gasPrice)
      (gasLeft evm msg db gp * msg.gasPrice +
        feeToSender (getWormholesType evm msg) r.vmerr (r.usedGas * msg.gasPrice))
      (feeToCoinbase (getWormholesType evm msg) r.vmerr (r.usedGas * msg.gasPrice)) := by
  obtain ⟨-, -, -, hbought, hfinal, hused, hvmerr⟩ := transitionDb_eq_ok h
  constructor
  · intro a
    rw [hbought, StateDB.getBalance_subBalance]
    simp [share]
  · intro a
    have hgas : (refunded evm msg db gp).gasUsed = r.usedGas := by
      rw [hused, hfinal, payFees_gasUsed]
    have hrefund : (refunded evm msg db gp).db = (vmOutcome evm msg db gp).db.addBalance msg.sender
      (gasLeft evm msg db gp * msg.gasPrice : ℕ) := rfl
    rw [hfinal, payFees_getBalance, hgas, hrefund, StateDB.getBalance_addBalance, ← hvmerr]
    unfold share
    split <;> push_cast <;> ring

/-- The balances fix what is debited and what is credited, up to what a sender who is the coinbase gets
as which of the two. -/
theorem FeesPaid.iff {d s c d' s' c' : ℕ} (h : FeesPaid evm msg db gp r d s c) :
    FeesPaid evm msg db gp r d' s' c' ↔
      d = d' ∧ s + c = s' + c' ∧ (msg.sender ≠ evm.coinbase → s = s') := by
  have hdebit : (∀ a, share evm msg d 0 a = share evm msg d' 0 a) ↔ d = d' := by
    rw [share_eq_iff]
    exact ⟨fun h => h.1, fun h => ⟨h, fun _ => h⟩⟩
  rw [← share_eq_iff, ← hdebit]
  constructor
  · intro h'
    exact ⟨fun a => by have := h.before a; have := h'.before a; omega,
      fun a => by have := h.after a; have := h'.after a; omega⟩
  · rintro ⟨hbefore, hafter⟩
    exact ⟨fun a => by rw [← hbefore a]; exact h.before a, fun a => by rw [← hafter a]; exact h.after a⟩

/-- With `X` for a successful exchange, `L` for liveness, `C` for a creation and `S` for a sender who is
the coinbase: the credits can be right exactly if there is no fee or the code pays it once, to whom it
should. -/
theorem credits_iff {left fee : ℕ} {X L C S : Prop} [Decidable X] [Decidable L] (hXL : X → ¬ L) :
    (∃ s c, left + (if X ∨ L then fee else 0) + (if X then 0 else fee) = s + c ∧
      (¬ S → left + (if X ∨ L then fee else 0) = s) ∧ left + fee = s + c ∧
      (¬ (¬ C ∧ (X ∨ L)) → c = fee) ∧ (¬ C ∧ (X ∨ L) → c = 0 ∧ s = left + fee)) ↔
    fee = 0 ∨ ¬ L ∧ ¬ (C ∧ X ∧ ¬ S) := by
  by_cases hL : L
  · -- the fee is paid twice
    have hX : ¬ X := fun hX => hXL hX hL
    simp only [hL, hX, if_true, if_false, or_true, not_true, false_and, or_false]
    constructor
    · rintro ⟨s, c, hsum, -, htotal, -⟩
      omega
    · rintro rfl
      exact ⟨left, 0, by omega, fun _ => by omega, rfl, fun _ => rfl, fun _ => ⟨rfl, rfl⟩⟩
  by_cases hX : X
  · simp only [hX, hL, if_true, or_false, not_false_iff, true_and, and_true]
    by_cases hC : C
    · -- the sender gets what is the coinbase's
      simp only [hC, not_true, not_false_iff, true_and, false_imp_iff, true_imp_iff, not_not, and_true]
      constructor
      · rintro ⟨s, c, hsum, hs, -, hc⟩
        by_cases hS : S
        · exact Or.inr hS
        · have := hs hS
          omega
      · intro h
        refine ⟨left, fee, by omega, fun hS => ?_, rfl, rfl⟩
        have := h.resolve_right hS
        omega
    · simp only [hC, not_false_iff, not_true, false_and, or_true, iff_true, true_imp_iff, false_imp_iff,
        true_and]
      exact ⟨left + fee, 0, by omega, fun _ => rfl, by omega, rfl, rfl⟩
  · simp only [hX, hL, if_false, or_false, false_and, and_false, not_false_iff, or_true, iff_true,
      true_imp_iff, false_imp_iff, and_true]
    exact ⟨left, fee, by omega, fun _ => by omega, rfl, rfl⟩

/-- For every message that is applied, the balances of sender and coinbase show conserved fees exactly
when the message is neither of the two kinds. -/
theorem feesConserved_iff (h : transitionDb evm msg db gp = .ok r) :
    FeesConserved evm msg db gp r ↔ FeesOk evm msg (vmOutcome evm msg db gp).vmerr := by
  obtain ⟨gas, hgas, hle, hbought, hfinal, hused, hvmerr⟩ := transitionDb_eq_ok h
  have hleft : gasLeft evm msg db gp < msg.gas := gasLeft_lt hgas hle (by rw [hbought]; exact ⟨rfl, rfl⟩)
  have hgasUsed : r.usedGas = msg.gas - gasLeft evm msg db gp := by
    rw [hused, hfinal, payFees_gasUsed]
    show (bought evm msg db gp).initialGas - _ = _
    rw [hbought]
    rfl
  -- what was bought is what is left and what is used
  have htotal : msg.gas * msg.gasPrice =
      gasLeft evm msg db gp * msg.gasPrice + r.usedGas * msg.gasPrice := by
    rw [hgasUsed, ← Nat.add_mul, Nat.add_sub_cancel' hleft.le]
  have hfree : r.usedGas * msg.gasPrice = 0 ↔ msg.gasPrice = 0 := by
    rw [Nat.mul_eq_zero]
    omega
  have hpaid := feesPaid_transitionDb h
  have hcredits := @credits_iff (gasLeft evm msg db gp * msg.gasPrice) (r.usedGas * msg.gasPrice)
    (getWormholesType evm msg = 6 ∧ r.vmerr = none) (getWormholesType evm msg = 30)
    (msg.contractCreation = true) (msg.sender = evm.coinbase) _ _ (by omega)
  simp only [and_assoc] at hcredits
  unfold FeesConserved FeesOk Exempt
  simp only [hpaid.iff, htotal, ← hfree, ← hvmerr, ← Bool.not_eq_true, Ne, ← hcredits]
  constructor
  · rintro ⟨_, s, c, ⟨rfl, hsum, hs⟩, hdebit, hcharged, hwaived⟩
    exact ⟨s, c, hsum, hs, hdebit, hcharged, hwaived⟩
  · rintro ⟨s, c, hsum, hs, hdebit, hcharged, hwaived⟩
    exact ⟨_, s, c, ⟨rfl, hsum, hs⟩, hdebit, hcharged, hwaived⟩

/-! ## Worked messages -/

/-- A payload that gives nothing but its type. -/
def typed (digits : String) : GoString := ("\x7b\"type\":" ++ digits ++ "\x7d").toList

/-- A decoder of the payloads of the messages below. -/
def unmarshalTyped (s : GoString) : Option WormholesTx :=
  if s = typed "0" then some (.bare 0)
  else if s = typed "6" then some (.bare 6)
  else if s = typed "30" then some (.bare 30)
  else none

/-- A virtual machine that changes no balance. As init code, such a payload with its marker is one PUSH24,
which costs 3 gas. -/
def Evm.idle : Evm where
  coinbase := 9
  baseFee := 0
  noBaseFee := false
  homestead := true
  istanbul := true
  london := true
  unmarshal := unmarshalTyped
  create := fun db _ _ gas _ => ⟨db, gas - 3, none, 0⟩
  call := fun db _ _ _ gas _ => ⟨db, gas, none, 0⟩
  create_gas_le := fun _ _ _ _ _ => Nat.sub_le _ _
  call_gas_le := fun _ _ _ _ _ _ => le_rfl

/-- A message of account 1 at gas price 2 with a payload for its data. -/
def Message.plain (recipient : Option Address) (payload : GoString) (h : payload.length ≤ 100) :
    Message where
  sender := 1
  recipient := recipient
  gasPrice := 2
  gasFeeCap := 2
  gasTipCap := 2
  gas := 60000
  value := 0
  nonce := 0
  isFake := false
  data := "wormholes:".toList ++ payload
  accessAddresses := 0
  accessStorageKeys := 0
  gas_lt := by decide
  data_le := by
    rw [List.length_append]
    exact (Nat.add_le_add_left h _).trans (by decide)
  accessAddresses_le := by decide
  accessStorageKeys_le := by decide

def mintMessage : Message := .plain (some 5) (typed "0") (by decide)

def livenessMessage : Message := .plain (some 5) (typed "30") (by decide)

/-- A creation whose data is an exchange payload. -/
def exchangeCreation : Message := .plain none (typed "6") (by decide)

/-- Account 1 holds a million. -/
def richState : StateDB := (Genesis.small []).emptyState.addBalance 1 1000000

/-- A mint of 21320 gas: the sender pays for it and the coinbase is paid. -/
theorem feesConserved_mint :
    ∃ r, transitionDb .idle mintMessage richState 100000 = .ok r ∧
      r.final.db.getBalance 1 = 1000000 - 42640 ∧ r.final.db.getBalance 9 = 42640 ∧
      FeesConserved .idle mintMessage richState 100000 r := by
  have hruns : Ensures (fun _ => False) (transitionDb .idle mintMessage richState 100000) fun r =>
      r.final.db.getBalance 1 = 1000000 - 42640 ∧ r.final.db.getBalance 9 = 42640 := by
    decide +kernel
  obtain ⟨r, hr, hsender, hcoinbase⟩ := hruns.exists_ok
  exact ⟨r, hr, hsender, hcoinbase, (feesConserved_iff hr).mpr (.inr (by decide +kernel))⟩

/-- What the fee handling moved can be read off four balances if the sender is not the coinbase. -/
theorem FeesPaid.read {d s c : ℕ} (h : FeesPaid evm msg db gp r d s c) (hne : msg.sender ≠ evm.coinbase) :
    (d : ℤ) = db.getBalance msg.sender - (bought evm msg db gp).db.getBalance msg.sender ∧
      (s : ℤ) = r.final.db.getBalance msg.sender - (vmOutcome evm msg db gp).db.getBalance msg.sender ∧
      (c : ℤ) =
        r.final.db.getBalance evm.coinbase - (vmOutcome evm msg db gp).db.getBalance evm.coinbase := by
  rw [h.before, h.after, h.after]
  simp [share, hne, hne.symm]

/-- A liveness call of 21336 gas costs its sender nothing and yet pays the coinbase. A creation of 53323
gas whose data decodes as an exchange payload costs its sender nothing and pays the coinbase nothing. -/
theorem fees_not_conserved :
    (∃ r, transitionDb .idle livenessMessage richState 100000 = .ok r ∧
      r.usedGas = 21336 ∧ r.final.db.getBalance 1 = 1000000 ∧ r.final.db.getBalance 9 = 42672 ∧
      ¬ FeesConserved .idle livenessMessage richState 100000 r) ∧
    ∃ r, transitionDb .idle exchangeCreation richState 100000 = .ok r ∧
      r.usedGas = 53323 ∧ r.final.db.getBalance 1 = 1000000 ∧ r.final.db.getBalance 9 = 0 ∧
      ¬ FeesConserved .idle exchangeCreation richState 100000 r := by
  constructor
  · have hruns : Ensures (fun _ => False) (transitionDb .idle livenessMessage richState 100000) fun r =>
        r.usedGas = 21336 ∧ r.final.db.getBalance 1 = 1000000 ∧ r.final.db.getBalance 9 = 42672 := by
      decide +kernel
    obtain ⟨r, hr, hused, hsender, hcoinbase⟩ := hruns.exists_ok
    refine ⟨r, hr, hused, hsender, hcoinbase, ?_⟩
    rintro ⟨d, s, c, hpaid, hbalanced, -⟩
    obtain ⟨hd, hs, hc⟩ := hpaid.read (by decide)
    have hbefore : (bought .idle livenessMessage richState 100000).db.getBalance 1 = 880000 ∧
        (vmOutcome .idle livenessMessage richState 100000).db.getBalance 1 = 880000 ∧
        (vmOutcome .idle livenessMessage richState 100000).db.getBalance 9 = 0 ∧
        richState.getBalance 1 = 1000000 := by decide +kernel
    obtain ⟨hbought, hmet, hother, hrich⟩ := hbefore
    have hd' := hd.trans (congrArg₂ (· - ·) hrich hbought)
    have hs' := hs.trans (congrArg₂ (· - ·) hsender hmet)
    have hc' := hc.trans (congrArg₂ (· - ·) hcoinbase hother)
    omega
  · have hruns : Ensures (fun _ => False) (transitionDb .idle exchangeCreation richState 100000) fun r =>
        r.usedGas = 53323 ∧ r.final.db.getBalance 1 = 1000000 ∧ r.final.db.getBalance 9 = 0 := by
      decide +kernel
    obtain ⟨r, hr, hused, hsender, hcoinbase⟩ := hruns.exists_ok
    refine ⟨r, hr, hused, hsender, hcoinbase, ?_⟩
    rintro ⟨d, s, c, hpaid, -, hcharged, -⟩
    obtain ⟨-, -, hc⟩ := hpaid.read (by decide)
    have hother : (vmOutcome .idle exchangeCreation richState 100000).db.getBalance 9 = 0 := by
      decide +kernel
    have hc' := hc.trans (congrArg₂ (· - ·) hcoinbase hother)
    have hfee := hcharged fun hexempt => absurd hexempt.1 (by decide)
    rw [hused] at hfee
    have hprice : exchangeCreation.gasPrice = 2 := rfl
    rw [hprice] at hfee
    omega

end Wormholes.Core
