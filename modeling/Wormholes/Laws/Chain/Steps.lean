import Wormholes.Chain.Machine
import Wormholes.Laws.Core.HandleNFT
import Wormholes.Laws.State.Revert

/-!
# Laws.Chain.Steps — the shapes of a chain's steps, and reverts

`Effect` is what one operation does to the state between two snapshots, and `step_inv` says how a
step is made of effects, snapshots, reverts and ends of transactions and blocks. Every step keeps the
states the chain recorded for its snapshots those of the state's revisions (`step_savedOk`), so a
revert gives back the recorded accounts, up to absent balances. The pools it does not give back.
-/

namespace Wormholes

open Lib Core StateDB

variable {K : Crypto}
variable {c c' : Chain} {e : Event}
variable {caller addr : Address} {value : ℕ} {db : StateDB} {I : StateDB → Prop}

/-! ## Effects -/

variable (K) (blocknumber : ℕ) in
/-- What an operation does to the state, snapshots apart. -/
inductive Effect : Event → StateDB → StateDB → Prop
  | skip {e : Event} {s : StateDB} : Effect e s s
  | transfer {caller addr : Address} {value : ℕ} {s : StateDB}
      (hfunds : value = 0 ∨ s.getBalance caller ≥ value) :
      Effect (.call caller addr .plain value) s (s.transfer caller addr value)
  | payload {caller addr : Address} {w : WormholesTx} {value : ℕ} {s t : StateDB}
      (h : handleNFT K s blocknumber caller addr w value = .ok t) :
      Effect (.call caller addr (.wormholes w) value) s t
  | nonce {caller addr : Address} {value : ℕ} {s : StateDB} :
      Effect (.create caller addr value) s (s.setNonce caller (s.getNonce caller + 1))
  | created {caller addr : Address} {value : ℕ} {s : StateDB} (hfunds : s.getBalance caller ≥ value) :
      Effect (.create caller addr value) s
        (((s.createAccount addr).setNonce addr 1).transfer caller addr value)
  | touch {addr : Address} {s : StateDB} : Effect (.touch addr) s (s.addBalance addr 0)
  | sstore {addr : Address} {key value : ℕ} {s : StateDB} :
      Effect (.sstore addr key value) s (s.setState addr key value)
  | setCode {addr : Address} {code : GoString} {s : StateDB} :
      Effect (.setCode addr code) s (s.setCode addr code)
  | selfDestruct {contract beneficiary : Address} {s : StateDB} :
      Effect (.selfDestruct contract beneficiary) s (opSuicide s contract beneficiary)
  | nTransferFrom {caller fromAddr toAddr nftAddr : Address} {s t : StateDB}
      (hauth : (getNFTOwner16 K.toHasher s nftAddr = fromAddr ∧
        getNFTOwner16 K.toHasher s nftAddr = caller) ∨
          isApproved K.toHasher s nftAddr fromAddr = true)
      (h : changeNFTOwner K.toHasher s nftAddr toAddr 0 = some t) :
      Effect (.nTransferFrom caller fromAddr toAddr nftAddr) s t
  | nApprove {caller toAddr nftAddr : Address} {s : StateDB}
      (howner : caller = getNFTOwner16 K.toHasher s nftAddr) :
      Effect (.nApprove caller toAddr nftAddr) s (s.changeNFTApproveAddress nftAddr toAddr)
  | nApproveAll {caller toAddr : Address} {s : StateDB} :
      Effect (.nSetApprovalForAll caller toAddr true) s (s.changeApproveAddress caller toAddr)
  | nUnapproveAll {caller toAddr : Address} {s : StateDB} :
      Effect (.nSetApprovalForAll caller toAddr false) s (s.cancelApproveAddress caller toAddr)
  | nMint {caller toAddr : Address} {royalty : ℕ} {uri : GoString} {s : StateDB} :
      Effect (.nMint caller toAddr royalty uri) s
        (s.createNFTByUser caller toAddr (royalty % 2 ^ 32) uri).1
  | buyGas {sender : Address} {gas gasPrice gasFeeCap value : ℕ} {s : StateDB}
      (hfunds : s.getBalance sender ≥ (gas * gasPrice : ℕ)) :
      Effect (.buyGas sender gas gasPrice gasFeeCap value) s (s.subBalance sender (gas * gasPrice : ℕ))
  | setNonce {sender : Address} {n : ℕ} {s : StateDB} :
      Effect (.setNonce sender n) s (s.setNonce sender n)
  | credit {addr : Address} {amount : ℕ} {s : StateDB} :
      Effect (.credit addr amount) s (s.addBalance addr amount)

/-- Whether an operation is a call: what a call does, it does after its snapshot. -/
def Event.isCall : Event → Bool
  | .call .. => true
  | _ => false

variable (K c) in
/-- How a step is made. -/
inductive StepShape : Event → Chain → Prop
  | skip {e : Event} : StepShape e c
  | stay {e : Event} {db : StateDB} (hcall : e.isCall = false) (h : Effect K c.number e c.db db) :
      StepShape e (c.withDb db)
  | enter {e : Event} {db : StateDB} (h : Effect K c.number e c.db.snapshot db) :
      StepShape e (c.entered db)
  | create {caller addr : Address} {value n : ℕ} {db : StateDB}
      (h : Effect K c.number (.create caller addr value) (c.db.setNonce caller n).snapshot db) :
      StepShape (.create caller addr value) ((c.withDb (c.db.setNonce caller n)).entered db)
  | revert {id : ℕ} {db : StateDB} (h : c.db.revertToSnapshot id = some db) : StepShape (.revert id)
        { c with db := db, saved := (c.saved.dropWhile fun r => decide (r.1 > id)).tail }
  | finalise : StepShape .finalise { c with db := c.db.finalise, saved := [] }
  | block {beneficiaries : List Address} {db : StateDB}
      (h : c.db.createNFTByOfficial16 K.toHasher beneficiaries c.number = some db) :
      StepShape (.finalizeBlock beneficiaries) (c.writeBlock db.finalise)

namespace Chain

/-- The end of a block: mint, finalise, write. -/
theorem step_finalizeBlock_inv {bs : List Address} (h : step K (.finalizeBlock bs) c = some c') :
    ∃ db, c.db.createNFTByOfficial16 K.toHasher bs c.number = some db ∧
      c' = c.writeBlock db.finalise := by
  obtain ⟨db, hdb, h⟩ := Option.bind_eq_some_iff.mp h
  split at h
  · cases h
    exact ⟨db, hdb, rfl⟩
  · cases h

theorem step_call_inv {input : CallInput} (h : step K (.call caller addr input value) c = some c') :
    StepShape K c (.call caller addr input value) c' := by
  simp only [step] at h
  split at h
  · cases h
    exact .skip
  next hfunds =>
    have hfunds' : value = 0 ∨ c.db.getBalance caller ≥ value := by
      by_cases hzero : value = 0
      · exact Or.inl hzero
      · exact Or.inr (getBalance_ge_of_canTransfer (by simpa [hzero] using hfunds))
    simp only [evmCall, if_neg hfunds] at h
    cases input with
    | plain =>
      cases h
      exact .enter (.transfer hfunds')
    | malformed =>
      cases h
      exact .enter .skip
    | wormholes w =>
      simp only at h
      split at h
      next db hdb =>
        cases h
        exact .enter (.payload hdb)
      · cases h
        exact .enter .skip
      · cases h

theorem step_create_inv (h : step K (.create caller addr value) c = some c') :
    StepShape K c (.create caller addr value) c' := by
  have hnonce := (setNonce_steps c.db caller (c.db.getNonce caller + 1))
  simp only [step, evmCreate] at h
  by_cases hfunds : c.db.canTransfer caller value = true
  · simp only [hfunds, not_true_eq_false, if_false] at h
    by_cases hused : (c.db.setNonce caller (c.db.getNonce caller + 1)).getNonce addr ≠ 0 ∨
        (c.db.setNonce caller (c.db.getNonce caller + 1)).getCode addr ≠ []
    · simp only [if_pos hused] at h
      cases h
      exact .stay rfl .nonce
    · simp only [if_neg hused, Bool.false_eq_true, if_false, Option.some.injEq] at h
      subst h
      rw [← hnonce.journaled.nextId]
      refine .create (.created ?_)
      show (c.db.setNonce caller _).getBalance caller ≥ value
      rw [hnonce.getBalance_eq fun h => keeps_of_codeOnly h fun _ _ _ => rfl]
      exact getBalance_ge_of_canTransfer hfunds
  · simp only [if_pos hfunds, if_true, Option.some.injEq] at h
    subst h
    exact .skip

theorem ofRes_inv {r : Res StateDB} (hcall : e.isCall = false)
    (hr : ∀ db, r = .ok db → Effect K c.number e c.db db) (h : c.ofRes r = some c') :
    StepShape K c e c' := by
  cases r with
  | ok db =>
    cases h
    exact .stay hcall (hr db rfl)
  | err msg =>
    cases h
    exact .skip
  | panic => cases h

/-- Everything a step of the chain can do, one shape for each kind of event. The invariants of whole runs
are proved over these shapes, not over `step`. -/
theorem step_inv (h : step K e c = some c') : StepShape K c e c' := by
  cases e with
  | call caller addr input value => exact step_call_inv h
  | create caller addr value => exact step_create_inv h
  | enter =>
    cases h
    exact .enter .skip
  | touch addr =>
    cases h
    exact .stay rfl .touch
  | revert id =>
    obtain ⟨db, hdb, rfl⟩ := Option.map_eq_some_iff.mp h
    exact .revert hdb
  | sstore addr key value =>
    cases h
    exact .stay rfl .sstore
  | setCode addr code =>
    cases h
    exact .stay rfl .setCode
  | selfDestruct contract beneficiary =>
    cases h
    exact .stay rfl .selfDestruct
  | nTransferFrom caller fromAddr toAddr nftAddr =>
    refine ofRes_inv rfl (fun db hdb => ?_) h
    simp only [opNTransferFrom] at hdb
    split at hdb
    next hauth => exact .nTransferFrom hauth (Res.ofOption_eq_ok.mp hdb)
    · cases hdb
  | nApprove caller toAddr nftAddr =>
    refine ofRes_inv rfl (fun db hdb => ?_) h
    simp only [opNApprove] at hdb
    split at hdb
    next howner =>
      cases hdb
      exact .nApprove howner
    · cases hdb
  | nSetApprovalForAll caller toAddr approved =>
    cases h
    cases approved with
    | true => exact .stay rfl .nApproveAll
    | false => exact .stay rfl .nUnapproveAll
  | nMint caller toAddr royalty uri =>
    refine ofRes_inv rfl (fun db hdb => ?_) h
    simp only [opNMint] at hdb
    split at hdb
    · cases hdb
      exact .nMint
    · cases hdb
  | buyGas sender gas gasPrice gasFeeCap value =>
    simp only [step] at h
    split at h
    next hfunds =>
      cases h
      refine .stay rfl (.buyGas ?_)
      have hle : gas * gasPrice ≤ gas * gasFeeCap + value :=
        (Nat.mul_le_mul_left gas hfunds.1).trans (Nat.le_add_right _ _)
      exact le_trans (by exact_mod_cast hle) hfunds.2
    · cases h
  | setNonce sender nonce =>
    cases h
    exact .stay rfl .setNonce
  | credit addr amount =>
    cases h
    exact .stay rfl .credit
  | finalise =>
    cases h
    exact .finalise
  | finalizeBlock beneficiaries =>
    obtain ⟨db, hdb, rfl⟩ := step_finalizeBlock_inv h
    exact .block hdb

end Chain

/-! ## Snapshots and the states recorded for them -/

/-- What a self-destruct does to accounts. -/
theorem opSuicide_steps (s : StateDB) (contract beneficiary : Address) :
    Steps (fun a o o' => BalanceOnly a o o' ∨ o' = { o with suicided := true, balance := 0 }) s
      (opSuicide s contract beneficiary) :=
  ((addBalance_steps s beneficiary _).mono Or.inl).trans (suicide_steps _ contract fun _ => Or.inr rfl)

/-- What an operation writes is of every kind that covers it. -/
theorem Effect.steps {blocknumber : ℕ} {s t : StateDB} {P : Address → StateObject → StateObject → Prop}
    (hP : AllowsPlain P)
    (hexchanger : ∀ caller addr w value, e = .call caller addr (.wormholes w) value →
      writesExchanger w → AllowsAll P) (h : Effect K blocknumber e s t) : Steps P s t := by
  cases h with
  | skip => exact .refl s
  | transfer => exact (transfer_steps _ _ _ _).mono hP.of_balanceOnly
  | payload h => exact (handleNFT_inv h).steps hP (hexchanger _ _ _ _ rfl)
  | nonce => exact (setNonce_steps _ _ _).mono hP.of_codeOnly
  | @created caller addr value _ hfunds =>
    exact ((createAccount_steps s addr fun _ => hP.reset).trans
      ((setNonce_steps _ _ _).mono hP.of_codeOnly)).trans
        ((transfer_steps _ _ _ _).mono hP.of_balanceOnly)
  | touch => exact (addBalance_steps _ _ _).mono hP.of_balanceOnly
  | sstore => exact (setState_steps _ _ _ _).mono hP.of_codeOnly
  | setCode => exact (setCode_steps _ _ _).mono hP.of_codeOnly
  | selfDestruct =>
    refine (opSuicide_steps _ _ _).mono fun hkind => ?_
    rcases hkind with hbalance | rfl
    · exact hP.of_balanceOnly hbalance
    · exact hP.suicided
  | nTransferFrom _ h => exact hP.changeNFTOwner h
  | nApprove => exact (changeNFTApproveAddress_steps _ _ _).mono hP.of_approveOnly
  | nApproveAll => exact (changeApproveAddress_steps _ _ _).mono hP.of_approveAllOnly
  | nUnapproveAll => exact (cancelApproveAddress_steps _ _ _).mono hP.of_approveAllOnly
  | nMint => exact createNFTByUser_allowed hP.toAllowsMints _ _ _ _ _
  | buyGas => exact (subBalance_steps _ _ _).mono hP.of_balanceOnly
  | setNonce => exact (setNonce_steps _ _ _).mono hP.of_codeOnly
  | credit => exact (addBalance_steps _ _ _).mono hP.of_balanceOnly

/-- The journal undoes every effect. -/
theorem Effect.journaled {blocknumber : ℕ} {s t : StateDB} (h : Effect K blocknumber e s t) :
    Journaled s t :=
  (h.steps allowsAll_true.toAllowsPlain fun _ _ _ _ _ _ => allowsAll_true).journaled

namespace Chain

/-- The state recorded for the snapshot a revert goes back to. -/
def revertsTo (c : Chain) (id : ℕ) : Option StateDB :=
  (c.saved.dropWhile fun r => decide (r.1 > id)).head?.map Prod.snd

/-- The chain's recorded states are those of its state's revisions. -/
def SavedOk (c : Chain) : Prop := Tracked c.db c.db.validRevisions c.saved

theorem savedOk_entered (h : c.SavedOk) (hj : Journaled c.db.snapshot db) :
    (c.entered db).SavedOk := by
  unfold SavedOk entered
  simp only
  rw [hj.revisions]
  exact ⟨rfl, rfl, hj.logged, h⟩

theorem step_savedOk (h : step K e c = some c') (hc : c.SavedOk) : c'.SavedOk := by
  cases step_inv h with
  | skip => exact hc
  | stay _ heffect =>
    have hj := heffect.journaled
    unfold SavedOk withDb
    simp only
    rw [hj.revisions]
    exact hc.journaled hj.logged
  | enter heffect => exact savedOk_entered hc heffect.journaled
  | @create caller _ _ n _ heffect =>
    refine savedOk_entered ?_ heffect.journaled
    have hj := (setNonce_steps c.db caller n).journaled
    unfold SavedOk withDb
    simp only
    rw [hj.revisions]
    exact hc.journaled hj.logged
  | revert hrevert =>
    obtain ⟨p, ps', hdrop, -, -, -, htracked, -⟩ := Tracked.revert hc hrevert
    unfold SavedOk
    simp only [hdrop, List.tail_cons]
    exact htracked
  | finalise => trivial
  | block => trivial

/-- A property of the current state and of every recorded one. -/
def AllStates (c : Chain) (I : StateDB → Prop) : Prop := I c.db ∧ ∀ p ∈ c.saved, I p.2

theorem allStates_entered (h : c.AllStates I) (hdb : I db) : (c.entered db).AllStates I := by
  refine ⟨hdb, fun p hp => ?_⟩
  rcases List.mem_cons.mp hp with rfl | hmem
  · exact h.1
  · exact h.2 p hmem

/-- What every effect keeps under a condition, and every revert, the steps within a block keep for
all states. The condition is about the state before the effect: that of the chain, or for a call or
creation the one at its snapshot. -/
theorem allStates_step {C : StateDB → Prop} (h : step K e c = some c') (hsaved : c.SavedOk)
    (hall : c.AllStates I) (hC : e.isCall = false → C c.db) (hCsnapshot : C c.db.snapshot)
    (hCnonce : ∀ {caller addr value} (n : ℕ), e = .create caller addr value →
      C (c.db.setNonce caller n).snapshot) (hsnapshot : ∀ {s : StateDB}, I s → I s.snapshot)
    (hnonce : ∀ {s : StateDB} (a : Address) (n : ℕ), I s → I (s.setNonce a n))
    (heffect : ∀ {s t : StateDB}, Effect K c.number e s t → I s → C s → I t)
    (hrevert : ∀ {id : ℕ} {t u : StateDB}, e = .revert id → c.revertsTo id = some t → I t →
      u.accounts.Equiv t.accounts → u.pools = c.db.pools → I u)
    (hfinalise : e = .finalise → I c.db.finalise) (hinner : ∀ bs, e ≠ .finalizeBlock bs) :
    c'.AllStates I := by
  cases step_inv h with
  | skip => exact hall
  | stay hcall hdb => exact ⟨heffect hdb hall.1 (hC hcall), hall.2⟩
  | enter hdb => exact allStates_entered hall (heffect hdb (hsnapshot hall.1) hCsnapshot)
  | @create caller addr value n db hdb =>
    have hn := hnonce caller n hall.1
    refine allStates_entered ?_ (heffect hdb (hsnapshot hn) (hCnonce n rfl))
    exact ⟨hn, hall.2⟩
  | revert hdb =>
    obtain ⟨p, ps', hdrop, hmem, hequiv, hpools, -, hsub⟩ := Tracked.revert hsaved hdb
    refine ⟨hrevert rfl ?_ (hall.2 p hmem) hequiv hpools, fun q hq => hall.2 q (hsub q ?_)⟩
    · rw [revertsTo, hdrop]
      rfl
    · simpa [hdrop] using hq
  | finalise => exact ⟨hfinalise rfl, fun _ hp => (by cases hp)⟩
  | block => exact absurd rfl (hinner _)

/-- Within a block, number and stake lists stay. -/
theorem step_frame (h : step K e c = some c') (hinner : ∀ bs, e ≠ .finalizeBlock bs) :
    c'.number = c.number ∧ c'.stakePool = c.stakePool ∧ c'.validatorPool = c.validatorPool := by
  cases step_inv h with
  | block => exact absurd rfl (hinner _)
  | _ => exact ⟨rfl, rfl, rfl⟩

end Chain

/-! ## Inputs of worked runs -/

/-- A payload of a type with every other field empty. -/
def WormholesTx.bare (type : ℕ) : WormholesTx where
  type := type
  nftAddress := []
  exchanger := []
  royalty := 0
  metaURL := []
  feeRate := 0
  name := []
  url := []
  dir := []
  startIndex := []
  number := 0
  buyer := ⟨[], [], [], [], [], []⟩
  seller1 := ⟨[], [], [], [], [], []⟩
  seller2 := ⟨[], [], [], [], [], [], []⟩
  exchangerAuth := ⟨[], [], [], []⟩
  creator := []

/-- A genesis without validators and exchangers and with one batch of official NFTs. -/
def Genesis.small (alloc : List GenesisAccount) : Genesis where
  alloc := alloc
  stake := []
  validator := []
  dir := "/ipfs/dir".toList
  startIndex := 0
  injectNumber := 4096
  royalty := 100
  creator := "0x35636d53Ac3DfF2b2347dDfa37daD7077b3f5b6F".toList
  stake_nodup := List.nodup_nil
  validator_nodup := List.nodup_nil

/-- A hash function that is constantly zero and a signature check that fails. -/
def Crypto.trivial : Crypto where
  keccak256 := fun _ => []
  sigToPub := fun _ _ => .error "no signature"

end Wormholes
