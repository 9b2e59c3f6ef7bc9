import Wormholes.Laws.Chain.Accounts

/-!
# Laws.Chain.Exchanger — the least stake of an exchanger

Opening an exchanger asks for a stake of a hundred ERB and lowering the stake leaves that much. Raising
it asks for nothing: an account that is no exchanger may stake any amount by a type 21
(`stake_without_exchanger`). `stake_rule_of_run`: where no account does that, every account of every
state a chain reaches stakes nothing or is an exchanger with the least stake.
-/

namespace Wormholes

open Lib Core StateDB

variable {K : Crypto} {s t : StateDB} {a : Address} {x : ℤ}

/-- A hundred ERB. -/
def leastStake : ℤ := 100 * baseErb

theorem leastStake_pos : 0 < leastStake := by
  unfold leastStake baseErb
  omega

/-- The account stakes nothing, or it is an exchanger with the least stake. -/
def StakeRule (o : StateObject) : Prop :=
  o.exchangerBalance.getD 0 = 0 ∨
    (o.exchangerFlag = true ∧ leastStake ≤ o.exchangerBalance.getD 0)

theorem StakeRule.of_same {o o' : StateObject} (h : StakeRule o)
    (hbalance : o'.exchangerBalance.getD 0 = o.exchangerBalance.getD 0)
    (hflag : o'.exchangerFlag = o.exchangerFlag) : StakeRule o' := by
  unfold StakeRule
  rw [hbalance, hflag]
  exact h

theorem keptBeside_stakeRule : KeptBeside fun _ => StakeRule where
  info _ h := h
  owner _ h := h
  approve _ h := h
  reset _ := Or.inl rfl
  vote h := h
  amounts _ _ _ h := h
  code _ _ _ h := h
  approvals _ h := h
  suicided h := h
  fresh _ _ := Or.inl rfl
  normal hnormal h := by
    have hbalance := congrArg (fun o => o.exchangerBalance.getD 0) hnormal
    have hflag := congrArg StateObject.exchangerFlag hnormal
    exact h.of_same hbalance.symm hflag.symm
  reload h := h

/-- Every account of a state keeps to the rule. -/
def StakesRuled (s : StateDB) : Prop := EverywhereAt (fun _ => StakeRule) s

/-- Whatever was written at one address, the others keep to the rule. -/
theorem StakesRuled.set {o : StateObject} (hs : StakesRuled s)
    (ht : t.accounts = s.accounts.set a (some o)) (ho : StakeRule o) : StakesRuled t := by
  intro b p hb
  rw [ht] at hb
  by_cases hba : b = a
  · rw [hba, Accounts.set_self] at hb
    cases hb
    exact ho
  · rw [Accounts.set_of_ne _ _ hba] at hb
    exact hs b p hb

theorem getExchangerFlag_eq_view (s : StateDB) (a : Address) :
    s.getExchangerFlag a = view (·.exchangerFlag) s a := by
  unfold getExchangerFlag view getStateObject
  cases s.accounts a with
  | none => rfl
  | some o => rfl

theorem flag_of_balanceOnly {o o' : StateObject} (h : BalanceOnly a o o') :
    o'.exchangerFlag = o.exchangerFlag := by
  obtain ⟨b, rfl⟩ := h
  rfl

/-! ## Opening and closing -/

section

variable (hs : StakesRuled s)
include hs

theorem StakesRuled.balanceSteps (h : Steps BalanceOnly s t) : StakesRuled t :=
  keptBeside_stakeRule.everywhere (h.mono keptBeside_stakeRule.of_balanceOnly) hs

/-- A stake that is none, or at least the least one and an exchanger's, may be set. -/
theorem StakesRuled.restaked {flag : Bool} {block fee : ℕ} {name url : GoString}
    (h : Restaked a x flag block fee name url s t) (hx : x = 0 ∨ (flag = true ∧ leastStake ≤ x)) :
    StakesRuled t := by
  obtain ⟨o, haccounts, hstake, hflag⟩ := h.accounts
  refine (hs.balanceSteps (getOrNewStateObject_steps s a)).set haccounts ?_
  rw [StakeRule, hstake, hflag]
  exact hx

theorem openExchanger_ruled (hx : x = 0 ∨ leastStake ≤ x) (bn fee : ℕ)
    (name url : GoString) : StakesRuled (s.openExchanger a x bn fee name url) :=
  (hs.balanceSteps (staked_steps s a _ x)).restaked (openExchanger_inv s a x bn fee name url)
    (hx.imp_right fun hleast => ⟨rfl, hleast⟩)

theorem closeExchanger_ruled {bn : ℕ} (h : s.closeExchanger a bn = some t) :
    StakesRuled t := by
  rcases closeExchanger_inv h with rfl | ⟨amount, -, ht⟩
  · exact hs.balanceSteps (getOrNewStateObject_steps s a)
  · exact (hs.balanceSteps (unstaked_steps s a _ amount)).restaked ht (Or.inl rfl)

/-! ## Raising and lowering -/

theorem addExchangerBalance_ruled (h : s.addExchangerBalance a x = some t)
    (hx : x = 0 ∨ (s.getExchangerFlag a = true ∧ leastStake ≤ s.getExchangerBalance a + x)) :
    StakesRuled t := by
  have hruled := hs.balanceSteps (getOrNewStateObject_steps s a)
  unfold addExchangerBalance at h
  dsimp only at h
  split at h
  · cases h
    exact hruled
  next hne =>
    obtain ⟨hflag, hleast⟩ := hx.resolve_left hne
    split at h
    · cases h
    next p hp =>
      cases h
      have hflag' : (s.getOrNewStateObject a).2.exchangerFlag = true := by
        rw [field_getOrNewStateObject s a (·.exchangerFlag), ← getExchangerFlag_eq_view, hflag]
      have hp' : s.getExchangerBalance a = p := by
        rw [getExchangerBalance_eq_view, ← field_getOrNewStateObject s a stake]
        exact congrArg (·.getD 0) hp
      refine hruled.set rfl (Or.inr ⟨hflag', ?_⟩)
      rw [hp'] at hleast
      exact hleast

/-- The balance of an account that is no exchanger, or of one with no stake, is zero. -/
theorem StakesRuled.rule (a : Address) :
    s.getExchangerBalance a = 0 ∨
      (s.getExchangerFlag a = true ∧ leastStake ≤ s.getExchangerBalance a) := by
  unfold getExchangerBalance getExchangerFlag
  cases ho : s.getStateObject a with
  | none => exact Or.inl rfl
  | some o => exact hs a o ho

end

/-- What a type 21 must meet: it adds nothing, or its sender is an exchanger and has a stake or adds
the least one. -/
def RaisesStake (s : StateDB) (caller : Address) (value : ℕ) : Prop :=
  value = 0 ∨ (s.getExchangerFlag caller = true ∧
    (s.getExchangerBalance caller ≠ 0 ∨ leastStake ≤ value))

theorem addExchangerToken_ruled {value : ℕ} (hs : StakesRuled s)
    (h : s.addExchangerToken a value = some t) (hraise : RaisesStake s a value) : StakesRuled t := by
  have hpaid := staked_steps s a ⟨a, value, true⟩ value
  refine addExchangerBalance_ruled (hs.balanceSteps hpaid) h ?_
  rw [getExchangerFlag_eq_view, hpaid.view_eq flag_of_balanceOnly, ← getExchangerFlag_eq_view,
    hpaid.getExchangerBalance_eq stake_of_balanceOnly]
  have hrule := hs.rule a
  rcases hraise with hzero | ⟨hflag, hstake⟩
  · exact Or.inl (by rw [hzero]; rfl)
  · refine Or.inr ⟨hflag, ?_⟩
    rcases hrule with hnone | ⟨-, hleast⟩
    · have hvalue := hstake.resolve_left fun hne => hne hnone
      omega
    · omega

theorem subExchangerToken_ruled {value : ℕ} (hs : StakesRuled s)
    (h : s.subExchangerToken a value = some t)
    (hleast : value + leastStake ≤ s.getExchangerBalance a) : StakesRuled t := by
  obtain ⟨u, hu, rfl⟩ := subExchangerToken_inv h
  have hqueued : Steps BalanceOnly s
      ((s.getOrNewStateObject a).1.appendExchanger ⟨a, value, false⟩) := queued_steps s a _
  refine (addExchangerBalance_ruled (hs.balanceSteps hqueued) hu (Or.inr ?_)).balanceSteps
    (addBalance_steps _ _ _)
  rw [getExchangerFlag_eq_view, hqueued.view_eq flag_of_balanceOnly, ← getExchangerFlag_eq_view,
    hqueued.getExchangerBalance_eq stake_of_balanceOnly]
  have hpos := leastStake_pos
  rcases hs.rule a with hnone | ⟨hflag, -⟩
  · omega
  · exact ⟨hflag, by omega⟩

/-! ## Payloads and runs -/

section Payload

variable {bn value : ℕ} {caller addr : Address} {w : WormholesTx}

theorem handleNFT_open_inv (htype : w.type = 11)
    (h : handleNFT K s bn caller addr w value = .ok t) :
    leastStake ≤ value ∧ t = s.openExchanger caller value bn w.feeRate w.name w.url := by
  simp only [handleNFT, htype, Res.bind_eq_ok, Res.require_eq_ok] at h
  obtain ⟨-, hleast, -, -, -, -, -, -, hok⟩ := h
  cases hok
  refine ⟨?_, rfl⟩
  unfold leastStake
  exact_mod_cast hleast

theorem handleNFT_close_inv (htype : w.type = 12)
    (h : handleNFT K s bn caller addr w value = .ok t) : s.closeExchanger caller bn = some t := by
  simp only [handleNFT, htype, Res.bind_eq_ok, Res.require_eq_ok, Res.ofOption_eq_ok] at h
  obtain ⟨-, -, -, -, hclose⟩ := h
  exact hclose

theorem handleNFT_raise_inv (htype : w.type = 21)
    (h : handleNFT K s bn caller addr w value = .ok t) :
    s.canTransfer caller value = true ∧ s.addExchangerToken caller value = some t := by
  simp only [handleNFT, htype, Res.bind_eq_ok, Res.require_eq_ok, Res.ofOption_eq_ok] at h
  obtain ⟨-, hpays, hraise⟩ := h
  exact ⟨hpays, hraise⟩

theorem handleNFT_lower_inv (htype : w.type = 22)
    (h : handleNFT K s bn caller addr w value = .ok t) :
    value + leastStake ≤ s.getExchangerBalance caller ∧ s.subExchangerToken caller value = some t := by
  simp only [handleNFT, htype, Res.bind_eq_ok, Res.require_eq_ok, Res.ofOption_eq_ok] at h
  obtain ⟨-, hleast, hlower⟩ := h
  exact ⟨hleast, hlower⟩

/-- A payload of an exchanger's type keeps the rule. -/
theorem handled_ruled (hw : writesExchanger w) (hs : StakesRuled s)
    (hraise : w.type = 21 → s.canTransfer caller value = true → RaisesStake s caller value)
    (h : handleNFT K s bn caller addr w value = .ok t) : StakesRuled t := by
  rcases hw with htype | htype | htype | htype
  · obtain ⟨hleast, rfl⟩ := handleNFT_open_inv htype h
    exact openExchanger_ruled hs (Or.inr hleast) _ _ _ _
  · exact closeExchanger_ruled hs (handleNFT_close_inv htype h)
  · obtain ⟨hpays, hadded⟩ := handleNFT_raise_inv htype h
    exact addExchangerToken_ruled hs hadded (hraise htype hpays)
  · obtain ⟨hleast, hlower⟩ := handleNFT_lower_inv htype h
    exact subExchangerToken_ruled hs hlower hleast

end Payload

/-- An accepted type 21 of the event raises a stake as it must. -/
def RaisesFairly (c : Chain) (e : Event) : Prop :=
  ∀ caller addr w value, e = .call caller addr (.wormholes w) value → w.type = 21 →
    c.db.canTransfer caller value = true → RaisesStake c.db caller value

theorem genesis_ruled {g : Genesis} (hstake : ∀ v ∈ g.stake, v.2 = 0 ∨ leastStake ≤ v.2) :
    StakesRuled g.chain.db := by
  have hbeside := keptBeside_stakeRule
  have halloc : Steps (KeepsAt fun _ => StakeRule) g.emptyState (g.alloc.foldl (fun s a =>
      ((s.addBalance a.addr a.balance).setCode a.addr a.code).setNonce a.addr a.nonce) g.emptyState) := by
    refine foldl_steps (fun s a => ?_) g.alloc _
    exact (((addBalance_steps _ _ _).mono hbeside.of_balanceOnly).trans
      ((setCode_steps _ _ _).mono hbeside.of_codeOnly)).trans
        ((setNonce_steps _ _ _).mono hbeside.of_codeOnly)
  have hopened : StakesRuled (g.stake.foldl (fun s v =>
      s.openExchanger v.1 v.2 0 250 "EXCHANGER".toList "www.xiaoli.com".toList) (g.alloc.foldl (fun s a =>
        ((s.addBalance a.addr a.balance).setCode a.addr a.code).setNonce a.addr a.nonce)
          g.emptyState)) := by
    refine List.foldlRecOn g.stake _ (hbeside.everywhere halloc fun _ _ h => by cases h) ?_
    intro s hs v hv
    refine openExchanger_ruled hs ?_ _ _ _ _
    exact_mod_cast hstake v hv
  have hpledged : StakesRuled g.toState :=
    hbeside.everywhere (foldl_steps (fun s v =>
      (pledgeToken_steps s v.1 v.2).mono hbeside.of_pledgingOnly) g.validator _) hopened
  exact hbeside.reloaded (KeptBeside.finalise hpledged)

/-- Where the genesis stakes keep to the rule and every type 21 comes from an exchanger with a stake,
or with the least one, every account of every state keeps to it. -/
theorem stake_rule_of_run {g : Genesis} (hstake : ∀ v ∈ g.stake, v.2 = 0 ∨ leastStake ≤ v.2)
    {es : List Event} {c : Chain} (hrun : Run (Chain.step K) RaisesFairly g.chain es c) (a : Address) :
    c.db.getExchangerBalance a = 0 ∨
      (c.db.getExchangerFlag a = true ∧ 100 * baseErb ≤ c.db.getExchangerBalance a) := by
  have hinv : c.SavedOk ∧ c.AllStates StakesRuled := by
    have hinit : g.chain.SavedOk ∧ g.chain.AllStates StakesRuled :=
      ⟨trivial, genesis_ruled hstake, fun p hp => by cases hp⟩
    refine hrun.invariant (P := fun c => c.SavedOk ∧ c.AllStates StakesRuled) hinit
      fun hc hkeeps hstep => ?_
    refine keptBeside_stakeRule.step hstep ?_ hc
    intro caller addr w value t he hw hhandled hs
    exact handled_ruled hw hs (hkeeps caller addr w value he) hhandled
  exact hinv.2.1.rule a

/-- An account with two hundred ERB. -/
def stakerGenesis : Genesis := .small [⟨0xc0, 200 * baseErb, [], 0⟩]

/-- An exchanger is opened with the least stake and then raises it. -/
theorem stake_rule_of_run_opened :
    ∃ c, Run (Chain.step .trivial) RaisesFairly stakerGenesis.chain
        [.call 0xc0 0xe0 (.wormholes { WormholesTx.bare 11 with feeRate := 1 }) (100 * baseErb),
          .call 0xc0 0xe0 (.wormholes (.bare 21)) 1] c ∧
      c.db.getExchangerBalance 0xc0 = 100 * baseErb + 1 ∧
      (c.db.getExchangerBalance 0xc0 = 0 ∨
        (c.db.getExchangerFlag 0xc0 = true ∧ 100 * baseErb ≤ c.db.getExchangerBalance 0xc0)) := by
  have hall : (Chain.step .trivial
      (.call 0xc0 0xe0 (.wormholes { WormholesTx.bare 11 with feeRate := 1 }) (100 * baseErb))
        stakerGenesis.chain).bind (fun c => (Chain.step .trivial
          (.call 0xc0 0xe0 (.wormholes (.bare 21)) 1) c).map fun c' =>
            (c.db.getExchangerFlag 0xc0, decide (c.db.getExchangerBalance 0xc0 ≠ 0),
              c'.db.getExchangerBalance 0xc0)) = some (true, true, 100 * (baseErb : ℤ) + 1) := by
    decide +kernel
  obtain ⟨c, hopen, hrest⟩ := Option.bind_eq_some_iff.mp hall
  obtain ⟨c', hraise, hvalues⟩ := Option.map_eq_some_iff.mp hrest
  simp only [Prod.mk.injEq, decide_eq_true_eq] at hvalues
  obtain ⟨hflag, hstake, hend⟩ := hvalues
  have hfirst : RaisesFairly stakerGenesis.chain
      (.call 0xc0 0xe0 (.wormholes { WormholesTx.bare 11 with feeRate := 1 }) (100 * baseErb)) := by
    intro caller addr w value he htype
    cases he
    cases htype
  have hsecond : RaisesFairly c (.call 0xc0 0xe0 (.wormholes (.bare 21)) 1) := by
    intro caller addr w value he _ _
    cases he
    exact Or.inr ⟨hflag, Or.inl hstake⟩
  have hrun := Run.cons hfirst hopen (Run.cons hsecond hraise (.nil c'))
  exact ⟨c', hrun, hend, stake_rule_of_run (fun v hv => by cases hv) hrun 0xc0⟩

/-- Somebody who opened no exchanger stakes one wei. -/
theorem stake_without_exchanger :
    ∃ (g : Genesis) (caller : Address) (c : Chain), g.stake = [] ∧
      Run (Chain.step .trivial) (fun _ _ => True) g.chain
        [.call caller 0xe0 (.wormholes (.bare 21)) 1] c ∧
      c.db.getExchangerBalance caller = 1 ∧ c.db.getExchangerFlag caller = false := by
  have hall : (runAll (Chain.step .trivial) [.call 0xc0 0xe0 (.wormholes (.bare 21)) 1]
      stakerGenesis.chain).map (fun c => (c.db.getExchangerBalance 0xc0, c.db.getExchangerFlag 0xc0)) =
        some (1, false) := by
    decide +kernel
  obtain ⟨c, hc, hvalues⟩ := Option.map_eq_some_iff.mp hall
  simp only [Prod.mk.injEq] at hvalues
  exact ⟨stakerGenesis, 0xc0, c, rfl, Run.of_runAll (fun _ _ _ => trivial) hc, hvalues.1, hvalues.2⟩

end Wormholes
