import Wormholes.Laws.Chain.Pledge

/-!
# Laws.Chain.Accounts — what holds of every account of every chain

An account is written in few ways. `KeptAt J` says that a property of accounts and their addresses
survives each of them; `KeptAt.forall_accounts_of_run` is the rule it gives: then every account of
every state a chain reaches has the property. The first uses are that only open exchangers have an
exchanger's data and that the merge level of an official address leaves its text a digit.

`KeptBeside J` leaves out the writings of stakes and exchangers. Its rule for steps asks for those
apart (`KeptBeside.step`).
-/

namespace Wormholes

open Lib Core StateDB

variable {K : Crypto} {J : Address → StateObject → Prop}
variable {bn : ℕ} {e : Event} {c : Chain} {ok : Chain → Event → Prop} {g : Genesis}
  {es : List Event}
variable {caller addr : Address} {w : WormholesTx} {value : ℕ} {c' : Chain}

/-- A rewriting that keeps the property. -/
def KeepsAt (J : Address → StateObject → Prop) (a : Address) (o o' : StateObject) : Prop :=
  J a o → J a o'

/-- A property that a new account has and that survives every way of writing an account but those of
stakes and exchangers. Of the NFT part it may use that the merge level of an official address leaves the
address' text a digit. -/
structure KeptBeside (J : Address → StateObject → Prop) : Prop extends AllowsPlain (KeepsAt J) where
  fresh : ∀ a b, J a { StateObject.fresh with balance := b }
  normal : ∀ {a} {o o' : StateObject}, o.normal = o'.normal → J a o → J a o'
  reload : ∀ {a o}, J a o → J a o.reload

/-- One that survives every way of writing an account. -/
structure KeptAt (J : Address → StateObject → Prop) : Prop extends
    KeptBeside J, AllowsAll (KeepsAt J)

/-- Every account of a state has the property at its address. -/
def EverywhereAt (J : Address → StateObject → Prop) (s : StateDB) : Prop :=
  ∀ a o, s.accounts a = some o → J a o

namespace KeptBeside

theorem everywhere (hJ : KeptBeside J) {s t : StateDB} (h : Steps (KeepsAt J) s t)
    (hs : EverywhereAt J s) : EverywhereAt J t :=
  h.forall_accounts (fun a => hJ.fresh a 0) (fun hP ho => hP ho) hs

/-! ## Steps and runs -/

/-- Finalisation removes accounts and writes none. -/
theorem finalise {s : StateDB} (hs : EverywhereAt J s) : EverywhereAt J s.finalise :=
  fun a o ha => hs a o (accounts_of_finalise ha)

theorem reloaded (hJ : KeptBeside J) {s : StateDB} (hs : EverywhereAt J s) : EverywhereAt J s.reload := by
  intro a o ha
  obtain ⟨o', ho', rfl⟩ := Option.map_eq_some_iff.mp ha
  exact hJ.reload (hs a o' ho')

/-- One step keeps the property in the current and in every recorded state, if a payload of an
exchanger's type does. -/
theorem step (hJ : KeptBeside J) (h : Chain.step K e c = some c')
    (hpayload : ∀ {caller addr w value t}, e = .call caller addr (.wormholes w) value →
      writesExchanger w → handleNFT K c.db.snapshot c.number caller addr w value = .ok t →
        EverywhereAt J c.db.snapshot → EverywhereAt J t)
    (hc : c.SavedOk ∧ c.AllStates (EverywhereAt J)) :
    c'.SavedOk ∧ c'.AllStates (EverywhereAt J) := by
  refine ⟨Chain.step_savedOk h hc.1, ?_⟩
  by_cases hinner : ∃ bs, e = .finalizeBlock bs
  · obtain ⟨bs, rfl⟩ := hinner
    obtain ⟨db, hdb, rfl⟩ := Chain.step_finalizeBlock_inv h
    have hminted := hJ.everywhere (createNFTByOfficial16_allowed hJ.toAllowsMints hdb) hc.2.1
    exact ⟨hJ.reloaded (finalise hminted), fun p hp => by cases hp⟩
  · -- a call is made in the state after its snapshot
    refine Chain.allStates_step (C := fun s => e.isCall = true → s = c.db.snapshot) h hc.1 hc.2 ?_
      (fun _ => rfl) ?_ (fun hs => hs) ?_ ?_ ?_ ?_ fun bs heq => hinner ⟨bs, heq⟩
    · intro hcall hcall'
      rw [hcall] at hcall'
      cases hcall'
    · intro caller addr value n he hcall
      rw [he] at hcall
      cases hcall
    · exact fun a n hs => hJ.everywhere ((setNonce_steps _ a n).mono hJ.of_codeOnly) hs
    · intro s t heffect hs hsnapshot
      by_cases hwrites : ∃ caller addr w value, e = .call caller addr (.wormholes w) value ∧
          writesExchanger w
      · obtain ⟨caller, addr, w, value, rfl, hw⟩ := hwrites
        cases heffect with
        | skip => exact hs
        | payload hhandled =>
          obtain rfl := hsnapshot rfl
          exact hpayload rfl hw hhandled hs
      · refine hJ.everywhere (heffect.steps hJ.toAllowsPlain fun caller addr w value he hw => ?_) hs
        exact absurd ⟨caller, addr, w, value, he, hw⟩ hwrites
    · rintro id t u rfl - ht hequiv - a o ha
      have heq := hequiv a
      rw [ha] at heq
      obtain ⟨o', ho', hnormal⟩ := Option.map_eq_some_iff.mp heq.symm
      exact hJ.normal hnormal (ht a o' ho')
    · rintro rfl
      exact finalise hc.2.1

end KeptBeside

namespace KeptAt

theorem step (hJ : KeptAt J) (h : Chain.step K e c = some c')
    (hc : c.SavedOk ∧ c.AllStates (EverywhereAt J)) :
    c'.SavedOk ∧ c'.AllStates (EverywhereAt J) := by
  refine hJ.toKeptBeside.step h ?_ hc
  intro caller addr w value t _ hw hhandled hs
  exact hJ.everywhere ((handleNFT_inv hhandled).steps hJ.toAllowsPlain fun _ => hJ.toAllowsAll) hs

theorem genesis (hJ : KeptAt J) (g : Genesis) : EverywhereAt J g.chain.db := by
  have hsteps : Steps (KeepsAt J) g.emptyState g.toState := by
    refine ((foldl_steps (fun s a => ?_) g.alloc _).trans (foldl_steps (fun s v => ?_) g.stake _)).trans
      (foldl_steps (fun s v => ?_) g.validator _)
    · exact (((addBalance_steps _ _ _).mono hJ.of_balanceOnly).trans
        ((setCode_steps _ _ _).mono hJ.of_codeOnly)).trans ((setNonce_steps _ _ _).mono hJ.of_codeOnly)
    · exact hJ.toAllowsAll.openExchanger _ _ _ _ _ _ _
    · exact (pledgeToken_steps _ _ _).mono hJ.of_pledgingOnly
  exact hJ.reloaded (KeptBeside.finalise (hJ.everywhere hsteps fun _ _ h => by cases h))

/-- An invariant of single accounts that every write keeps holds of all accounts in every state of a run,
those that can still be reverted to included. -/
theorem everywhere_of_run (hJ : KeptAt J) (hrun : Run (Chain.step K) ok g.chain es c) :
    c.SavedOk ∧ c.AllStates (EverywhereAt J) :=
  hrun.invariant ⟨trivial, hJ.genesis g, fun p hp => by cases hp⟩ fun hc _ hstep => hJ.step hstep hc

/-- Every account of every state a chain reaches has the property. -/
theorem forall_accounts_of_run (hJ : KeptAt J) (hrun : Run (Chain.step K) ok g.chain es c)
    {a : Address} {o : StateObject} (ha : c.db.accounts a = some o) : J a o :=
  (hJ.everywhere_of_run hrun).2.1 a o ha

end KeptAt

/-! ## Exchangers -/

/-- What an account has of an exchanger's data: opening sets all of it, closing clears all of it. -/
theorem keptAt_exchanger : KeptAt fun _ o => o.exchangerFlag = false →
    o.feeRate = 0 ∧ o.exchangerName = [] ∧ o.exchangerURL = [] ∧ o.blockNumber.getD 0 = 0 where
  info _ h := h
  owner _ h := h
  approve _ h := h
  reset _ _ := ⟨rfl, rfl, rfl, rfl⟩
  vote h := h
  amounts _ _ _ h := h
  code _ _ _ h := h
  approvals _ h := h
  suicided h := h
  fresh _ _ _ := ⟨rfl, rfl, rfl, rfl⟩
  normal hnormal h := by
    simp only [StateObject.normal, StateObject.mk.injEq] at hnormal
    grind
  reload h := h
  stake _ h := h
  opened _ _ _ _ _ := fun h => by cases h
  closed _ _ := ⟨rfl, rfl, rfl, rfl⟩

/-- In every state a chain reaches, whoever has a fee rate is an exchanger. -/
theorem getExchangerFlag_of_getFeeRate (hrun : Run (Chain.step K) ok g.chain es c) {a : Address}
    (h : c.db.getFeeRate a ≠ 0) : c.db.getExchangerFlag a = true := by
  unfold getFeeRate at h
  unfold getExchangerFlag
  cases ha : c.db.getStateObject a with
  | none => simp [ha] at h
  | some o =>
    rw [ha] at h
    exact Bool.of_not_eq_false fun hflag =>
      h (keptAt_exchanger.forall_accounts_of_run hrun ha hflag).1

/-- In every state a chain reaches, whoever is not an exchanger, or not any more, has nothing of one. -/
theorem no_exchanger_data_of_run (hrun : Run (Chain.step K) ok g.chain es c) {a : Address}
    {o : StateObject} (ha : c.db.accounts a = some o) (hflag : o.exchangerFlag = false) :
    o.feeRate = 0 ∧ o.exchangerName = [] ∧ o.exchangerURL = [] ∧ o.blockNumber.getD 0 = 0 :=
  keptAt_exchanger.forall_accounts_of_run hrun ha hflag

/-- An exchanger is opened, and 72 blocks later closed. -/
def openAndClose : List Event :=
  .call 1 1 (.wormholes { WormholesTx.bare 11 with
      feeRate := 250, name := "name".toList, url := "url".toList }) (100 * baseErb) ::
    List.replicate 72 (.finalizeBlock []) ++ [.call 1 1 (.wormholes (.bare 12)) 0]

/-- Before the last call the exchanger is open with its data. -/
theorem no_exchanger_data_closed : ∃ c c' : Chain, ∃ o o' : StateObject,
    runAll (Chain.step .trivial) openAndClose.dropLast
        (Genesis.small [⟨1, 100 * baseErb, [], 0⟩]).chain = some c ∧
      c.db.accounts 1 = some o ∧ o.exchangerFlag = true ∧ o.feeRate = 250 ∧ o.blockNumber = some 1 ∧
      runAll (Chain.step .trivial) openAndClose (Genesis.small [⟨1, 100 * baseErb, [], 0⟩]).chain =
        some c' ∧ c'.db.accounts 1 = some o' ∧
      o'.feeRate = 0 ∧ o'.exchangerName = [] ∧ o'.exchangerURL = [] ∧ o'.blockNumber.getD 0 = 0 := by
  have hopen : ((runAll (Chain.step .trivial) openAndClose.dropLast
      (Genesis.small [⟨1, 100 * baseErb, [], 0⟩]).chain).bind fun c => (c.db.accounts 1).map fun o =>
        (o.exchangerFlag, o.feeRate, o.blockNumber)) = some (true, 250, some 1) := by
    decide +kernel
  have hclosed : ((runAll (Chain.step .trivial) openAndClose
      (Genesis.small [⟨1, 100 * baseErb, [], 0⟩]).chain).bind fun c => (c.db.accounts 1).map fun o =>
        o.exchangerFlag) = some false := by
    decide +kernel
  obtain ⟨c, hc, hopen⟩ := Option.bind_eq_some_iff.mp hopen
  obtain ⟨o, ho, hdata⟩ := Option.map_eq_some_iff.mp hopen
  obtain ⟨c', hc', hclosed⟩ := Option.bind_eq_some_iff.mp hclosed
  obtain ⟨o', ho', hflag⟩ := Option.map_eq_some_iff.mp hclosed
  obtain ⟨hopened, hrate, hblock⟩ : o.exchangerFlag = true ∧ o.feeRate = 250 ∧ o.blockNumber = some 1 := by
    simpa only [Prod.mk.injEq] using hdata
  exact ⟨c, c', o, o', hc, ho, hopened, hrate, hblock, hc', ho',
    no_exchanger_data_of_run (Run.of_runAll (fun _ _ _ => trivial) hc') ho' hflag⟩

end Wormholes
