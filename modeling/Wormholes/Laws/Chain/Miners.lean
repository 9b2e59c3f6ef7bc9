import Wormholes.Laws.Chain.Queue
import Wormholes.Laws.Consensus.Selection
import Wormholes.Laws.State.Operation

/-!
# Laws.Chain.Miners — the active miners after every block

A liveness transaction enters its sender into the list of active miners, with the transferred value
for a balance and the block's number for a height. Writing a block removes, every thirty blocks, the
miners not seen for 119 blocks, then those without a pledge, and gives the others their pledge for a
balance. The removals go by address and the list holds an address once, so they are filters.

The sweep subtracts heights in `uint64`. No height is above the number of the block, so nothing
wraps; and no entry is older than 149 blocks, since the sweeps are thirty blocks apart.
-/

namespace Wormholes

open Lib Common Core StateDB

variable {K : Crypto}
variable {number bn : ℕ} {m : ActiveMiner} {s t : StateDB}

/-! ## The pool -/

/-- What holds of the miners once block `number` is written: an address once, each in the validator
list with the pledge for its balance, none seen after the block, and after a sweep none that was
last seen more than 119 blocks ago. -/
structure CleanMiners (number : ℕ) (validators : List Staked) (miners : List ActiveMiner) : Prop where
  once : (miners.map ActiveMiner.address).Nodup
  pledged : ∀ m ∈ miners, (⟨m.address, m.balance⟩ : Staked) ∈ validators
  seen : ∀ m ∈ miners, m.height ≤ number
  active : 30 < number → number % 30 = 9 → ∀ m ∈ miners, number - m.height ≤ 119

/-- What holds of the miners while block `number` is executed. The last sweep was at most thirty
blocks ago, so the bound on the age grows with the blocks since then. -/
structure RecentMiners (number : ℕ) (miners : List ActiveMiner) : Prop where
  once : (miners.map ActiveMiner.address).Nodup
  seen : ∀ m ∈ miners, m.height ≤ number
  recent : ∀ m ∈ miners, number ≤ m.height + 120 + (number + 20) % 30

/-! ## Removals -/

namespace ActiveMinerList

variable {l : List ActiveMiner}

theorem removeActiveAddr_eq_filter (h : (l.map ActiveMiner.address).Nodup) (a : Address) :
    removeActiveAddr l a = l.filter fun m => m.address ≠ a := by
  unfold removeActiveAddr
  induction l with
  | nil => rfl
  | cons m l ih =>
    obtain ⟨hm, hl⟩ := List.nodup_cons.mp h
    by_cases ha : m.address = a
    · have hrest : ∀ m' ∈ l, m'.address ≠ a := by
        intro m' hm' heq
        exact hm (List.mem_map.mpr ⟨m', hm', heq.trans ha.symm⟩)
      rw [List.eraseP_cons_of_pos (by simpa using ha), List.filter_cons_of_neg (by simpa using ha)]
      exact (List.filter_eq_self.mpr fun m' hm' => by simpa using hrest m' hm').symm
    · rw [List.eraseP_cons_of_neg (by simpa using ha), List.filter_cons_of_pos (by simpa using ha),
        ih hl]

/-- Removing addresses one after the other leaves the entries of the other addresses. -/
theorem mem_removeAll {addrs : List Address} (h : (l.map ActiveMiner.address).Nodup)
    (m : ActiveMiner) :
    m ∈ addrs.foldl removeActiveAddr l ↔ m ∈ l ∧ m.address ∉ addrs := by
  induction addrs generalizing l with
  | nil => simp
  | cons a addrs ih =>
    rw [List.foldl_cons, ih (MinerPool.nodup_removeActiveAddr h a), removeActiveAddr_eq_filter h]
    simp only [List.mem_filter, decide_eq_true_eq, List.mem_cons, not_or]
    exact and_assoc

theorem mem_of_mem_pruneInactive (h : (l.map ActiveMiner.address).Nodup)
    (hm : m ∈ pruneInactive l number) : m ∈ l := by
  unfold pruneInactive at hm
  split at hm
  · exact ((mem_removeAll h m).mp hm).1
  · exact hm

/-- A sweep removes what is too old; the subtraction does not wrap. -/
theorem age_le_of_recent (h : RecentMiners number l) (hsweep : 30 < number ∧ number % 30 = 9)
    (hm : m ∈ pruneInactive l number) : number - m.height ≤ 119 := by
  unfold pruneInactive at hm
  rw [if_pos ⟨hsweep.2, hsweep.1⟩] at hm
  obtain ⟨hmem, hkept⟩ := (mem_removeAll h.once m).mp hm
  have hseen := h.seen m hmem
  have hrecent := h.recent m hmem
  have hyoung : ¬ (number + 2 ^ 64 - m.height) % 2 ^ 64 > 119 := by
    intro hold
    refine hkept (List.mem_map.mpr ⟨m, List.mem_filter.mpr ⟨hmem, ?_⟩, rfl⟩)
    simpa using hold
  omega

/-- What is left after `EnsureEffectiveMiners` is an entry with its pledge for a balance. -/
theorem mem_ensureEffectiveMiners {vl : List Staked} (h : (l.map ActiveMiner.address).Nodup)
    (hm : m ∈ ensureEffectiveMiners vl l) :
    ∃ m₀ ∈ l, StakedList.exist vl m₀.address = true ∧
      m = { m₀ with balance := StakedList.stakeBalance vl m₀.address } := by
  have honce : ((l.map fun m => if StakedList.exist vl m.address then
      { m with balance := StakedList.stakeBalance vl m.address } else m).map
        ActiveMiner.address).Nodup := by
    have hsame : ∀ m : ActiveMiner, (if StakedList.exist vl m.address then
        { m with balance := StakedList.stakeBalance vl m.address } else m).address = m.address := by
      intro m
      split <;> rfl
    rw [List.map_map]
    simpa [Function.comp_def, hsame] using h
  obtain ⟨hmem, hkept⟩ := (mem_removeAll honce m).mp hm
  obtain ⟨m₀, hm₀, rfl⟩ := List.mem_map.mp hmem
  cases hexist : StakedList.exist vl m₀.address with
  | true => exact ⟨m₀, hm₀, hexist, rfl⟩
  | false =>
    refine absurd (List.mem_map.mpr ⟨m₀, List.mem_filter.mpr ⟨hm₀, by simp [hexist]⟩, ?_⟩) hkept
    rw [hexist]
    rfl

end ActiveMinerList

theorem StakedList.mem_stakeBalance {l : List Staked} {a : Address} (h : exist l a = true) :
    (⟨a, stakeBalance l a⟩ : Staked) ∈ l := by
  obtain ⟨v, hv, ha⟩ := List.any_eq_true.mp h
  unfold stakeBalance
  cases hfind : l.find? fun v => v.addr = a with
  | none => exact absurd ha (by simpa using List.find?_eq_none.mp hfind v hv)
  | some w =>
    have hw : w.addr = a := by simpa using List.find?_some hfind
    simpa [← hw] using List.mem_of_find?_eq_some hfind

/-! ## Blocks -/

/-- The pool written with a block. -/
theorem RecentMiners.written {l : List ActiveMiner} (h : RecentMiners number l) (vl : List Staked) :
    CleanMiners number vl
        (ActiveMinerList.ensureEffectiveMiners vl (ActiveMinerList.pruneInactive l number)) ∧
      RecentMiners (number + 1)
        (ActiveMinerList.ensureEffectiveMiners vl (ActiveMinerList.pruneInactive l number)) := by
  let pool : MinerPool := ⟨l, h.once⟩
  have honce := (pool.pruneInactive number).once
  have hinv := ((pool.pruneInactive number).ensureEffectiveMiners vl).once
  -- an entry of the written pool has the address and height of one that the sweep left
  have horigin : ∀ m ∈ ActiveMinerList.ensureEffectiveMiners vl (ActiveMinerList.pruneInactive l number),
      ∃ m₀ ∈ ActiveMinerList.pruneInactive l number, StakedList.exist vl m₀.address = true ∧
        m = { m₀ with balance := StakedList.stakeBalance vl m₀.address } :=
    fun m hm => ActiveMinerList.mem_ensureEffectiveMiners honce hm
  refine ⟨⟨hinv, ?_, ?_, ?_⟩, hinv, ?_, ?_⟩
  · intro m hm
    obtain ⟨m₀, -, hexist, rfl⟩ := horigin m hm
    exact StakedList.mem_stakeBalance hexist
  · intro m hm
    obtain ⟨m₀, hm₀, -, rfl⟩ := horigin m hm
    exact h.seen m₀ (ActiveMinerList.mem_of_mem_pruneInactive h.once hm₀)
  · intro hlate hnine m hm
    obtain ⟨m₀, hm₀, -, rfl⟩ := horigin m hm
    have hage := ActiveMinerList.age_le_of_recent h ⟨hlate, hnine⟩ hm₀
    exact hage
  · intro m hm
    obtain ⟨m₀, hm₀, -, rfl⟩ := horigin m hm
    have hseen := h.seen m₀ (ActiveMinerList.mem_of_mem_pruneInactive h.once hm₀)
    show m₀.height ≤ number + 1
    omega
  · intro m hm
    obtain ⟨m₀, hm₀, -, rfl⟩ := horigin m hm
    have hrecent := h.recent m₀ (ActiveMinerList.mem_of_mem_pruneInactive h.once hm₀)
    show number + 1 ≤ m₀.height + 120 + (number + 1 + 20) % 30
    by_cases hsweep : 30 < number ∧ number % 30 = 9
    · have hage := ActiveMinerList.age_le_of_recent h hsweep hm₀
      omega
    · omega

/-! ## Operations -/

/-- An operation leaves the miners alone or reports one at the given height. -/
def ReportsMiner (height : ℕ) (s t : StateDB) : Prop :=
  t.pools.activeMinersPool = s.pools.activeMinersPool ∨
    ∃ a x, t.pools.activeMinersPool =
      (s.addOrUpdateActiveMiner a x height).pools.activeMinersPool

theorem ReportsMiner.of_pools {height : ℕ} (h : t.pools = s.pools) : ReportsMiner height s t :=
  Or.inl (congrArg Pools.activeMinersPool h)

/-- A reported entry has the reported height; the others were there before. -/
theorem mem_addOrUpdateActiveMiner {a : Address} {x : ℤ} {height : ℕ}
    (h : m ∈ (s.addOrUpdateActiveMiner a x height).pools.activeMinersPool) :
    m.height = height ∨ m ∈ s.pools.activeMinersPool := by
  simp only [addOrUpdateActiveMiner] at h
  revert h
  cases s.pools.activeMinersPool.findIdx? (·.address = a) with
  | none =>
    intro h
    rcases List.mem_append.mp h with hold | hnew
    · exact Or.inr hold
    · rw [List.mem_singleton.mp hnew]
      exact Or.inl rfl
  | some k =>
    intro h
    obtain ⟨i, hi⟩ := List.mem_iff_getElem?.mp h
    rw [List.getElem?_modify] at hi
    obtain ⟨m₀, hm₀, hmodified⟩ := Option.map_eq_some_iff.mp hi
    by_cases hk : k = i
    · rw [if_pos hk] at hmodified
      exact Or.inl (by rw [← hmodified])
    · rw [if_neg hk] at hmodified
      exact Or.inr (hmodified ▸ List.mem_of_getElem? hm₀)

theorem RecentMiners.report (h : RecentMiners number s.pools.activeMinersPool)
    (hreport : ReportsMiner number s t) : RecentMiners number t.pools.activeMinersPool := by
  rcases hreport with hsame | ⟨a, x, hnew⟩
  · rw [hsame]
    exact h
  · rw [hnew]
    refine ⟨MinerPool.nodup_addOrUpdate h.once a x number, fun m hm => ?_, fun m hm => ?_⟩
    · rcases mem_addOrUpdateActiveMiner hm with hheight | hold
      · exact hheight.le
      · exact h.seen m hold
    · rcases mem_addOrUpdateActiveMiner hm with hheight | hold
      · omega
      · exact h.recent m hold

/-- Only a liveness transaction reports a miner. -/
theorem Core.Handled.reportsMiner {caller addr : Address} {w : WormholesTx} {value : ℕ}
    (h : Handled K s bn caller addr w value t) : ReportsMiner bn s t := by
  cases h with
  | userMint => exact Or.inl (by rw [createNFTByUser_pools])
  | transfer _ _ _ h =>
    exact .of_pools ((changeNFTOwner_nftWrite h).pools.trans (ensure_pools s _))
  | approve | unapprove | approveAll | unapproveAll => exact .of_pools (by simp)
  | exchange _ _ _ _ h =>
    obtain ⟨e, hpools⟩ := exchangeNFTToCurrency_pools h
    exact Or.inl (by rw [hpools])
  | nothing => exact .of_pools rfl
  | pledge => exact Or.inl (by rw [pledgeToken_pools])
  | unpledge _ _ h => exact Or.inl (by rw [cancelPledgedToken_pools h])
  | openExchanger => exact Or.inl (by rw [openExchanger_pools])
  | closeExchanger _ h =>
    rcases closeExchanger_pools h with hpools | ⟨e, hpools⟩
    · exact .of_pools hpools
    · exact Or.inl (by rw [hpools])
  | inject => exact Or.inl rfl
  | sale _ _ _ _ _ _ h =>
    obtain ⟨paid, hpaid, hchange⟩ := settleSale_inv h
    exact .of_pools ((changeNFTOwner_nftWrite hchange).pools.trans (paid_pools hpaid))
  | mintSale _ _ _ h =>
    obtain ⟨paid, hpaid, hchange⟩ := settleMintSale_inv h
    refine Or.inl ?_
    rw [(changeNFTOwner_nftWrite hchange).pools, mintPaid_pools hpaid, createNFTByUser_pools]
  | addStake _ _ h => exact Or.inl (by rw [addExchangerToken_pools h])
  | subStake _ _ h => exact Or.inl (by rw [subExchangerToken_pools h])
  | vote =>
    simp only [voteOfficialNFT]
    split
    · exact Or.inl rfl
    · exact .of_pools rfl
  | online =>
    refine Or.inr ⟨caller, value, ?_⟩
    simp only [addOrUpdateActiveMiner, transfer_pools]

theorem Effect.reportsMiner {e : Event} (h : Effect K bn e s t) : ReportsMiner bn s t := by
  cases h with
  | skip => exact .of_pools rfl
  | payload h => exact (handleNFT_inv h).reportsMiner
  | nTransferFrom _ h => exact .of_pools (changeNFTOwner_nftWrite h).pools
  | nMint => exact Or.inl (by rw [createNFTByUser_pools])
  | selfDestruct => exact .of_pools (by simp [opSuicide])
  | _ => exact .of_pools (by simp)

/-- The official mint of a block leaves the miners alone. -/
theorem activeMiners_createNFTByOfficial16 {H : Hasher} {owners : List Address}
    (h : s.createNFTByOfficial16 H owners bn = some t) :
    t.pools.activeMinersPool = s.pools.activeMinersPool := by
  obtain ⟨u, full, hu, hend⟩ := createNFTByOfficial16_cases h
  have hloop : u.pools.activeMinersPool = s.pools.activeMinersPool := by
    refine mintLoop_upcoming (I := fun u => u.pools.activeMinersPool = s.pools.activeMinersPool)
      ?_ (fun _ _ => trivial) hu rfl
    intro _ s₁ s₂ a _ hnext _ _ hsame
    exact (nextMint_tokens hnext).2.2.trans hsame
  rcases hend with rfl | helect
  · exact hloop
  · obtain ⟨e, n, he⟩ := electNominatedOfficialNFT_pools helect
    rw [he]
    exact hloop

/-! ## Runs -/

theorem step_recentMiners {c c' : Chain} {e : Event}
    (hc : RecentMiners c.number c.db.pools.activeMinersPool) (h : Chain.step K e c = some c') :
    RecentMiners c'.number c'.db.pools.activeMinersPool := by
  cases Chain.step_inv h with
  | skip => exact hc
  | stay _ heffect => exact hc.report heffect.reportsMiner
  | enter heffect => exact RecentMiners.report hc heffect.reportsMiner
  | @create caller addr value n db heffect =>
    have hnonce : RecentMiners c.number (c.db.setNonce caller n).snapshot.pools.activeMinersPool := by
      simpa [snapshot] using hc
    exact hnonce.report heffect.reportsMiner
  | revert hrevert => exact hc.report (.of_pools (revertToSnapshot_pools hrevert))
  | finalise => exact hc
  | block hmint =>
    have hsame : ReportsMiner c.number c.db _ := Or.inl (activeMiners_createNFTByOfficial16 hmint)
    exact ((hc.report hsame).written _).2

/-- From a genesis whose miners are clean, in every run, the miners are clean after every block. -/
theorem miners_clean_after_block {c₀ c c' : Chain} {es : List Event} {beneficiaries : List Address}
    (hfirst : c₀.number = 1)
    (hgenesis : CleanMiners 0 c₀.validatorPool c₀.db.pools.activeMinersPool)
    (hrun : Run (Chain.step K) (fun _ _ => True) c₀ es c)
    (hblock : Chain.step K (.finalizeBlock beneficiaries) c = some c') :
    CleanMiners c.number c'.validatorPool c'.db.pools.activeMinersPool := by
  have hstart : RecentMiners c₀.number c₀.db.pools.activeMinersPool := by
    refine ⟨hgenesis.once, fun m hm => ?_, fun m hm => ?_⟩
    · have hseen := hgenesis.seen m hm
      omega
    · omega
  have hc : RecentMiners c.number c.db.pools.activeMinersPool :=
    hrun.invariant (P := fun c => RecentMiners c.number c.db.pools.activeMinersPool) hstart
      fun hu _ hstep => step_recentMiners hu hstep
  obtain ⟨db, hdb, rfl⟩ := Chain.step_finalizeBlock_inv hblock
  have hmint : ReportsMiner c.number c.db db := Or.inl (activeMiners_createNFTByOfficial16 hdb)
  exact ((hc.report hmint).written _).1

/-! ## Genesis -/

/-- The validators of a genesis are in its list with their amounts. -/
theorem foldl_add_perm {vs : List (Address × ℕ)} {l : List Staked}
    (hvs : (vs.map Prod.fst).Nodup) (hnew : ∀ v ∈ vs, StakedList.exist l v.1 = false) :
    (vs.foldl (fun l v => StakedList.add l v.1 v.2) l).Perm
      (l ++ vs.map fun v => (⟨v.1, v.2⟩ : Staked)) := by
  induction vs generalizing l with
  | nil => simp
  | cons v vs ih =>
    obtain ⟨hv, hvs'⟩ := List.nodup_cons.mp hvs
    have hperm : (StakedList.add l v.1 v.2).Perm (l ++ [⟨v.1, v.2⟩]) := by
      unfold StakedList.add
      rw [if_neg (by simp [hnew v List.mem_cons_self])]
      exact StakedList.sorted_perm _
    have hnew' : ∀ v' ∈ vs, StakedList.exist (StakedList.add l v.1 v.2) v'.1 = false := by
      intro v' hv'
      have hne : v.1 ≠ v'.1 := fun heq => hv (List.mem_map.mpr ⟨v', hv', heq.symm⟩)
      have hold := hnew v' (List.mem_cons_of_mem _ hv')
      unfold StakedList.exist at hold ⊢
      rw [hperm.any_eq, List.any_append, hold]
      simpa using hne
    refine (ih hvs' hnew').trans ?_
    simpa using hperm.append_right (vs.map fun v => (⟨v.1, v.2⟩ : Staked))

/-- The miners of every genesis are clean. -/
theorem Genesis.cleanMiners (g : Genesis) :
    CleanMiners 0 g.chain.validatorPool g.chain.db.pools.activeMinersPool := by
  have hperm := foldl_add_perm (l := []) g.validator_nodup fun _ _ => rfl
  refine ⟨?_, fun m hm => ?_, fun m hm => ?_, fun hlate => absurd hlate (by decide)⟩
  · show ((g.validator.map fun v => (⟨v.1, v.2, 0⟩ : ActiveMiner)).map ActiveMiner.address).Nodup
    rw [List.map_map]
    exact g.validator_nodup
  · obtain ⟨v, hv, rfl⟩ := List.mem_map.mp hm
    exact hperm.mem_iff.mpr (List.mem_map.mpr ⟨v, hv, rfl⟩)
  · obtain ⟨v, -, rfl⟩ := List.mem_map.mp hm
    exact le_refl 0

/-- A genesis with one validator and a second account. -/
def livenessGenesis : Genesis :=
  { Genesis.small [⟨0xe1, 1000, [], 0⟩, ⟨0xe2, 1000, [], 0⟩] with
    validator := [(0xe1, 100)]
    validator_nodup := by decide }

/-- Both accounts report that they are online; the one without a pledge is not kept. -/
theorem miners_clean_after_liveness :
    ∃ c c' : Chain,
      Run (Chain.step .trivial) (fun _ _ => True) livenessGenesis.chain
          [.call 0xe1 0xe2 (.wormholes (.bare 30)) 5, .call 0xe2 0xe1 (.wormholes (.bare 30)) 5] c ∧
        Chain.step .trivial (.finalizeBlock []) c = some c' ∧
        CleanMiners c.number c'.validatorPool c'.db.pools.activeMinersPool := by
  have hsome : ((runAll (Chain.step .trivial)
      [.call 0xe1 0xe2 (.wormholes (.bare 30)) 5, .call 0xe2 0xe1 (.wormholes (.bare 30)) 5]
      livenessGenesis.chain).bind (Chain.step .trivial (.finalizeBlock []))).isSome = true := by
    decide +kernel
  obtain ⟨c', hc'⟩ := Option.isSome_iff_exists.mp hsome
  obtain ⟨c, hc, hblock⟩ := Option.bind_eq_some_iff.mp hc'
  have hrun : Run (Chain.step .trivial) (fun _ _ => True) livenessGenesis.chain _ c :=
    Run.of_runAll (fun _ _ _ => trivial) hc
  exact ⟨c, c', hrun, hblock, miners_clean_after_block rfl livenessGenesis.cleanMiners hrun hblock⟩

end Wormholes
