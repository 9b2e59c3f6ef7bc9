import Wormholes.Laws.Chain.Accounts
import Wormholes.Laws.Core.Exec
import Wormholes.Laws.Core.Panic

/-!
# Laws.Chain.Panic — which transactions crash a node

`EVM.Call` recovers from no panic, so a payload that panics ends every node that processes it. Calls
are met in two places: in the block under way, and in the prefetcher, which `insertChain` starts with
the transactions of a later block on a state it gives no counters and pools. In whatever state either
has reached, a call returns exactly if it is `CallSafe`. The one assumption is that address zero
records no NFT of level thirty-nine, which takes official mints past the last address.
-/

namespace Wormholes

open Lib Common Core StateDB

variable {K : Crypto} {db : StateDB} {blocknumber : ℕ} {caller addr : Address} {w : WormholesTx}
  {value : ℕ} {c c' : Chain} {e : Event}

/-- An official address has a merge level that leaves its text a digit. -/
theorem keptAt_level : KeptAt fun a o => isOfficialNFT a = true → o.nft.mergeLevel ≤ 39 where
  info hlevel _ := hlevel
  owner _ h := h
  approve _ h := h
  reset _ _ := Nat.zero_le _
  vote h := h
  amounts _ _ _ h := h
  code _ _ _ h := h
  approvals _ h := h
  suicided h := h
  stake _ h := h
  opened _ _ _ _ h := h
  closed h := h
  fresh _ _ _ := Nat.zero_le _
  normal hnormal h := by
    have hnft := congrArg StateObject.nft hnormal
    simp only [StateObject.normal] at hnft
    rwa [hnft] at h
  reload h := h

/-! ## The prefetcher -/

/-- One operation on the prefetcher's state. The mint of an opcode finds no counter, and no block is
finalised there. -/
def Chain.ahead (K : Crypto) (e : Event) (c : Chain) : Option Chain :=
  match e with
  | .call caller addr input value =>
    (Exec.left (Exec.call K c.number caller addr value false 0 input ⟨c.db, 0, false⟩)).map fun f =>
      if value ≠ 0 ∧ ¬ c.db.canTransfer caller value then c else c.entered f.db
  | .nMint caller _ _ _ => if c.db.getExchangerFlag caller then none else some c
  | .finalizeBlock _ => none
  | e => c.step K e

/-- What the prefetcher does the chain could do. -/
theorem Chain.step_of_ahead (h : c.ahead K e = some c') : c.step K e = some c' := by
  cases e with
  | call caller addr input value =>
    obtain ⟨f, hf, rfl⟩ := Option.map_eq_some_iff.mp h
    rw [Exec.left_call (Nat.zero_le _)] at hf
    unfold Chain.step evmCall
    by_cases hunpaid : value ≠ 0 ∧ ¬ c.db.canTransfer caller value = true
    · simp only [if_pos hunpaid]
    · simp only [if_neg hunpaid] at hf ⊢
      cases input with
      | plain | malformed =>
        cases hf
        rfl
      | wormholes w =>
        have hafter := Exec.after_of_left hf
        dsimp only at hafter ⊢
        generalize handleNFT K c.db.snapshot c.number caller addr w value = r at hafter ⊢
        cases r with
        | ok db | err msg =>
          cases hafter
          rfl
        | panic => cases hafter
  | nMint caller toAddr royalty uri =>
    change (if c.db.getExchangerFlag caller = true then none else some c) = some c' at h
    by_cases hflag : c.db.getExchangerFlag caller = true
    · rw [if_pos hflag] at h
      cases h
    · rw [if_neg hflag] at h
      simp only [Chain.step, opNMint, if_neg hflag, Chain.ofRes, h]
  | finalizeBlock beneficiaries => cases h
  | _ => exact h

/-- The block numbers and frames a node's calls meet: those of a block under way, and those of the
prefetcher, which starts on the state some block left. -/
inductive Met (K : Crypto) (g : Genesis) : ℕ → Frame → Prop
  | block {es : List Event} {c : Chain} (gas : ℕ)
      (run : Run (Chain.step K) (fun _ _ => True) g.chain es c) : Met K g c.number ⟨c.db, gas, true⟩
  | prefetch {es es' : List Event} {c c' : Chain} (number gas : ℕ)
      (run : Run (Chain.step K) (fun _ _ => True) g.chain es c)
      (ahead : Run (Chain.ahead K) (fun _ _ => True) { c with number := number } es' c') :
      Met K g c'.number ⟨c'.db, gas, false⟩

theorem Met.level_le {g : Genesis} {f : Frame} (h : Met K g blocknumber f) :
    EverywhereAt (fun a o => isOfficialNFT a = true → o.nft.mergeLevel ≤ 39) f.db := by
  cases h with
  | block gas run => exact (keptAt_level.everywhere_of_run run).2.1
  | prefetch number gas run ahead =>
    obtain ⟨hsaved, hdb, hall⟩ := keptAt_level.everywhere_of_run run
    refine (ahead.invariant (P := fun c : Chain => c.SavedOk ∧ c.AllStates (EverywhereAt _))
      ⟨hsaved, hdb, hall⟩ fun hc _ hstep => ?_).2.1
    exact keptAt_level.step (Chain.step_of_ahead hstep) hc

theorem Met.levels {g : Genesis} {f : Frame} (h : Met K g blocknumber f)
    (htop : (nftAt f.db 0).mergeLevel ≠ 39) : Levels f.db := by
  refine ⟨fun a hoff => ?_, htop⟩
  cases ha : f.db.accounts a with
  | none =>
    rw [nftAt, view_of_none _ ha]
    exact Nat.zero_le _
  | some o =>
    rw [nftAt, view_of_some _ ha]
    exact h.level_le a o ha hoff

/-! ## Payloads without counters and pools -/

/-- The payload is refused before a counter, the exchange pool or the official pool is used. -/
def Unused (K : Crypto) (db : StateDB) (blocknumber : ℕ) (caller addr : Address) (w : WormholesTx)
    (value : ℕ) : Prop :=
  match w.type with
  | 0 => 0 < w.royalty ∧ w.royalty < 10000 →
      ∀ exchanger, mintExchanger w.exchanger ≠ .ok exchanger
  | 6 => ∀ nftAddress level, getNftAddressAndLevel w.nftAddress = .ok (nftAddress, level) →
      isOfficialNFT nftAddress = true → getNFTOwner16 K.toHasher db nftAddress ≠ caller
  | 13 => has0xPrefix w.startIndex = false
  | 16 | 17 | 19 => 0 < value → ∀ p, checkedMint K db blocknumber caller addr w value ≠ .ok p
  | 23 => False
  | 24 => 0 < w.royalty ∧ w.royalty < 10000 →
      ∀ t, voteOfficialNFTByApprovedExchanger K db blocknumber caller w ≠ .ok t
  | _ => True

theorem exists_ok_of_ne_panic {α : Type} {x : Option α} (h : Res.ofOption x ≠ .panic) :
    ∃ t, Res.ofOption x = .ok t := by
  cases x with
  | none => exact absurd rfl h
  | some t => exact ⟨t, rfl⟩

theorem refused_iff_mintSale (hmint : w.type = 16 ∨ w.type = 17 ∨ w.type = 19)
    (hsafe : handleNFT K db blocknumber caller addr w value ≠ .panic) :
    (∀ t, handleNFT K db blocknumber caller addr w value ≠ .ok t) ↔
      Unused K db blocknumber caller addr w value := by
  have hunused : Unused K db blocknumber caller addr w value ↔
      (0 < value → ∀ p, checkedMint K db blocknumber caller addr w value ≠ .ok p) := by
    rcases hmint with htype | htype | htype <;> simp only [Unused, htype]
  rw [hunused]
  rw [handleNFT_mintSale hmint] at hsafe ⊢
  by_cases hvalue : 0 < value
  · have hpaid : checkValue value = .ok () := if_pos hvalue
    rw [hpaid, Res.ok_bind] at hsafe ⊢
    cases hchecked : checkedMint K db blocknumber caller addr w value with
    | ok p =>
      rw [hchecked, Res.ok_bind] at hsafe
      obtain ⟨t, ht⟩ := exists_ok_of_ne_panic hsafe
      exact iff_of_false (fun h => h t ht) fun h => h hvalue p rfl
    | err msg => exact iff_of_true (fun t h => by cases h) fun _ p h => by cases h
    | panic => exact iff_of_true (fun t h => by cases h) fun _ p h => by cases h
  · have hunpaid : checkValue value = .err "trans amount must be larger than 0" := if_neg hvalue
    rw [hunpaid]
    exact iff_of_true (fun t h => by cases h) fun h => absurd h hvalue

theorem refused_iff_userMint (htype : w.type = 0) :
    (∀ t, handleNFT K db blocknumber caller addr w value ≠ .ok t) ↔
      Unused K db blocknumber caller addr w value := by
  simp only [handleNFT, Unused, htype, checkRoyalty, Res.bind_eq_ok, Res.require_eq_ok, ne_eq]
  refine ⟨fun h hroyalty exchanger hexchanger => ?_, fun h t ht => ?_⟩
  · exact h _ ⟨(), ⟨(), hroyalty.1, hroyalty.2⟩, exchanger, hexchanger, rfl⟩
  · obtain ⟨-, ⟨-, hpos, hlt⟩, exchanger, hexchanger, -⟩ := ht
    exact h ⟨hpos, hlt⟩ exchanger hexchanger

theorem refused_iff_exchange (htype : w.type = 6)
    (hsafe : handleNFT K db blocknumber caller addr w value ≠ .panic) :
    (∀ t, handleNFT K db blocknumber caller addr w value ≠ .ok t) ↔
      Unused K db blocknumber caller addr w value := by
  simp only [handleNFT, htype] at hsafe
  simp only [handleNFT, Unused, htype, Res.bind_eq_ok, Res.require_eq_ok, ne_eq]
  refine ⟨fun h nftAddress level hnft hoff howner => ?_, fun h t ht => ?_⟩
  · rw [hnft] at hsafe
    simp only [Res.ok_bind, Res.require, if_pos hoff, if_pos howner] at hsafe
    obtain ⟨t, ht⟩ := exists_ok_of_ne_panic hsafe
    exact h t ⟨(nftAddress, level), hnft, (), hoff, (), howner, ht⟩
  · obtain ⟨found, hnft, -, hoff, -, howner, -⟩ := ht
    exact h found.1 found.2 hnft hoff howner

theorem refused_iff_inject (htype : w.type = 13)
    (hsafe : handleNFT K db blocknumber caller addr w value ≠ .panic) :
    (∀ t, handleNFT K db blocknumber caller addr w value ≠ .ok t) ↔
      Unused K db blocknumber caller addr w value := by
  simp only [handleNFT, htype] at hsafe
  simp only [handleNFT, Unused, htype, Res.bind_eq_ok, Res.require_eq_ok, ne_eq]
  refine ⟨fun h => ?_, fun h t ht => ?_⟩
  · by_contra hprefix
    have hfound : has0xPrefix w.startIndex = true := Bool.eq_true_of_not_eq_false hprefix
    simp only [Res.require, if_pos hfound, Res.ok_bind] at hsafe
    obtain ⟨n, hn⟩ := exists_ok_of_ne_panic fun hpanic => hsafe (by rw [hpanic]; rfl)
    exact h _ ⟨(), hfound, n, hn, rfl⟩
  · obtain ⟨-, hfound, -⟩ := ht
    exact Bool.false_ne_true (h.symm.trans hfound)

theorem refused_iff_vote (htype : w.type = 24) :
    (∀ t, handleNFT K db blocknumber caller addr w value ≠ .ok t) ↔
      Unused K db blocknumber caller addr w value := by
  simp only [handleNFT, Unused, htype, checkRoyalty, Res.bind_eq_ok, Res.require_eq_ok, ne_eq]
  refine ⟨fun h hroyalty t ht => ?_, fun h t ht => ?_⟩
  · exact h t ⟨(), ⟨(), hroyalty.1, hroyalty.2⟩, ht⟩
  · obtain ⟨-, ⟨-, hpos, hlt⟩, hvoted⟩ := ht
    exact h ⟨hpos, hlt⟩ t hvoted

/-- Where a payload does not panic, `Unused` says that no handler which needs a counter or a pool is
carried out. A vote of type 23 reads the official pool before it tests anything. -/
theorem unused_iff (hsafe : handleNFT K db blocknumber caller addr w value ≠ .panic) :
    (w.type ≠ 23 ∧ (Exec.usesPools w.type = true →
      ∀ t, handleNFT K db blocknumber caller addr w value ≠ .ok t)) ↔
      Unused K db blocknumber caller addr w value := by
  by_cases hvote : w.type = 23
  · simp [Unused, hvote]
  rw [and_iff_right hvote]
  by_cases huses : Exec.usesPools w.type = true
  · rw [imp_iff_right huses]
    simp only [Exec.usesPools, decide_eq_true_eq, List.mem_cons, List.not_mem_nil, or_false] at huses
    rcases huses with htype | htype | htype | htype | htype | htype | htype | htype
    · exact refused_iff_userMint htype
    · exact refused_iff_exchange htype hsafe
    · exact refused_iff_inject htype hsafe
    · exact refused_iff_mintSale (Or.inl htype) hsafe
    · exact refused_iff_mintSale (Or.inr (Or.inl htype)) hsafe
    · exact refused_iff_mintSale (Or.inr (Or.inr htype)) hsafe
    · exact absurd htype hvote
    · exact refused_iff_vote htype
  · refine iff_of_true (fun h => absurd h huses) ?_
    unfold Unused
    split <;> simp_all [Exec.usesPools]

/-! ## Calls -/

/-- The payload of a call that is carried out meets nothing that panics. -/
def CallSafe (K : Crypto) (f : Frame) (blocknumber : ℕ) (caller addr : Address)
    (input : CallInput) (value : ℕ) : Prop :=
  match input with
  | .wormholes w => (value ≠ 0 → f.db.canTransfer caller value = true) →
      Safe K f.db.snapshot blocknumber caller addr w value ∧
        (f.loaded = false → Unused K f.db.snapshot blocknumber caller addr w value)
  | _ => True

/-- In every state a node's calls meet, a call returns, with or without an error, exactly if it is
safe. -/
theorem call_returns_iff {g : Genesis} {f : Frame} (hmet : Met K g blocknumber f)
    (htop : (nftAt f.db 0).mergeLevel ≠ 39) (caller addr : Address) (input : CallInput) (value : ℕ)
    (depth : Fin (Exec.callCreateDepth + 1)) :
    (Exec.left (Exec.call K blocknumber caller addr value false depth input f)).isSome ↔
      CallSafe K f blocknumber caller addr input value := by
  rw [Exec.left_call (Nat.lt_succ_iff.mp depth.isLt)]
  by_cases hunpaid : value ≠ 0 ∧ ¬ f.db.canTransfer caller value
  · rw [if_pos hunpaid]
    refine iff_of_true rfl ?_
    cases input with
    | plain | malformed => trivial
    | wormholes w => exact fun h => absurd (h hunpaid.1) hunpaid.2
  rw [if_neg hunpaid]
  have hpaid : value ≠ 0 → f.db.canTransfer caller value = true := fun hvalue => by
    by_contra hshort
    exact hunpaid ⟨hvalue, hshort⟩
  cases input with
  | plain | malformed => exact iff_of_true rfl trivial
  | wormholes w =>
    have hlevels : Levels f.db.snapshot := (hmet.levels htop).of_parts rfl
    have hsafe : handleNFT K f.db.snapshot blocknumber caller addr w value ≠ .panic ↔ _ :=
      (handleNFT_eq_panic_iff hlevels).not.trans not_not
    simp only [CallSafe, imp_iff_right hpaid]
    rw [Exec.left_handleNFT_isSome_iff, ← hsafe]
    exact and_congr_right fun hreturns => imp_congr_right fun _ => unused_iff hreturns

/-- One funded account. -/
def panicGenesis : Genesis := .small [⟨0xb0, 1000, [], 0⟩]

/-- The first byte of a signature is its signer. -/
def panicCrypto : Crypto where
  keccak256 := fun _ => []
  sigToPub := fun _ sig => .ok (bigToAddress (sig.headD 0))

/-- An order of a seller with this text as its signature. -/
def signedWith (sig : GoString) : WormholesTx :=
  { WormholesTx.bare 15 with seller1 := { (WormholesTx.bare 15).seller1 with sig := sig } }

/-- What the first block and the prefetcher start on. -/
def panicFrame (loaded : Bool) : Frame := ⟨panicGenesis.chain.db, 0, loaded⟩

theorem met_panicFrame (loaded : Bool) :
    Met panicCrypto panicGenesis panicGenesis.chain.number (panicFrame loaded) := by
  cases loaded with
  | false => exact .prefetch panicGenesis.chain.number 0 (.nil _) (.nil _)
  | true => exact .block 0 (.nil _)

/-- A mint with this royalty. -/
def mintWith (royalty : ℕ) : WormholesTx := { WormholesTx.bare 0 with royalty := royalty }

/-- A signature of one byte is refused with an error, and so is, without a counter, a mint with a
royalty out of range. -/
theorem call_returns_short :
    (Exec.left (Exec.call panicCrypto panicGenesis.chain.number 0xb0 0 1 false 0
      (.wormholes (signedWith "0x00".toList)) (panicFrame true))).isSome ∧
    (Exec.left (Exec.call panicCrypto panicGenesis.chain.number 0xb0 0 0 false 0
      (.wormholes (mintWith 10000)) (panicFrame false))).isSome := by
  constructor
  · refine (call_returns_iff (met_panicFrame true) (by decide) _ _ _ _ 0).mpr fun _ => ⟨?_, nofun⟩
    refine fun _ => ⟨⟨fun _ => by decide, fun _ _ => trivial⟩, fun p hp => ?_⟩
    have herr : checkedSale panicCrypto (panicFrame true).db.snapshot panicGenesis.chain.number 0xb0 0
        (signedWith "0x00".toList) 1 = .err "signature must be 65 bytes long" := by decide +kernel
    cases herr.symm.trans hp
  · refine (call_returns_iff (met_panicFrame false) (by decide) _ _ _ _ 0).mpr fun _ => ⟨trivial, ?_⟩
    exact fun _ hroyalty => absurd hroyalty.2 (lt_irrefl _)

/-- A seller's order to mint, to be sold through an exchanger without an account. -/
def unknownExchanger : WormholesTx :=
  { WormholesTx.bare 16 with
    seller2 :=
      { amount := "0x64".toList
        royalty := "0x64".toList
        metaURL := "/ipfs/art".toList
        exclusiveFlag := "0".toList
        exchanger := "0x0000000000000000000000000000000000000077".toList
        blockNumber := "0xff".toList
        sig := "0x5e".toList ++ List.replicate 126 '0' ++ "1b".toList } }

/-- The call ends the node. -/
def Crashes (f : Frame) (caller : Address) (w : WormholesTx) (value : ℕ) : Prop :=
  (Exec.left (Exec.call panicCrypto panicGenesis.chain.number caller 0 value false 0 (.wormholes w)
    f)).isNone

instance (f : Frame) (caller : Address) (w : WormholesTx) (value : ℕ) :
    Decidable (Crashes f caller w value) :=
  inferInstanceAs (Decidable (_ = _))

/-- A signature with an odd number of digits, a start index without digits and an exchanger without
a vote weight crash the node; so do closing and raising the stake of an exchanger from an account
that was created in the same block; and so does, in the prefetcher, every mint. -/
theorem transactions_crash :
    (∃ f, Met panicCrypto panicGenesis panicGenesis.chain.number f ∧
      Crashes f 0xb0 (signedWith "0x0".toList) 1 ∧
      Crashes f 0xb0 { WormholesTx.bare 13 with startIndex := "0x".toList } 0 ∧
      Crashes f 0xb0 unknownExchanger 100) ∧
    (∃ f, Met panicCrypto panicGenesis panicGenesis.chain.number f ∧
      Crashes f 0xb1 (.bare 12) 0 ∧ Crashes f 0xb1 (.bare 21) 1) ∧
    ∃ f, Met panicCrypto panicGenesis panicGenesis.chain.number f ∧ f.loaded = false ∧
      Crashes f 0xb0 (mintWith 100) 0 := by
  refine ⟨⟨panicFrame true, met_panicFrame true, by decide +kernel⟩, ?_,
    panicFrame false, met_panicFrame false, by decide +kernel⟩
  have hcreated : (runAll (Chain.step panicCrypto) [.call 0xb0 0xb1 .plain 1] panicGenesis.chain).map
      (fun c => (c.number, decide (Crashes ⟨c.db, 0, true⟩ 0xb1 (.bare 12) 0 ∧
        Crashes ⟨c.db, 0, true⟩ 0xb1 (.bare 21) 1))) = some (panicGenesis.chain.number, true) := by
    decide +kernel
  obtain ⟨c, hc, hvalues⟩ := Option.map_eq_some_iff.mp hcreated
  obtain ⟨hnumber, hcrashes⟩ := Prod.mk.inj hvalues
  refine ⟨⟨c.db, 0, true⟩, ?_, of_decide_eq_true hcrashes⟩
  rw [← hnumber]
  exact .block 0 (Run.of_runAll (fun _ _ _ => trivial) hc)

end Wormholes
