import Wormholes.Core.Exec
import Wormholes.Laws.Chain.Steps

/-!
# Laws.Core.Exec — a handler that fails has written nothing

`Simulates needs m f r` compares a handler as the code runs it with the handler as a function of the
state: the same new state, or the same error with the frame as it was, or a panic on both sides. A
handler that needs the counters and pools panics without them where it would have gone through.
One rule for each way a computation goes on makes a handler's proof follow its text. Two tests come
after a write, whether an NFT was minted and whether the text of a transferred NFT's address parses;
neither fails there (`createNFTByUser_eq`, `transferNFT_simulates`).
-/

namespace Wormholes.Core.Exec

open Common StateDB

variable {α : Type} {f : Frame}
variable {m : Exec α} {g : Frame} {c : Prop} {msg : String} {buyer : Address}
variable {β : Type} {a : α} {φ : StateDB → StateDB} {p : Address × ℕ} {needs : Bool}
  {beneficiary nftAddress : Address} {level : ℕ}

/-- The run of `m` from `f` ends as `r` says, except that a handler that needs what is not loaded
panics where `r` is a new state. An error leaves the frame as it was. -/
def Simulates (needs : Bool) (m : Exec Unit) (f : Frame) (r : Res StateDB) : Prop :=
  match r with
  | .ok db =>
    if needs && !f.loaded then ∃ g, m f = .error .panic g else m f = .ok () { f with db := db }
  | .err msg => m f = .error (.err msg) f
  | .panic => ∃ g, m f = .error .panic g

/-! ## Rules -/

section Rules

theorem bind_of_ok {k : α → Exec β} (h : m f = .ok a g) : (m >>= k) f = k a g := by
  show EStateM.bind m k f = _
  unfold EStateM.bind
  rw [h]

theorem bind_of_error {k : α → Exec β} {e : Stop} (h : m f = .error e g) :
    (m >>= k) f = .error e g := by
  show EStateM.bind m k f = _
  unfold EStateM.bind
  rw [h]

variable {x : Res α} {k : α → Exec Unit} {r : α → Res StateDB}

theorem require_of [Decidable c] (h : c) : require c msg f = .ok () f := by
  unfold require Res.require
  rw [if_pos h]
  rfl

theorem require_of_not [Decidable c] (h : ¬ c) : require c msg f = .error (.err msg) f := by
  unfold require Res.require
  rw [if_neg h]
  rfl

theorem simulates_check (h : ∀ a, x = .ok a → Simulates needs (k a) f (r a)) :
    Simulates needs (check x >>= k) f (x >>= r) := by
  cases x with
  | ok a => exact h a rfl
  | err msg => rfl
  | panic => exact ⟨f, rfl⟩

theorem simulates_require [Decidable c] {k : Unit → Exec Unit} {r : Unit → Res StateDB}
    (h : c → Simulates needs (k ()) f (r ())) :
    Simulates needs (require c msg >>= k) f (Res.require c msg >>= r) :=
  simulates_check fun _ hc => h (Res.require_eq_ok.mp hc)

theorem simulates_read {φ : StateDB → α} {r : Res StateDB} (h : Simulates needs (k (φ f.db)) f r) :
    Simulates needs (read φ >>= k) f r := h

theorem simulates_test {φ : StateDB → α} {c : α → Prop} [∀ a, Decidable (c a)] {k : α → Unit → Exec Unit}
    {r : Unit → Res StateDB} (h : c (φ f.db) → Simulates needs (k (φ f.db) ()) f (r ())) :
    Simulates needs (read φ >>= fun a => require (c a) msg >>= k a) f (Res.require (c (φ f.db)) msg >>= r) :=
  simulates_read (simulates_require h)

theorem simulates_examine {φ : StateDB → Res α}
    (h : ∀ a, φ f.db = .ok a → Simulates needs (k a) f (r a)) :
    Simulates needs (examine φ >>= k) f (φ f.db >>= r) := by
  show Simulates needs (check (φ f.db) >>= k) f _
  exact simulates_check h

theorem simulates_write : Simulates false (write φ) f (.ok (φ f.db)) := rfl

theorem simulates_writeOr {φ : StateDB → Option StateDB} :
    Simulates false (writeOr φ) f (Res.ofOption (φ f.db)) := by
  unfold Simulates writeOr
  cases φ f.db with
  | none => exact ⟨f, rfl⟩
  | some db => rfl

/-- A step that went through, followed by nothing that returns an error. -/
theorem simulates_bind_of_ok {db : StateDB} {r : Option StateDB}
    (hm : m f = .ok a { f with db := db })
    (h : Simulates needs (k a) { f with db := db } (Res.ofOption r)) :
    Simulates needs (m >>= k) f (Res.ofOption r) := by
  have hrun : (m >>= k) f = k a { f with db := db } := bind_of_ok hm
  cases r with
  | none =>
    obtain ⟨g, hg⟩ := h
    exact ⟨g, hrun.trans hg⟩
  | some db' =>
    unfold Simulates at h ⊢
    rwa [hrun]

theorem simulates_write_bind {k : Unit → Exec Unit} {r : Option StateDB}
    (h : Simulates needs (k ()) { f with db := φ f.db } (Res.ofOption r)) :
    Simulates needs (write φ >>= k) f (Res.ofOption r) :=
  simulates_bind_of_ok rfl h

/-- With counters and pools a handler that needs them is like any other. -/
theorem simulates_of_loaded {m : Exec Unit} {r : Res StateDB} (hloaded : f.loaded = true)
    (h : Simulates false m f r) : Simulates needs m f r := by
  cases r with
  | ok db =>
    refine (if_neg ?_).mpr h
    rw [hloaded, Bool.not_true, Bool.and_false]
    exact Bool.false_ne_true
  | err msg => exact h
  | panic => exact h

/-- Without them it panics when it uses them. -/
theorem simulates_of_unloaded {m : Exec Unit} {r : Option StateDB} (hloaded : f.loaded = false)
    (h : m f = .error .panic f) : Simulates true m f (Res.ofOption r) := by
  cases r with
  | none => exact ⟨f, h⟩
  | some db =>
    unfold Simulates
    rw [hloaded]
    exact ⟨f, h⟩

theorem deref_of_unloaded {k : Unit → Exec α} (hloaded : f.loaded = false) :
    (deref >>= k) f = .error .panic f :=
  bind_of_error (show deref f = _ by rw [deref, hloaded]; rfl)

theorem deref_of_loaded {k : Unit → Exec α} (hloaded : f.loaded = true) :
    (deref >>= k) f = k () f :=
  bind_of_ok (show deref f = _ by rw [deref, hloaded]; rfl)

theorem simulates_deref {k : Unit → Exec Unit} {r : Option StateDB}
    (h : Simulates false (k ()) f (Res.ofOption r)) :
    Simulates true (deref >>= k) f (Res.ofOption r) := by
  cases hloaded : f.loaded with
  | false => exact simulates_of_unloaded hloaded (deref_of_unloaded hloaded)
  | true =>
    refine simulates_of_loaded hloaded ?_
    unfold Simulates at h ⊢
    rwa [deref_of_loaded hloaded]

end Rules

variable {K : Crypto} {blocknumber : ℕ} {caller recipient : Address} {w : WormholesTx} {amount : ℕ}

/-! ## Minting and moving an NFT -/

theorem createNFTByUser_eq (exchanger owner : Address) (royalty : ℕ) (metaurl : GoString)
    (hloaded : f.loaded = true) :
    createNFTByUser exchanger owner royalty metaurl f =
      .ok ((f.db.createNFTByUser exchanger owner royalty metaurl).2, true)
        { f with db := (f.db.createNFTByUser exchanger owner royalty metaurl).1 } := by
  obtain ⟨o, ho⟩ := createAccount_found (s := f.db)
    (a := bigToAddress f.db.pools.mintDeep.userMint)
  have hfound := show (f.db.createAccount (bigToAddress f.db.pools.mintDeep.userMint)).getStateObject
    (bigToAddress f.db.pools.mintDeep.userMint) = some _ from ho
  unfold createNFTByUser
  rw [deref_of_loaded hloaded]
  unfold getOrNewStateObject StateDB.createNFTByUser putNFTInfo StateDB.getOrNewStateObject
  simp only [hfound, bind, EStateM.bind, read, write, pure, EStateM.pure]

theorem createNFTByUser_simulates {exchanger owner : Address} {royalty : ℕ} {metaurl : GoString}
    {k : Address × Bool → Exec Unit} {r : Option StateDB}
    (h : Simulates false (k ((f.db.createNFTByUser exchanger owner royalty metaurl).2, true))
      { f with db := (f.db.createNFTByUser exchanger owner royalty metaurl).1 } (Res.ofOption r)) :
    Simulates true (createNFTByUser exchanger owner royalty metaurl >>= k) f (Res.ofOption r) := by
  cases hloaded : f.loaded with
  | false => exact simulates_of_unloaded hloaded (bind_of_error (deref_of_unloaded hloaded))
  | true =>
    refine simulates_of_loaded hloaded ?_
    exact simulates_bind_of_ok (createNFTByUser_eq exchanger owner royalty metaurl hloaded) h

/-- The second parse of the address' text succeeds as the first did. -/
theorem transferNFT_simulates {nftAddr : GoString} {newOwner : Address}
    (h : getNftAddressAndLevel nftAddr = .ok p) (φ : StateDB → StateDB) :
    Simulates false (write φ >>= fun _ => transferNFT K nftAddr newOwner) f
      (Core.transferNFT K.toHasher (φ f.db) nftAddr newOwner) := by
  obtain ⟨address, level⟩ := p
  unfold transferNFT Core.transferNFT
  rw [h]
  exact simulates_write_bind
    (simulates_writeOr (φ := (changeNFTOwner K.toHasher · address newOwner level)))

theorem exchangeNFTToCurrency_simulates {nftaddress : GoString}
    (h : getNftAddressAndLevel nftaddress = .ok p) :
    Simulates true (ignoreErr (exchangeNFTToCurrency K blocknumber caller nftaddress)) f
      (Res.ofOption (StateDB.exchangeNFTToCurrency K.toHasher f.db caller p.1 blocknumber p.2)) := by
  have hrun : exchangeNFTToCurrency K blocknumber caller nftaddress f =
      (deref >>= fun _ =>
        writeOr (StateDB.exchangeNFTToCurrency K.toHasher · caller p.1 blocknumber p.2)) f := by
    unfold exchangeNFTToCurrency
    rw [h]
    rfl
  cases hloaded : f.loaded with
  | false =>
    refine simulates_of_unloaded hloaded ?_
    unfold ignoreErr
    rw [hrun, deref_of_unloaded hloaded]
  | true =>
    refine simulates_of_loaded hloaded ?_
    unfold Simulates ignoreErr
    rw [hrun, deref_of_loaded hloaded]
    unfold writeOr
    cases hnew : StateDB.exchangeNFTToCurrency K.toHasher f.db caller p.1 blocknumber p.2 with
    | none => exact ⟨f, by simp only [hnew]⟩
    | some db => simp only [Res.ofOption, hnew, Bool.false_and, Bool.false_eq_true, if_false]

/-! ## Settlement -/

theorem handover_simulates :
    Simulates false
      (writeOr (·.addVoteWeight beneficiary amount) >>= fun _ =>
        writeOr (changeNFTOwner K.toHasher · nftAddress buyer level)) f
      (Res.ofOption (match f.db.addVoteWeight beneficiary amount with
        | none => none
        | some db => changeNFTOwner K.toHasher db nftAddress buyer level)) := by
  cases hweight : f.db.addVoteWeight beneficiary amount with
  | none =>
    have hrun : writeOr (·.addVoteWeight beneficiary amount) f = .error .panic f := by
      simp only [writeOr, hweight]
    exact ⟨f, bind_of_error hrun⟩
  | some db =>
    have hrun : writeOr (·.addVoteWeight beneficiary amount) f = .ok () { f with db := db } := by
      simp only [writeOr, hweight]
    exact simulates_bind_of_ok hrun
      (simulates_writeOr)

theorem settleSale_simulates {p : Sale} :
    Simulates false (settleSale K amount p) f (Res.ofOption (p.settle K.toHasher f.db amount)) := by
  refine simulates_read (simulates_read (simulates_read ?_))
  refine simulates_write_bind (simulates_write_bind (simulates_write_bind (simulates_write_bind ?_)))
  exact handover_simulates

/-- The test after the mint does not fail. -/
theorem settleMintSale_simulates {p : MintSale} :
    Simulates true (settleMintSale K w amount p) f
      (Res.ofOption (p.settle K.toHasher f.db w.seller2.metaURL amount)) := by
  refine createNFTByUser_simulates ?_
  refine simulates_bind_of_ok rfl (simulates_read ?_)
  refine simulates_write_bind (simulates_write_bind (simulates_write_bind ?_))
  exact handover_simulates

/-! ## Sales -/

theorem sell_simulates {checks : StateDB → Res Sale} :
    Simulates false (sell K amount checks) f (Core.sell K f.db amount (checks f.db)) :=
  simulates_examine fun _ _ => settleSale_simulates

theorem sellMinted_simulates {checks : StateDB → Res MintSale} :
    Simulates true (sellMinted K w amount checks) f (Core.sellMinted K f.db w amount (checks f.db)) :=
  simulates_examine fun _ _ => settleMintSale_simulates

theorem voteOfficialNFTByApprovedExchanger_simulates :
    Simulates true (voteOfficialNFTByApprovedExchanger K blocknumber caller w) f
      (Core.voteOfficialNFTByApprovedExchanger K f.db blocknumber caller w) := by
  refine simulates_check fun originalExchanger _ => ?_
  refine simulates_require fun _ => simulates_require fun _ => ?_
  refine simulates_check fun exchangerBlockNumber _ => simulates_require fun _ => ?_
  exact simulates_deref (r := some _) (simulates_read simulates_write)

/-! ## The handlers -/

/-- The types of payloads that mint for a user, put an NFT into the exchange pool or add to, or read,
the official pool. -/
def usesPools (kind : ℕ) : Bool := decide (kind ∈ [0, 6, 13, 16, 17, 19, 23, 24])

/-- A vote asks for the next index before it looks at the royalty. -/
theorem handleNFT_vote (htype : w.type = 23) (hloaded : f.loaded = false) :
    handleNFT K blocknumber caller recipient w amount f = .error .panic f := by
  unfold handleNFT
  rw [htype]
  exact deref_of_unloaded hloaded

/-- Every handler as the code runs it does what the function of the state says, and an error comes
with the frame as it was. -/
theorem handleNFT_simulates (h : w.type = 23 → f.loaded = true) :
    Simulates (usesPools w.type) (handleNFT K blocknumber caller recipient w amount) f
      (Core.handleNFT K f.db blocknumber caller recipient w amount) := by
  unfold handleNFT Core.handleNFT
  generalize w.type = kind at h ⊢
  split
  · refine simulates_check fun _ _ => simulates_check fun exchanger _ => ?_
    exact createNFTByUser_simulates (r := some _) rfl
  · refine simulates_check fun nft hnft => ?_
    obtain ⟨nftAddress, level⟩ := nft
    refine simulates_test fun _ => ?_
    exact transferNFT_simulates hnft _
  · refine simulates_test fun _ => simulates_check fun nft _ => ?_
    obtain ⟨nftAddress, level⟩ := nft
    refine simulates_require fun _ => simulates_test fun _ => ?_
    exact simulates_write
  · refine simulates_check fun nft _ => ?_
    obtain ⟨nftAddress, level⟩ := nft
    exact simulates_test fun _ => simulates_write
  · exact simulates_test fun _ => simulates_write
  · exact simulates_write
  · refine simulates_check fun nft hnft => ?_
    obtain ⟨nftAddress, level⟩ := nft
    refine simulates_require fun _ => simulates_test fun _ => ?_
    exact exchangeNFTToCurrency_simulates hnft
  · rfl
  · rfl
  · refine simulates_require fun _ => simulates_test fun _ => ?_
    exact simulates_write
  · refine simulates_test fun _ => ?_
    exact simulates_writeOr
  · refine simulates_require fun _ => simulates_require fun _ => simulates_require fun _ => ?_
    exact simulates_test fun _ => simulates_write
  · refine simulates_examine fun opened _ => simulates_require fun _ => ?_
    exact simulates_writeOr
  · exact simulates_require fun _ => simulates_check fun startIndex _ =>
      simulates_deref (r := some _) simulates_write
  · exact simulates_check fun _ _ => sell_simulates
  · exact simulates_check fun _ _ => sell_simulates
  · exact simulates_check fun _ _ => sellMinted_simulates
  · exact simulates_check fun _ _ => sellMinted_simulates
  · exact simulates_check fun _ _ => sell_simulates
  · exact simulates_check fun _ _ => sellMinted_simulates
  · exact simulates_check fun _ _ => sell_simulates
  · refine simulates_test fun _ => ?_
    exact simulates_writeOr
  · refine simulates_test fun _ => ?_
    exact simulates_writeOr
  · refine simulates_of_loaded (h rfl) ?_
    unfold Simulates
    rw [deref_of_loaded (h rfl)]
    exact simulates_read (simulates_check fun _ _ => simulates_write)
  · exact simulates_check fun _ _ => voteOfficialNFTByApprovedExchanger_simulates
  · refine simulates_test fun _ => ?_
    exact simulates_write_bind (r := some _) simulates_write
  · -- no other type is known to either side
    first
    | rfl
    | split <;> first | contradiction | rfl

/-! ## Calls -/

/-- A handler's error comes with the frame as it was. -/
theorem handleNFT_err
    (h : handleNFT K blocknumber caller recipient w amount f = .error (.err msg) g) : g = f := by
  by_cases hvote : w.type = 23 → f.loaded = true
  · have hsim : Simulates (usesPools w.type) (handleNFT K blocknumber caller recipient w amount) f _ :=
      handleNFT_simulates hvote
    unfold Simulates at hsim
    rw [h] at hsim
    split at hsim
    · split at hsim
      · obtain ⟨g', hg⟩ := hsim
        cases hg
      · cases hsim
    · cases hsim
      rfl
    · obtain ⟨g', hg⟩ := hsim
      cases hg
  · obtain ⟨htype, hloaded⟩ := Classical.not_imp.mp hvote
    rw [handleNFT_vote htype (Bool.eq_false_of_not_eq_true hloaded)] at h
    cases h

/-- The frame a call that returns leaves, with or without an error. -/
def left {α : Type} (r : EStateM.Result Stop Frame α) : Option Frame :=
  match r with
  | .ok _ g => some g
  | .error (.err _) g => some g
  | .error .panic _ => none

/-- The frame a handler leaves of `f`, by the handler as a function of the state. -/
def after (f : Frame) : Res StateDB → Option Frame
  | .ok db => some { f with db := db }
  | .err _ => some f
  | .panic => none

theorem Simulates.left_eq {m : Exec Unit} {r : Res StateDB} (h : Simulates needs m f r)
    (hneeds : needs = true → f.loaded = false → ∀ db, r ≠ .ok db) : left (m f) = after f r := by
  cases r with
  | ok db =>
    have hrun : m f = .ok () { f with db := db } := by
      refine (if_neg fun hunloaded => ?_).mp h
      obtain ⟨htrue, hfalse⟩ := Bool.and_eq_true_iff.mp hunloaded
      exact hneeds htrue (Bool.not_eq_true' _ ▸ hfalse) db rfl
    rw [hrun]
    rfl
  | err msg =>
    rw [show m f = _ from h]
    rfl
  | panic =>
    obtain ⟨g, hg⟩ := h
    rw [hg]
    rfl

theorem Simulates.left_eq_none {m : Exec Unit} {db : StateDB} (h : Simulates true m f (.ok db))
    (hloaded : f.loaded = false) : left (m f) = none := by
  have hpanic : ∃ g, m f = .error .panic g := by
    refine (if_pos ?_).mp h
    rw [hloaded]
    rfl
  obtain ⟨g, hg⟩ := hpanic
  rw [hg]
  rfl

/-- A call whose payload's handler returns an error returns, and leaves every account, every pool
and the gas as they were. -/
theorem call_failed_unchanged {noRecursion : Bool} {depth : ℕ} {msg : String} {g : Frame}
    (h : handleNFT K blocknumber caller recipient w amount { f with db := f.db.snapshot } =
      .error (.err msg) g) :
    ∃ f', left (call K blocknumber caller recipient amount noRecursion depth (.wormholes w) f) =
        some f' ∧
      f'.db.accounts = f.db.accounts ∧ f'.db.pools = f.db.pools ∧ f'.gas = f.gas := by
  unfold call
  split
  · exact ⟨f, rfl, rfl, rfl, rfl⟩
  next =>
    by_cases hdepth : depth ≤ callCreateDepth
    · have hread : read (·.canTransfer caller amount) f = .ok (f.db.canTransfer caller amount) f := rfl
      have hmark : write (·.snapshot) f = .ok () { f with db := f.db.snapshot } := rfl
      rw [bind_of_ok (require_of hdepth), bind_of_ok hread]
      by_cases hfunds : amount = 0 ∨ f.db.canTransfer caller amount = true
      · -- the handler fails with the frame it was given, which is `f` but for the snapshot's mark
        obtain rfl := handleNFT_err h
        rw [bind_of_ok (require_of hfunds), bind_of_ok hmark]
        exact ⟨_, congrArg left h, rfl, rfl, rfl⟩
      · rw [bind_of_error (require_of_not hfunds)]
        exact ⟨f, rfl, rfl, rfl, rfl⟩
    · rw [bind_of_error (require_of_not hdepth)]
      exact ⟨f, rfl, rfl, rfl, rfl⟩

/-- A genesis state in which the account 1 has funds. -/
def funded : StateDB := (Genesis.small [{ addr := 1, balance := 100, nonce := 0, code := [] }]).toState

/-- A sale with an order that is not signed. -/
theorem call_failed_unchanged_unsigned :
    handleNFT Crypto.trivial 7 1 2 (.bare 14) 5 ⟨funded.snapshot, 21000, true⟩ =
      .error (.err "signature must be started with 0x or 0X") ⟨funded.snapshot, 21000, true⟩ ∧
    ∃ f', left (call Crypto.trivial 7 1 2 5 false 0 (.wormholes (.bare 14)) ⟨funded, 21000, true⟩) =
        some f' ∧
      f'.db.accounts = funded.accounts ∧ f'.db.pools = funded.pools ∧ f'.gas = 21000 := by
  have hfails : handleNFT Crypto.trivial 7 1 2 (.bare 14) 5 ⟨funded.snapshot, 21000, true⟩ =
      .error (.err "signature must be started with 0x or 0X") ⟨funded.snapshot, 21000, true⟩ := rfl
  exact ⟨hfails, call_failed_unchanged (f := ⟨funded, 21000, true⟩) hfails⟩

/-- A call that is not nested too deep, by its payload. -/
theorem left_call {depth : ℕ} {input : CallInput} (hdepth : depth ≤ callCreateDepth) :
    left (call K blocknumber caller recipient amount false depth input f) =
      if amount ≠ 0 ∧ ¬ f.db.canTransfer caller amount then some f
      else match input with
        | .plain => some { f with db := f.db.snapshot.transfer caller recipient amount }
        | .malformed => some { f with db := f.db.snapshot }
        | .wormholes w =>
          left (handleNFT K blocknumber caller recipient w amount { f with db := f.db.snapshot }) := by
  have hread : read (·.canTransfer caller amount) f = .ok (f.db.canTransfer caller amount) f := rfl
  unfold call
  rw [if_neg (fun h => by cases h.1), bind_of_ok (require_of hdepth), bind_of_ok hread]
  by_cases hfunds : amount = 0 ∨ f.db.canTransfer caller amount = true
  · have hmark : write (·.snapshot) f = .ok () { f with db := f.db.snapshot } := rfl
    have hpaid : ¬ (amount ≠ 0 ∧ ¬ f.db.canTransfer caller amount = true) := by tauto
    rw [bind_of_ok (require_of hfunds), bind_of_ok hmark, if_neg hpaid]
    cases input <;> rfl
  · have hunpaid : amount ≠ 0 ∧ ¬ f.db.canTransfer caller amount = true := not_or.mp hfunds
    rw [bind_of_error (require_of_not hfunds), if_pos hunpaid]
    rfl

theorem left_handleNFT (hloaded : f.loaded = true) :
    left (handleNFT K blocknumber caller recipient w amount f) =
      after f (Core.handleNFT K f.db blocknumber caller recipient w amount) := by
  refine (handleNFT_simulates fun _ => hloaded).left_eq fun _ hunloaded => ?_
  rw [hloaded] at hunloaded
  cases hunloaded

/-- A call of the chain machine is the call as the code runs it, write by write: the same state after
a success or an error, and none after a panic. -/
theorem step_eq_call {c : Chain} {input : CallInput} {gas : ℕ} (depth : Fin (callCreateDepth + 1)) :
    Chain.step K (.call caller recipient input amount) c =
      (left (call K c.number caller recipient amount false depth input ⟨c.db, gas, true⟩)).map fun f =>
        if amount ≠ 0 ∧ ¬ c.db.canTransfer caller amount then c else c.entered f.db := by
  rw [left_call (Nat.lt_succ_iff.mp depth.isLt)]
  unfold Chain.step evmCall
  by_cases hunpaid : amount ≠ 0 ∧ ¬ c.db.canTransfer caller amount = true
  · simp only [if_pos hunpaid]
    rfl
  simp only [if_neg hunpaid]
  cases input with
  | plain => rfl
  | malformed => rfl
  | wormholes w =>
    dsimp only
    rw [left_handleNFT rfl]
    cases Core.handleNFT K c.db.snapshot c.number caller recipient w amount <;> rfl

/-! ## States without counters and pools -/

/-- A handler returns unless it panics as a function of the state, or goes through as one and finds
no counter or pool. A vote needs the official pool even to be refused. -/
theorem left_handleNFT_isSome_iff :
    (left (handleNFT K blocknumber caller recipient w amount f)).isSome ↔
      Core.handleNFT K f.db blocknumber caller recipient w amount ≠ .panic ∧
        (f.loaded = false → w.type ≠ 23 ∧ (usesPools w.type = true →
          ∀ db, Core.handleNFT K f.db blocknumber caller recipient w amount ≠ .ok db)) := by
  by_cases hvote : w.type = 23 → f.loaded = true
  · have hsim : Simulates (usesPools w.type) (handleNFT K blocknumber caller recipient w amount) f
        (Core.handleNFT K f.db blocknumber caller recipient w amount) := handleNFT_simulates hvote
    generalize Core.handleNFT K f.db blocknumber caller recipient w amount = r at hsim ⊢
    by_cases hneeds : usesPools w.type = true → f.loaded = false → ∀ db, r ≠ .ok db
    · rw [hsim.left_eq hneeds]
      have hreturns : (after f r).isSome ↔ r ≠ .panic := by cases r <;> simp [after]
      refine hreturns.trans (iff_self_and.mpr fun _ hunloaded => ⟨fun htype => ?_, fun huses => ?_⟩)
      · cases (hvote htype).symm.trans hunloaded
      · exact hneeds huses hunloaded
    · push Not at hneeds
      obtain ⟨huses, hunloaded, db, rfl⟩ := hneeds
      rw [huses] at hsim
      rw [hsim.left_eq_none hunloaded]
      exact iff_of_false Bool.false_ne_true fun h => (h.2 hunloaded).2 huses db rfl
  · obtain ⟨htype, hloaded⟩ := Classical.not_imp.mp hvote
    have hunloaded := Bool.eq_false_of_not_eq_true hloaded
    rw [handleNFT_vote htype hunloaded]
    exact iff_of_false Bool.false_ne_true fun h => (h.2 hunloaded).1 htype

/-- What a handler leaves does not depend on whether the counters and pools are there. -/
theorem after_of_left (h : left (handleNFT K blocknumber caller recipient w amount f) = some g) :
    after f (Core.handleNFT K f.db blocknumber caller recipient w amount) = some g := by
  have hreturns := left_handleNFT_isSome_iff.mp (Option.isSome_of_eq_some h)
  have hvote : w.type = 23 → f.loaded = true := fun htype => by
    by_contra hloaded
    exact (hreturns.2 (Bool.eq_false_of_not_eq_true hloaded)).1 htype
  rw [← h]
  exact ((handleNFT_simulates hvote).left_eq fun huses hunloaded =>
    (hreturns.2 hunloaded).2 huses).symm

end Wormholes.Core.Exec
