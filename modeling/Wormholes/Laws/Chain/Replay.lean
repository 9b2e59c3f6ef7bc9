import Wormholes.Laws.Chain.Funds
import Wormholes.Laws.Core.Signing

/-!
# Laws.Chain.Replay — orders that are carried out again

Nothing records that an order was carried out: an order can be submitted as long as it is live, that
is unexpired, its buyer able to pay or its seller in possession of the NFT. `Ledger` adds to a chain
the signed orders carried out so far, a history variable that reverts undo; `done_nodup` says that an
order is carried out once in a chain whose resubmitted orders are not live, and `done_twice` that a
live one is carried out again.
-/

namespace Wormholes

open Lib Common Core StateDB

variable {K : Crypto}

theorem live_of_snapshot {db : StateDB} {blocknumber : ℕ} {o : Order}
    (h : o.Live K db.snapshot blocknumber) : o.Live K db blocknumber := h

/-! ## The orders carried out -/

/-- A chain, the signed orders carried out and not undone, and those at each snapshot. -/
structure Ledger where
  chain : Chain
  done : List (GoString × GoString)
  saved : List (ℕ × List (GoString × GoString))

namespace Ledger

/-- The ledger of the first block. -/
def start (g : Genesis) : Ledger where
  chain := g.chain
  done := []
  saved := []

/-- The signed orders an operation carries out: those of a payload that succeeds, each once. -/
def carriedOut (K : Crypto) (c : Chain) (e : Event) : List (GoString × GoString) :=
  match e with
  | .call caller addr (.wormholes w) value =>
    if value ≠ 0 ∧ ¬ c.db.canTransfer caller value then []
    else
      match handleNFT K c.db.snapshot c.number caller addr w value with
      | .ok _ => ((orders w).map Order.signed).dedup
      | _ => []
  | _ => []

/-- Applies one operation to the chain and keeps the books: a revert goes back to what was done at
its snapshot. -/
def step (K : Crypto) (e : Event) (l : Ledger) : Option Ledger :=
  (Chain.step K e l.chain).map fun c =>
    match e with
    | .revert id =>
      let kept := l.saved.dropWhile fun r => decide (r.1 > id)
      { chain := c, done := (kept.head?.map Prod.snd).getD [], saved := kept.tail }
    | .finalise | .finalizeBlock _ => { chain := c, done := l.done, saved := [] }
    | e =>
      { chain := c
        done := carriedOut K l.chain e ++ l.done
        saved :=
          if c.saved.length > l.chain.saved.length then
            (l.chain.db.nextRevisionId, l.done) :: l.saved
          else l.saved }

/-- A payload's orders that were carried out before are not live any more. -/
def ResubmitsNoLive (K : Crypto) (l : Ledger) (e : Event) : Prop :=
  match e with
  | .call _ _ (.wormholes w) _ =>
    ∀ o ∈ orders w, o.signed ∈ l.done → ¬ o.Live K l.chain.db l.chain.number
  | _ => True

/-- No order is in the books twice, now or at a snapshot. -/
def Once (l : Ledger) : Prop := l.done.Nodup ∧ ∀ r ∈ l.saved, r.2.Nodup

/-- What is carried out is new where no live order is resubmitted. -/
theorem nodup_carriedOut {l : Ledger} {e : Event} (hok : ResubmitsNoLive K l e)
    (hdone : l.done.Nodup) : (carriedOut K l.chain e ++ l.done).Nodup := by
  unfold carriedOut
  split
  next caller addr w value =>
    split
    · exact hdone
    · split
      next db hdb =>
        refine List.nodup_append'.mpr ⟨List.nodup_dedup _, hdone, fun x hx hdone => ?_⟩
        obtain ⟨o, ho, rfl⟩ := List.mem_map.mp (List.mem_dedup.mp hx)
        exact hok o ho hdone (live_of_snapshot (handleNFT_orders hdb o ho).2)
      · exact hdone
  · exact hdone

theorem step_once {l l' : Ledger} {e : Event} (hl : l.Once) (hok : ResubmitsNoLive K l e)
    (h : step K e l = some l') : l'.Once := by
  obtain ⟨c, -, rfl⟩ := Option.map_eq_some_iff.mp h
  have hnew := nodup_carriedOut hok hl.1
  cases e with
  | revert id =>
    have hkept : ∀ r ∈ l.saved.dropWhile fun r => decide (r.1 > id), r.2.Nodup := fun r hr =>
      hl.2 r ((List.dropWhile_sublist _).subset hr)
    refine ⟨?_, fun r hr => hkept r (List.mem_of_mem_tail hr)⟩
    show (((l.saved.dropWhile fun r => decide (r.1 > id)).head?.map Prod.snd).getD []).Nodup
    cases hdrop : l.saved.dropWhile fun r => decide (r.1 > id) with
    | nil => exact List.nodup_nil
    | cons r rest => exact hkept r (by rw [hdrop]; exact List.mem_cons_self)
  | finalise | finalizeBlock => exact ⟨hl.1, fun r hr => by cases hr⟩
  | _ =>
    refine ⟨hnew, fun r hr => ?_⟩
    simp only at hr
    split_ifs at hr
    · rcases List.mem_cons.mp hr with rfl | hr
      · exact hl.1
      · exact hl.2 r hr
    · exact hl.2 r hr

end Ledger

/-- In every chain that resubmits no live order, no signed order is carried out twice. -/
theorem done_nodup {g : Genesis} {es : List Event} {l : Ledger}
    (hrun : Run (Ledger.step K) (Ledger.ResubmitsNoLive K) (.start g) es l) : l.done.Nodup :=
  (hrun.invariant (P := Ledger.Once) ⟨List.nodup_nil, fun r hr => by cases hr⟩ Ledger.step_once).1

/-! ## A sale that cannot and a mint that can be repeated -/

/-- The buyer accepts the owner's order. -/
def saleCall : Event := .call 0xb0 0xb0 (.wormholes saleTx) 100000

/-- The ledger after the owner's order was carried out. -/
def soldLedger : Option Ledger :=
  runAll (Ledger.step saleCrypto) (saleHistory 500 500 ++ [saleCall]) (.start saleGenesis)

/-- What the state says about the owner's order then: the NFT is gone and the price does not suffice to
buy it back. -/
theorem soldLedger_values :
    soldLedger.map (fun l => (l.done.length, getNFTOwner16 saleCrypto.toHasher l.chain.db 1,
      l.chain.db.getBalance 0x5e)) = some (1, 0xb0, 90000) := by
  decide +kernel

theorem not_live_of_sold {l : Ledger}
    (howner : getNFTOwner16 saleCrypto.toHasher l.chain.db 1 = 0xb0)
    (hbalance : l.chain.db.getBalance 0x5e = 90000) {o : Order} (ho : o ∈ orders saleTx) :
    ¬ o.Live saleCrypto l.chain.db l.chain.number := by
  have horders : orders saleTx = [.trade saleTx.seller1] := rfl
  rw [horders, List.mem_singleton] at ho
  subst ho
  rintro ⟨signer, hsig, -, hstill⟩
  have hrecovered : recoverAddress saleCrypto (Order.trade saleTx.seller1).message
      (Order.trade saleTx.seller1).sig = .ok 0x5e := by decide +kernel
  cases hrecovered.symm.trans hsig
  rcases hstill with ⟨r, hr, howns⟩ | ⟨n, hn, hpay⟩
  · have hnamed : nftOf saleTx.seller1.nftAddress = some (1, 0) := by decide
    cases hnamed.symm.trans hr
    rw [howner] at howns
    revert howns
    decide
  · have hprice : numberOf saleTx.seller1.amount = some 100000 := by decide
    cases hprice.symm.trans hn
    omega

/-- The owner's order is submitted again, and fails. -/
theorem done_nodup_sold :
    ∃ l, Run (Ledger.step saleCrypto) (Ledger.ResubmitsNoLive saleCrypto) (.start saleGenesis)
        (saleHistory 500 500 ++ [saleCall] ++ [saleCall]) l ∧ l.done.Nodup := by
  obtain ⟨l₁, hl₁, hvalues⟩ := Option.map_eq_some_iff.mp soldLedger_values
  simp only [Prod.mk.injEq] at hvalues
  obtain ⟨-, howner, hbalance⟩ := hvalues
  rw [soldLedger, runAll_append] at hl₁
  obtain ⟨l₀, hl₀, hsale⟩ := Option.bind_eq_some_iff.mp hl₁
  have hempty : (runAll (Ledger.step saleCrypto) (saleHistory 500 500) (.start saleGenesis)).map
      Ledger.done = some [] := by decide +kernel
  rw [hl₀, Option.map_some, Option.some.injEq] at hempty
  -- the payloads of the history carry no orders
  have hrun₀ : Run (Ledger.step saleCrypto) (Ledger.ResubmitsNoLive saleCrypto) (.start saleGenesis)
      (saleHistory 500 500) l₀ := by
    refine Run.of_runAll (fun u e he => ?_) hl₀
    simp only [saleHistory, List.mem_cons, List.not_mem_nil, or_false] at he
    rcases he with rfl | rfl | rfl <;> exact fun o ho => absurd ho List.not_mem_nil
  have hrun₁ : Run (Ledger.step saleCrypto) (Ledger.ResubmitsNoLive saleCrypto) (.start saleGenesis)
      (saleHistory 500 500 ++ [saleCall]) l₁ := by
    refine .snoc hrun₀ (fun o _ hdone => ?_) (by simpa [runAll] using hsale)
    rw [hempty] at hdone
    cases hdone
  have hagain : (soldLedger.bind (Ledger.step saleCrypto saleCall)).isSome := by decide +kernel
  have hsold : soldLedger = some l₁ := by rw [soldLedger, runAll_append]; exact hl₁
  rw [hsold] at hagain
  obtain ⟨l, hl⟩ := Option.isSome_iff_exists.mp hagain
  have hrun : Run (Ledger.step saleCrypto) (Ledger.ResubmitsNoLive saleCrypto) (.start saleGenesis)
      (saleHistory 500 500 ++ [saleCall] ++ [saleCall]) l :=
    .snoc hrun₁ (fun o ho _ => not_live_of_sold howner hbalance ho) hl
  exact ⟨l, hrun, done_nodup hrun⟩

/-- The first byte of a signature is its signer. -/
def byteCrypto : Crypto where
  keccak256 := fun _ => []
  sigToPub := fun _ sig => .ok (bigToAddress (sig.headD 0))

/-- An exchanger, a seller and a buyer. -/
def mintGenesis : Genesis :=
  .small [⟨0xe0, 200 * baseErb, [], 0⟩, ⟨0x5e, 0, [], 0⟩, ⟨0xb0, 1000, [], 0⟩]

/-- The exchanger matches a buyer's and a seller's order to mint over a hundred units. -/
def mintTx : WormholesTx :=
  { WormholesTx.bare 17 with
    buyer :=
      { amount := "0x64".toList
        nftAddress := []
        exchanger := "0x00000000000000000000000000000000000000e0".toList
        blockNumber := "0xff".toList
        seller := []
        sig := "0xb0".toList ++ List.replicate 126 '0' ++ "1b".toList }
    seller2 :=
      { amount := "0x64".toList
        royalty := "0x64".toList
        metaURL := "/ipfs/art".toList
        exclusiveFlag := "0".toList
        exchanger := "0x00000000000000000000000000000000000000e0".toList
        blockNumber := "0xff".toList
        sig := "0x5e".toList ++ List.replicate 126 '0' ++ "1b".toList } }

/-- The exchanger opens and submits the same two orders twice. -/
def mintTwice : List Event :=
  [.call 0xe0 0xe0 (.wormholes { WormholesTx.bare 11 with feeRate := 500 }) (100 * baseErb),
    .call 0xe0 0xb0 (.wormholes mintTx) 100, .finalise, .call 0xe0 0xb0 (.wormholes mintTx) 100, .finalise]

/-- Both times they are carried out, and the buyer pays twice. -/
theorem done_twice :
    ∃ (g : Genesis) (es : List Event) (l : Ledger) (x : GoString × GoString),
      Run (Ledger.step byteCrypto) (fun _ _ => True) (.start g) es l ∧ l.done.count x = 2 ∧
        g.chain.db.getBalance 0xb0 = 1000 ∧ l.chain.db.getBalance 0xb0 = 800 := by
  have hend : (runAll (Ledger.step byteCrypto) mintTwice (.start mintGenesis)).map (fun l =>
      (l.done.count (Order.mintBuyer mintTx.buyer).signed, l.chain.db.getBalance 0xb0)) =
        some (2, 800) := by
    decide +kernel
  obtain ⟨l, hl, hvalues⟩ := Option.map_eq_some_iff.mp hend
  simp only [Prod.mk.injEq] at hvalues
  exact ⟨mintGenesis, mintTwice, l, _, Run.of_runAll (fun _ _ _ => trivial) hl, hvalues.1,
    by decide +kernel, hvalues.2⟩

end Wormholes
