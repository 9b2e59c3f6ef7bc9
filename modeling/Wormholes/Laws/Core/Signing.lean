import Wormholes.Laws.Chain.Steps
import Wormholes.Laws.Common.Address
import Wormholes.Lib.Cuts

/-!
# Laws.Core.Signing — what a signed order's text determines

An order is signed as the plain concatenation of its fields. `orders` lists the orders a sale
carries, `Order.message` the text that is signed and `Order.reading` what the sale functions take
from it. A number begins with `0x` and has no other `x`, so numbers can be cut off at either end;
the other fields are not marked, and `reading_eq_of_aligned` says when two orders with one text are read
alike.
-/

namespace Wormholes.Core

open Common Lib

variable {s r z l l' r' : GoString} {n : ℤ} {vs : List ℕ} {c : Char} {p p' : Payload}

/-! ## Orders and their readings -/

/-- The orders that the seven sales check. -/
inductive Order where
  /-- An order of types 15 and 20. -/
  | trade (p : Payload)
  /-- A buyer's order of types 14 and 18, with the seller's name at its end. -/
  | buyer (p : Payload)
  /-- A buyer's order of types 17 and 19. -/
  | mintBuyer (p : Payload)
  /-- A seller's order of types 16, 17 and 19. -/
  | mintSeller (p : MintSellPayload)

/-- The orders a transaction carries, in the code's order. -/
def orders (w : WormholesTx) : List Order :=
  match w.type with
  | 14 | 18 => [.buyer w.buyer]
  | 15 => [.trade w.seller1]
  | 16 => [.mintSeller w.seller2]
  | 17 | 19 => [.mintBuyer w.buyer, .mintSeller w.seller2]
  | 20 => [.trade w.buyer, .trade w.seller1]
  | _ => []

namespace Order

/-- The text that is hashed and signed. -/
def message : Order → GoString
  | trade p => tradeMsg p
  | buyer p => buyerMsg p
  | mintBuyer p => mintBuyerMsg p
  | mintSeller p => mintSellerMsg p

def sig : Order → GoString
  | trade p | buyer p | mintBuyer p => p.sig
  | mintSeller p => p.sig

/-- The text together with its signature. -/
def signed (o : Order) : GoString × GoString := (o.message, o.sig)

end Order

/-- The number a text with a `0x` spells. -/
def numberOf (s : GoString) : Option ℤ := if has0xPrefix s then bigSetString (s.drop 2) else none

/-- The address and level an NFT text names. -/
def nftOf (s : GoString) : Option (Address × ℕ) :=
  match getNftAddressAndLevel s with
  | .ok r => some r
  | _ => none

/-- What a mint order says about the NFT to be minted. -/
structure MintReading where
  royalty : Option ℤ
  metaURL : GoString
  exclusiveFlag : GoString
deriving DecidableEq

/-- What the sale functions take from an order. -/
structure Reading where
  amount : Option ℤ
  nft : Option (Address × ℕ)
  exchanger : Address
  expiry : Option ℤ
  mint : Option MintReading
deriving DecidableEq

namespace Order

def reading : Order → Reading
  | trade p | buyer p =>
    { amount := numberOf p.amount, nft := nftOf p.nftAddress, exchanger := hexToAddress p.exchanger,
      expiry := numberOf p.blockNumber, mint := none }
  | mintBuyer p =>
    { amount := numberOf p.amount, nft := none, exchanger := hexToAddress p.exchanger,
      expiry := numberOf p.blockNumber, mint := none }
  | mintSeller p =>
    { amount := numberOf p.amount, nft := none, exchanger := hexToAddress p.exchanger,
      expiry := numberOf p.blockNumber
      mint := some { royalty := numberOf p.royalty, metaURL := p.metaURL,
                     exclusiveFlag := trimSpace p.exclusiveFlag } }

/-- The fields of two orders are cut from the text at the same places, as far as nothing in the text marks
them. Nothing marks the end of an NFT text, of an exchanger, of an amount before an exchanger, of a royalty,
of a meta URL or of a flag, and the expiry of a buyer's order may run on into the seller's name. -/
def Aligned : Order → Order → Prop
  | trade p, trade p' => p.nftAddress.length = p'.nftAddress.length
  | buyer p, buyer p' =>
    p.nftAddress.length = p'.nftAddress.length ∧ p.exchanger.length = p'.exchanger.length ∧
      p.blockNumber.length = p'.blockNumber.length
  | mintBuyer p, mintBuyer p' => p.amount.length = p'.amount.length
  | mintSeller p, mintSeller p' =>
    p.royalty.length = p'.royalty.length ∧ p.metaURL.length = p'.metaURL.length ∧
      p.exclusiveFlag.length = p'.exclusiveFlag.length
  | _, _ => False

/-- The part of it that readings show: of an exchanger and of the expiry before a name they show the value
only, which texts of different length can share. -/
def Shown : Order → Order → Prop
  | trade p, trade p' | buyer p, buyer p' => p.nftAddress.length = p'.nftAddress.length
  | mintBuyer p, mintBuyer p' => p.amount.length = p'.amount.length
  | mintSeller p, mintSeller p' =>
    p.royalty.length = p'.royalty.length ∧ p.metaURL.length = p'.metaURL.length
  | _, _ => False

/-- What the sale functions check of an order's texts. -/
def Readable : Order → Prop
  | trade p | buyer p =>
    (numberOf p.amount).isSome ∧ (nftOf p.nftAddress).isSome ∧ (numberOf p.blockNumber).isSome
  | mintBuyer p => (∃ n > 0, numberOf p.amount = some n) ∧ (numberOf p.blockNumber).isSome
  | mintSeller p =>
    (numberOf p.amount).isSome ∧ (∃ n > 0, numberOf p.royalty = some n) ∧
      (trimSpace p.exclusiveFlag = ['0'] ∨ trimSpace p.exclusiveFlag = ['1']) ∧
      (numberOf p.blockNumber).isSome

end Order

/-! ## Numbers -/

theorem parse0x_eq_ok {msg : String} : parse0x s msg = .ok n ↔ numberOf s = some n := by
  unfold parse0x numberOf
  by_cases hprefix : has0xPrefix s = true
  · rw [if_pos hprefix, if_pos hprefix]
    cases bigSetString (s.drop 2) with
    | none => exact ⟨fun h => (by cases h), fun h => (by cases h)⟩
    | some m => exact ⟨fun h => congrArg some (Res.ok.inj h), fun h => congrArg Res.ok (Option.some.inj h)⟩
  · rw [if_neg hprefix, if_neg hprefix]
    exact ⟨fun h => (by cases h), fun h => (by cases h)⟩

/-- The letter after the zero of a prefix. -/
def IsX (c : Char) : Prop := c = 'x' ∨ c = 'X'

theorem startsTagged_of_has0xPrefix (h : has0xPrefix s = true) : StartsTagged IsX s := by
  obtain ⟨m, ds, rfl, hm⟩ := exists_of_has0xPrefix h
  exact ⟨'0', m, ds, rfl, by simp [IsX], hm⟩

/-- A sign, or none, before the digits of a number. -/
def sign : List GoString := [[], ['+'], ['-']]

theorem cast_eq_some {x : Option ℕ} {v : ℤ} :
    (do let a ← x; pure (a : ℤ)) = some v ↔ ∃ n, x = some n ∧ v = n := by
  cases x with
  | none => simp
  | some n => simp [eq_comm]

theorem bigSetString_inv (h : bigSetString s = some n) :
    ∃ σ ds v, s = σ ++ ds ∧ σ ∈ sign ∧ parseDigits ds = some v ∧
      n = if σ = ['-'] then -(v : ℤ) else (v : ℤ) := by
  unfold bigSetString at h
  split at h
  next ds =>
    obtain ⟨m, hm, rfl⟩ := Option.map_eq_some_iff.mp h
    obtain ⟨v, hv, rfl⟩ := cast_eq_some.mp hm
    exact ⟨['-'], ds, v, rfl, by simp [sign], hv, by simp⟩
  next ds =>
    obtain ⟨m, hm, rfl⟩ := Option.map_eq_some_iff.mp h
    obtain ⟨v, hv, rfl⟩ := cast_eq_some.mp hm
    exact ⟨['+'], ds, v, rfl, by simp [sign], hv, by simp⟩
  next =>
    obtain ⟨m, hm, rfl⟩ := Option.map_eq_some_iff.mp h
    obtain ⟨v, hv, rfl⟩ := cast_eq_some.mp hm
    exact ⟨[], _, v, rfl, by simp [sign], hv, by simp⟩

theorem mapM_spells (h : s.mapM fromHexChar = some vs) : Spells s vs := by
  induction s generalizing vs with
  | nil =>
    cases h
    rfl
  | cons c s ih =>
    rw [List.mapM_cons] at h
    obtain ⟨d, hd, h⟩ := Option.bind_eq_some_iff.mp h
    obtain ⟨ds, hds, h⟩ := Option.bind_eq_some_iff.mp h
    cases h
    exact Spells.cons hd (ih hds)

theorem parseDigits_inv {n : ℕ} (h : parseDigits s = some n) :
    s ≠ [] ∧ ∃ vs, Spells s vs ∧ n = ofDigitsBE 16 vs := by
  unfold parseDigits at h
  split at h
  · cases h
  next hne =>
    obtain ⟨vs, hvs, rfl⟩ := Option.map_eq_some_iff.mp h
    exact ⟨hne, vs, mapM_spells hvs, rfl⟩

/-- A digit is none of the letters that may stand before digits. -/
theorem ne_of_digit {e : Char} {d : ℕ} (h : fromHexChar c = some d) (he : fromHexChar e = none) :
    c ≠ e := by
  rintro rfl
  rw [he] at h
  cases h

theorem not_isX_of_spells (h : Spells s vs) (hc : c ∈ s) : ¬ IsX c := by
  obtain ⟨d, hd⟩ := h.digit_of_mem hc
  exact not_or.mpr ⟨ne_of_digit hd (by decide), ne_of_digit hd (by decide)⟩

/-- A number's text has one `x`, after its zero. -/
theorem tagged_of_numberOf (h : (numberOf s).isSome) : Tagged IsX s := by
  obtain ⟨n, hn⟩ := Option.isSome_iff_exists.mp h
  unfold numberOf at hn
  split at hn
  next hprefix =>
    obtain ⟨m, rest, rfl, hm⟩ := exists_of_has0xPrefix hprefix
    obtain ⟨σ, ds, v, hrest, hσ, hv, -⟩ := bigSetString_inv hn
    obtain ⟨-, vs, hvs, -⟩ := parseDigits_inv hv
    simp only [List.drop_succ_cons, List.drop_zero] at hrest
    refine ⟨'0', m, rest, rfl, by simp [IsX], hm, fun c hc => ?_⟩
    rw [hrest, List.mem_append] at hc
    rcases hc with hc | hc
    · simp only [sign, List.mem_cons, List.not_mem_nil, or_false] at hσ
      rcases hσ with rfl | rfl | rfl
      · cases hc
      · obtain rfl := List.mem_singleton.mp hc
        simp [IsX]
      · obtain rfl := List.mem_singleton.mp hc
        simp [IsX]
    · exact not_isX_of_spells hvs hc
  · cases hn

theorem startsTagged_of_nftOf (h : (nftOf s).isSome) : StartsTagged IsX s := by
  refine startsTagged_of_has0xPrefix ?_
  unfold nftOf getNftAddressAndLevel at h
  by_contra hprefix
  by_cases hlong : s.length > 42
  · simp [hlong] at h
  · simp [hlong, hprefix] at h

/-- The level an NFT text names says how long it is. -/
theorem length_of_nftOf {r : Address × ℕ} (h : nftOf s = some r) : s.length + r.2 = 42 := by
  unfold nftOf getNftAddressAndLevel at h
  by_cases hlong : s.length > 42
  · simp [hlong] at h
  · by_cases hprefix : has0xPrefix s = true
    · simp only [hlong, hprefix, if_true, if_false, Option.some.injEq] at h
      rw [← h]
      simp only
      omega
    · simp [hlong, hprefix] at h

/-- Reading on after a text of digits goes on with its value. -/
theorem parseDigits_append {v v' : ℕ} (hs : parseDigits s = some v)
    (hsz : parseDigits (s ++ z) = some v') : ∃ e, v' = v * 16 ^ z.length + e := by
  obtain ⟨-, vs, hvs, rfl⟩ := parseDigits_inv hs
  obtain ⟨-, ws, hws, rfl⟩ := parseDigits_inv hsz
  have htake := hws.take s.length
  rw [List.take_left] at htake
  have hpre : vs = ws.take s.length :=
    List.map_injective_iff.mpr (Option.some_injective ℕ) (hvs.symm.trans htake)
  have hrest := (hws.drop s.length).length_eq
  rw [List.drop_left] at hrest
  refine ⟨ofDigitsBE 16 (ws.drop s.length), ?_⟩
  rw [hpre, hrest, ← ofDigitsBE_append, List.take_append_drop]

/-- The sign of a number is read before anything that follows. -/
theorem sign_eq {σ σ' ds ds' : GoString} {vs' : List ℕ} (hσ : σ ∈ sign) (hσ' : σ' ∈ sign)
    (hne : ds ≠ []) (hds : Spells ds vs) (hds' : Spells ds' vs') (h : σ ++ ds ++ z = σ' ++ ds') :
    σ = σ' := by
  have hhead : ∀ {t : GoString} {us : List ℕ} {c : Char} {r : GoString}, Spells t us → t = c :: r →
      c ≠ '+' ∧ c ≠ '-' := by
    rintro t us c r ht rfl
    obtain ⟨d, hd⟩ := ht.digit_of_mem List.mem_cons_self
    exact ⟨ne_of_digit hd (by decide), ne_of_digit hd (by decide)⟩
  obtain ⟨c, r, rfl⟩ := List.exists_cons_of_ne_nil hne
  obtain ⟨hplus, hminus⟩ := hhead hds rfl
  simp only [sign, List.mem_cons, List.not_mem_nil, or_false] at hσ hσ'
  rcases hσ with rfl | rfl | rfl <;> rcases hσ' with rfl | rfl | rfl <;>
    simp only [List.nil_append, List.cons_append, List.cons.injEq] at h
  · rfl
  · exact absurd h.1 hplus
  · exact absurd h.1 hminus
  · exact absurd rfl (hhead hds' h.symm).1
  · rfl
  · exact absurd h.1 (by decide)
  · exact absurd rfl (hhead hds' h.symm).2
  · exact absurd h.1 (by decide)
  · rfl

/-- More digits after a positive number make a greater one. -/
theorem numberOf_append_inj (hn : 0 < n) (hs : numberOf s = some n)
    (hsz : numberOf (s ++ z) = some n) : z = [] := by
  unfold numberOf at hs hsz
  split at hs
  next hprefix =>
    obtain ⟨m, rest, rfl, -⟩ := exists_of_has0xPrefix hprefix
    split at hsz
    · simp only [List.cons_append, List.drop_succ_cons, List.drop_zero] at hs hsz
      obtain ⟨σ, ds, v, rfl, hσ, hv, hnv⟩ := bigSetString_inv hs
      obtain ⟨σ', ds', v', heq, hσ', hv', hnv'⟩ := bigSetString_inv hsz
      obtain ⟨hne, vs, hvs, -⟩ := parseDigits_inv hv
      obtain ⟨-, vs', hvs', -⟩ := parseDigits_inv hv'
      obtain rfl := sign_eq hσ hσ' hne hvs hvs' heq
      rw [List.append_assoc] at heq
      obtain rfl := List.append_cancel_left heq
      obtain ⟨e, rfl⟩ := parseDigits_append hv hv'
      by_contra hz
      have hlen : 1 ≤ z.length := List.length_pos_of_ne_nil hz
      have hpow : 16 ≤ 16 ^ z.length := by
        calc 16 = 16 ^ 1 := rfl
          _ ≤ 16 ^ z.length := Nat.pow_le_pow_right (by decide) hlen
      have hvv : v = v * 16 ^ z.length + e := by
        split at hnv <;> omega
      have hv0 : 0 < v := by
        split at hnv <;> omega
      nlinarith
    · cases hsz
  · cases hs

/-! ## Live orders -/

/-- The account named by a signature can pay the amount a text says. -/
def CanPay (db : StateDB) (amount : GoString) (a : Address) : Prop :=
  ∃ n, numberOf amount = some n ∧ n ≤ db.getBalance a

/-- The account owns the NFT a text names. -/
def OwnsNamed (K : Crypto) (db : StateDB) (text : GoString) (a : Address) : Prop :=
  ∃ r, nftOf text = some r ∧ StateDB.getNFTOwner16 K.toHasher db r.1 = a

/-- What the state still says for an order: it has not expired, and its signer can pay or, for a
seller's order of types 15 and 20, owns the NFT. A seller's order to mint depends on nothing else. -/
def Order.Live (K : Crypto) (db : StateDB) (blocknumber : ℕ) (o : Order) : Prop :=
  ∃ signer, recoverAddress K o.message o.sig = .ok signer ∧
    match o with
    | .trade p =>
      Unexpired blocknumber p.blockNumber ∧
        (OwnsNamed K db p.nftAddress signer ∨ CanPay db p.amount signer)
    | .buyer p | .mintBuyer p => Unexpired blocknumber p.blockNumber ∧ CanPay db p.amount signer
    | .mintSeller p => Unexpired blocknumber p.blockNumber

/-! ## Accepted orders -/

section Accepted

variable {K : Crypto} {db t : StateDB} {blocknumber : ℕ} {caller addr : Address} {w : WormholesTx}
  {value : ℕ}

theorem nftOf_of_ok {text : GoString} {r : Address × ℕ} (h : getNftAddressAndLevel text = .ok r) :
    nftOf text = some r := by
  simp [nftOf, h]

theorem canPay_of_value {amount : GoString} {a : Address} (hn : numberOf amount = some n)
    (hvalue : (value : ℤ) = n) (hfunds : db.getBalance a ≥ value) : CanPay db amount a :=
  ⟨n, hn, hvalue ▸ hfunds⟩

theorem unexpired_of_number {text : GoString} (hn : numberOf text = some n)
    (h : (blocknumber : ℤ) ≤ n) : Unexpired blocknumber text :=
  ⟨"", n, parse0x_eq_ok.mpr hn, h⟩

/-- An order's texts that the sales of an existing NFT read. -/
theorem texts_readable {m : ℤ} {r : Address × ℕ} (hn : numberOf p.amount = some n)
    (hr : getNftAddressAndLevel p.nftAddress = .ok r) (hm : numberOf p.blockNumber = some m) :
    (numberOf p.amount).isSome ∧ (nftOf p.nftAddress).isSome ∧ (numberOf p.blockNumber).isSome :=
  ⟨Option.isSome_of_eq_some hn, Option.isSome_of_eq_some (nftOf_of_ok hr),
    Option.isSome_of_eq_some hm⟩

theorem mintTerms_readable {exchanger : Address} {r : ℕ × Address} {m : ℤ}
    (h : mintTerms w exchanger = .ok r) (hn : numberOf w.seller2.amount = some n)
    (hm : numberOf w.seller2.blockNumber = some m) : (Order.mintSeller w.seller2).Readable := by
  simp only [mintTerms, Res.bind_eq_ok, Res.require_eq_ok, parse0x_eq_ok] at h
  obtain ⟨n', hn', -, ⟨hpos, -⟩, -, hflag, -⟩ := h
  exact ⟨Option.isSome_of_eq_some hn, ⟨n', hpos, hn'⟩, hflag, Option.isSome_of_eq_some hm⟩

theorem mintAmounts_inv (hvalue : 0 < value) (h : mintAmounts w value = .ok ()) :
    ∃ n > 0, numberOf w.buyer.amount = some n ∧ (value : ℤ) = n ∧
      ∃ m, numberOf w.seller2.amount = some m := by
  simp only [mintAmounts, Res.bind_eq_ok, Res.require_eq_ok, parse0x_eq_ok] at h
  obtain ⟨n, hn, m, hm, rfl, -⟩ := h
  exact ⟨value, by exact_mod_cast hvalue, hn, rfl, m, hm⟩

/-- A sale that succeeds has read every order it carries, and these are live. -/
theorem handleNFT_orders (h : handleNFT K db blocknumber caller addr w value = .ok t) :
    ∀ o ∈ orders w, o.Readable ∧ o.Live K db blocknumber := by
  unfold handleNFT at h
  unfold orders
  split at h <;> rename_i htype <;> simp only [htype, List.not_mem_nil, false_imp_iff, implies_true,
    List.mem_cons, or_false, forall_eq_or_imp, forall_eq]
  all_goals simp only [Res.bind_assoc, Res.ok_bind, Res.bind_eq_ok, checkValue, Res.require_eq_ok,
    parse0x_eq_ok, sell, sellMinted, buyNFTBySellerOrExchanger, buyNFTBySellerOrExchangerChecks,
    buyNFTByBuyer, buyNFTByBuyerChecks, buyAndMintNFTByBuyer, buyAndMintNFTByBuyerChecks,
    buyAndMintNFTByExchanger, buyAndMintNFTByExchangerChecks, buyNFTByApproveExchanger,
    buyNFTByApproveExchangerChecks, buyAndMintNFTByApprovedExchanger,
    buyAndMintNFTByApprovedExchangerChecks, buyNFTByExchanger, buyNFTByExchangerChecks] at h
  · obtain ⟨-, -, buyer, hsig, bn, hbn, -, hlive, -, -, n, hn, -, hvalue, r, hr, -, -, -, hfunds, -⟩ := h
    exact ⟨texts_readable hn hr hbn, buyer, hsig, unexpired_of_number hbn hlive,
      canPay_of_value hn hvalue hfunds⟩
  · obtain ⟨-, -, seller, hsig, bn, hbn, -, hlive, r, hr, -, -, -, howner, n, hn, -⟩ := h
    exact ⟨texts_readable hn hr hbn, seller, hsig, unexpired_of_number hbn hlive,
      Or.inl ⟨r, nftOf_of_ok hr, howner⟩⟩
  · obtain ⟨-, -, seller, hsig, bn, hbn, -, hlive, n, hn, -, -, -, -, r, hr, -⟩ := h
    exact ⟨mintTerms_readable hr hn hbn, seller, hsig, unexpired_of_number hbn hlive⟩
  · obtain ⟨-, hpos, buyer, hsig, seller, hsig', -, -, bn, hbn, -, hlive, bn', hbn', -, hlive', ⟨⟩,
      hamounts, -, hfunds, -, -, -, -, r, hr, -⟩ := h
    obtain ⟨n, hn0, hn, hvalue, m, hm⟩ := mintAmounts_inv hpos hamounts
    exact ⟨⟨⟨⟨n, hn0, hn⟩, Option.isSome_of_eq_some hbn⟩, buyer, hsig, unexpired_of_number hbn hlive,
      canPay_of_value hn hvalue hfunds⟩, mintTerms_readable hr hm hbn', seller, hsig',
      unexpired_of_number hbn' hlive'⟩
  · obtain ⟨-, -, buyer, hsig, exchanger, -, bn, hbn, -, hlive, -, -, -, -, -, -, -, -, n, hn, -, hvalue, r,
      hr, -, -, -, hfunds, -⟩ := h
    exact ⟨texts_readable hn hr hbn, buyer, hsig, unexpired_of_number hbn hlive,
      canPay_of_value hn hvalue hfunds⟩
  · obtain ⟨-, hpos, buyer, hsig, seller, hsig', exchanger, -, -, -, -, -, bn, hbn, -, hlive, bn', hbn', -,
      hlive', -, -, -, -, ⟨⟩, hamounts, -, hfunds, -, -, -, -, r, hr, -⟩ := h
    obtain ⟨n, hn0, hn, hvalue, m, hm⟩ := mintAmounts_inv hpos hamounts
    exact ⟨⟨⟨⟨n, hn0, hn⟩, Option.isSome_of_eq_some hbn⟩, buyer, hsig, unexpired_of_number hbn hlive,
      canPay_of_value hn hvalue hfunds⟩, mintTerms_readable hr hm hbn', seller, hsig',
      unexpired_of_number hbn' hlive'⟩
  · obtain ⟨-, -, buyer, hsig, seller, hsig', bn, hbn, -, hlive, bn', hbn', -, hlive', -, -, n, hn, -, hvalue,
      n', hn', -, -, r, hr, r', hr', -, -, -, -, -, hfunds, -, howner, -⟩ := h
    exact ⟨⟨texts_readable hn hr hbn, buyer, hsig, unexpired_of_number hbn hlive,
      Or.inr (canPay_of_value hn hvalue hfunds)⟩, texts_readable hn' hr' hbn', seller, hsig',
      unexpired_of_number hbn' hlive', Or.inl ⟨r', nftOf_of_ok hr', howner⟩⟩

end Accepted

/-! ## Equal texts -/

/-- Numbers at the end of equal texts are equal. -/
theorem number_suffix_inj (hr : (numberOf r).isSome) (hr' : (numberOf r').isSome)
    (h : l ++ r = l' ++ r') : l = l' ∧ r = r' :=
  (tagged_of_numberOf hr).append_right_inj (tagged_of_numberOf hr') h

/-- Numbers before a text with a `0x` are equal where the whole texts are. -/
theorem number_prefix_inj (hl : (numberOf l).isSome) (hl' : (numberOf l').isSome)
    (hr : StartsTagged IsX r) (hr' : StartsTagged IsX r') (h : l ++ r = l' ++ r') :
    l = l' ∧ r = r' :=
  (tagged_of_numberOf hl).append_left_inj (tagged_of_numberOf hl') hr hr' h

theorem startsTagged_append (h : StartsTagged IsX s) (r : GoString) :
    StartsTagged IsX (s ++ r) := by
  obtain ⟨a, m, ds, rfl, ha, hm⟩ := h
  exact ⟨a, m, ds ++ r, rfl, ha, hm⟩

/-- Positive numbers at the beginning of equal texts are equal exactly if they are equally long. -/
theorem number_eq_iff_length (hl : ∃ n > 0, numberOf l = some n)
    (hl' : ∃ n > 0, numberOf l' = some n) (h : l ++ r = l' ++ r') :
    numberOf l = numberOf l' ↔ l.length = l'.length := by
  constructor
  · intro hnumber
    obtain ⟨n, hn, hln⟩ := hl
    obtain ⟨n', hn', hln'⟩ := hl'
    rcases List.append_eq_append_iff.mp h with ⟨z, rfl, -⟩ | ⟨z, rfl, -⟩
    · obtain rfl := numberOf_append_inj hn hln (hnumber ▸ hln)
      simp
    · obtain rfl := numberOf_append_inj hn' hln' (hnumber.symm ▸ hln')
      simp
  · intro hlength
    rw [(List.append_inj h hlength).1]

namespace Order

/-- The NFT texts of readable orders decide, once the amounts are cut off. -/
theorem nft_eq_iff_length (hp : (nftOf p.nftAddress).isSome)
    (h : p.nftAddress ++ r = p'.nftAddress ++ r') :
    nftOf p.nftAddress = nftOf p'.nftAddress ↔ p.nftAddress.length = p'.nftAddress.length := by
  constructor
  · intro hnft
    obtain ⟨a, ha⟩ := Option.isSome_iff_exists.mp hp
    have hlen := length_of_nftOf ha
    have hlen' := length_of_nftOf (hnft ▸ ha)
    omega
  · intro hlength
    rw [(List.append_inj h hlength).1]

theorem trade_reading (hp : (trade p).Readable) (hp' : (trade p').Readable)
    (h : tradeMsg p = tradeMsg p') :
    ((trade p).Aligned (trade p') → (trade p).reading = (trade p').reading) ∧
      ((trade p).reading = (trade p').reading → (trade p).Shown (trade p')) := by
  obtain ⟨hamount, hnft, hblock⟩ := hp
  obtain ⟨hamount', hnft', hblock'⟩ := hp'
  unfold tradeMsg at h
  obtain ⟨h, hblocks⟩ := number_suffix_inj hblock hblock' h
  rw [List.append_assoc, List.append_assoc] at h
  obtain ⟨hamounts, h⟩ := number_prefix_inj hamount hamount'
    (startsTagged_append (startsTagged_of_nftOf hnft) _)
    (startsTagged_append (startsTagged_of_nftOf hnft') _) h
  have hiff := nft_eq_iff_length hnft h
  constructor
  · intro hlength
    have hexchanger := (List.append_inj h hlength).2
    simp only [reading, hamounts, hblocks, hiff.mpr hlength, hexchanger]
  · intro hreading
    exact hiff.mp (congrArg Reading.nft hreading)

theorem buyer_reading (hp : (buyer p).Readable) (hp' : (buyer p').Readable)
    (h : buyerMsg p = buyerMsg p') :
    ((buyer p).Aligned (buyer p') → (buyer p).reading = (buyer p').reading) ∧
      ((buyer p).reading = (buyer p').reading → (buyer p).Shown (buyer p')) := by
  obtain ⟨hamount, hnft, -⟩ := hp
  obtain ⟨hamount', hnft', -⟩ := hp'
  unfold buyerMsg at h
  simp only [List.append_assoc] at h
  obtain ⟨hamounts, h⟩ := number_prefix_inj hamount hamount'
    (startsTagged_append (startsTagged_of_nftOf hnft) _)
    (startsTagged_append (startsTagged_of_nftOf hnft') _) h
  have hiff := nft_eq_iff_length hnft h
  constructor
  · rintro ⟨hlength, hexchanger, hexpiry⟩
    obtain ⟨hexchangers, h⟩ := List.append_inj (List.append_inj h hlength).2 hexchanger
    have hblocks := (List.append_inj h hexpiry).1
    simp only [reading, hamounts, hiff.mpr hlength, hexchangers, hblocks]
  · intro hreading
    exact hiff.mp (congrArg Reading.nft hreading)

theorem mintBuyer_reading (hp : (mintBuyer p).Readable) (hp' : (mintBuyer p').Readable)
    (h : mintBuyerMsg p = mintBuyerMsg p') :
    ((mintBuyer p).Aligned (mintBuyer p') → (mintBuyer p).reading = (mintBuyer p').reading) ∧
      ((mintBuyer p).reading = (mintBuyer p').reading → (mintBuyer p).Shown (mintBuyer p')) := by
  obtain ⟨hamount, hblock⟩ := hp
  obtain ⟨hamount', hblock'⟩ := hp'
  unfold mintBuyerMsg at h
  obtain ⟨h, hblocks⟩ := number_suffix_inj hblock hblock' h
  have hiff := number_eq_iff_length hamount hamount' h
  constructor
  · intro hlength
    have hexchanger := (List.append_inj h hlength).2
    simp only [reading, hblocks, hiff.mpr hlength, hexchanger]
  · intro hreading
    exact hiff.mp (congrArg Reading.amount hreading)

theorem mintSeller_reading {p p' : MintSellPayload} (hp : (mintSeller p).Readable)
    (hp' : (mintSeller p').Readable) (h : mintSellerMsg p = mintSellerMsg p') :
    ((mintSeller p).Aligned (mintSeller p') → (mintSeller p).reading = (mintSeller p').reading) ∧
      ((mintSeller p).reading = (mintSeller p').reading → (mintSeller p).Shown (mintSeller p')) := by
  obtain ⟨hamount, hroyalty, -, hblock⟩ := hp
  obtain ⟨hamount', hroyalty', -, hblock'⟩ := hp'
  unfold mintSellerMsg at h
  obtain ⟨h, hblocks⟩ := number_suffix_inj hblock hblock' h
  have hmark : ∀ {r z : GoString}, (∃ n > 0, numberOf r = some n) → StartsTagged IsX (r ++ z) := by
    rintro r z ⟨n, -, hn⟩
    exact startsTagged_append (tagged_of_numberOf (by rw [hn]; rfl)).starts z
  simp only [List.append_assoc] at h
  obtain ⟨hamounts, h⟩ := number_prefix_inj hamount hamount' (hmark hroyalty) (hmark hroyalty') h
  have hiff := number_eq_iff_length hroyalty hroyalty' h
  constructor
  · rintro ⟨hlength, hmeta, hflags⟩
    obtain ⟨hmetas, h⟩ := List.append_inj (List.append_inj h hlength).2 hmeta
    obtain ⟨hflags, hexchangers⟩ := List.append_inj h hflags
    simp only [reading, hamounts, hblocks, hiff.mpr hlength, hmetas, hexchangers, hflags]
  · intro hreading
    have hmint := congrArg Reading.mint hreading
    simp only [reading, Option.some.injEq, MintReading.mk.injEq] at hmint
    exact ⟨hiff.mp hmint.1, congrArg List.length hmint.2.1⟩

end Order

/-! ## The readings of one text -/

section Readings

variable {K : Crypto} {db db' t t' : StateDB} {blocknumber blocknumber' : ℕ}
  {caller caller' addr addr' : Address} {w w' : WormholesTx} {value value' : ℕ}

/-- Two accepted sales of one type have orders at one place that are signed over the same text. If the texts
are cut at the same places the sales read the same from them; and if they do, the texts are cut at the same
places as far as readings show it. -/
theorem reading_eq_of_aligned (h : handleNFT K db blocknumber caller addr w value = .ok t)
    (h' : handleNFT K db' blocknumber' caller' addr' w' value' = .ok t') (htype : w.type = w'.type)
    {i : ℕ} {o o' : Order} (ho : (orders w)[i]? = some o) (ho' : (orders w')[i]? = some o')
    (hmessage : o.message = o'.message) :
    (o.Aligned o' → o.reading = o'.reading) ∧ (o.reading = o'.reading → o.Shown o') := by
  have hread := (handleNFT_orders h o (List.mem_of_getElem? ho)).1
  have hread' := (handleNFT_orders h' o' (List.mem_of_getElem? ho')).1
  -- orders at one place of one type are of one kind
  unfold orders at ho ho'
  rw [← htype] at ho'
  split at ho
  case h_8 => simp at ho
  all_goals
    rename_i hk
    simp only [hk] at ho'
    rcases i with _ | _ | i <;>
      simp only [List.getElem?_cons_zero, List.getElem?_cons_succ, List.getElem?_nil, Option.some.injEq,
        reduceCtorEq] at ho ho'
  all_goals subst ho ho'
  all_goals
    first
    | exact Order.trade_reading hread hread' hmessage
    | exact Order.buyer_reading hread hread' hmessage
    | exact Order.mintBuyer_reading hread hread' hmessage
    | exact Order.mintSeller_reading hread hread' hmessage

/-- A seller's order to mint over the text `0x10x645ab00x…e00xff`. -/
def cutOrder (royalty metaURL : GoString) : WormholesTx :=
  { WormholesTx.bare 16 with
    seller2 :=
      { amount := "0x1".toList
        royalty := royalty
        metaURL := metaURL
        exclusiveFlag := "0".toList
        exchanger := "0x00000000000000000000000000000000000000e0".toList
        blockNumber := "0xff".toList
        sig := "0x".toList ++ List.replicate 128 '0' ++ "1b".toList } }

/-- An exchanger and a buyer. -/
def cutChain : Chain := (Genesis.small [⟨0xe0, 0, [], 0⟩, ⟨0xb0, 1, [], 0⟩]).chain

/-- Every signature is that of one seller. -/
def cutCrypto : Crypto where
  keccak256 := fun _ => []
  sigToPub := fun _ _ => .ok 0x5e

/-- What a sale of the order comes to. -/
def cutSale (royalty metaURL : GoString) : Res StateDB :=
  handleNFT cutCrypto cutChain.db cutChain.number 0xb0 0xb0 (cutOrder royalty metaURL) 1

/-- A royalty of `0x64` and a URL of `5ab` are signed like a royalty of `0x645` and a URL of `ab`,
and both orders are accepted. -/
theorem reading_ambiguous :
    ∃ (K : Crypto) (db t t' : StateDB) (blocknumber value : ℕ) (caller addr : Address)
      (w w' : WormholesTx) (o o' : Order),
      handleNFT K db blocknumber caller addr w value = .ok t ∧
        handleNFT K db blocknumber caller addr w' value = .ok t' ∧ w.type = w'.type ∧
          (orders w)[0]? = some o ∧ (orders w')[0]? = some o' ∧ o.message = o'.message ∧
            o.reading ≠ o'.reading := by
  obtain ⟨t, ht⟩ : ∃ t, cutSale "0x64".toList "5ab".toList = .ok t :=
    Res.exists_of_isOk (by decide +kernel)
  obtain ⟨t', ht'⟩ : ∃ t, cutSale "0x645".toList "ab".toList = .ok t :=
    Res.exists_of_isOk (by decide +kernel)
  refine ⟨cutCrypto, cutChain.db, t, t', cutChain.number, 1, 0xb0, 0xb0, cutOrder "0x64".toList "5ab".toList,
    cutOrder "0x645".toList "ab".toList, _, _, ht, ht', rfl, rfl, rfl, by decide, ?_⟩
  intro hreading
  have hmint := congrArg Reading.mint hreading
  revert hmint
  decide

/-- The first order under another signature, cut at the same places, is read alike. The second is cut
elsewhere, which its royalty shows. -/
theorem reading_eq_of_aligned_cut :
    ∃ (t t' t'' : StateDB) (w : WormholesTx) (o o' o'' : Order),
      cutSale "0x64".toList "5ab".toList = .ok t ∧ cutSale "0x645".toList "ab".toList = .ok t' ∧
        handleNFT cutCrypto cutChain.db cutChain.number 0xb0 0xb0 w 1 = .ok t'' ∧
        (orders (cutOrder "0x64".toList "5ab".toList))[0]? = some o ∧
        (orders (cutOrder "0x645".toList "ab".toList))[0]? = some o' ∧ (orders w)[0]? = some o'' ∧
        o.message = o'.message ∧ o.message = o''.message ∧ o.sig ≠ o''.sig ∧
        o.reading = o''.reading ∧ o.reading ≠ o'.reading := by
  let first := (cutOrder "0x64".toList "5ab".toList).seller2
  let w : WormholesTx := { WormholesTx.bare 16 with
    seller2 := { first with sig := "0x".toList ++ List.replicate 128 '0' ++ "1c".toList } }
  obtain ⟨t, ht⟩ : ∃ t, cutSale "0x64".toList "5ab".toList = .ok t :=
    Res.exists_of_isOk (by decide +kernel)
  obtain ⟨t', ht'⟩ : ∃ t, cutSale "0x645".toList "ab".toList = .ok t :=
    Res.exists_of_isOk (by decide +kernel)
  obtain ⟨t'', ht''⟩ : ∃ t, handleNFT cutCrypto cutChain.db cutChain.number 0xb0 0xb0 w 1 = .ok t :=
    Res.exists_of_isOk (by decide +kernel)
  have hmessage : (Order.mintSeller first).message =
      (Order.mintSeller (cutOrder "0x645".toList "ab".toList).seller2).message := by decide
  refine ⟨t, t', t'', w, _, _, _, ht, ht', ht'', rfl, rfl, rfl, hmessage, rfl, by decide, ?_, ?_⟩
  · exact (reading_eq_of_aligned ht ht'' rfl (i := 0) rfl rfl rfl).1 ⟨rfl, rfl, rfl⟩
  · intro hreading
    have hshown := (reading_eq_of_aligned ht ht' rfl (i := 0) rfl rfl hmessage).2 hreading
    exact absurd hshown.1 (by decide)

end Readings

end Wormholes.Core
