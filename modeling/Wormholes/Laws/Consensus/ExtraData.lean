import Wormholes.Consensus.ExtraData
import Wormholes.Laws.Common.Encoding
import Mathlib.Logic.Equiv.List

/-!
# Laws.Consensus.ExtraData — the block hash ignores exactly the committed seals

Reading extra data back after writing it gives what was written (`extract_of_withExtra`): that is the
round trip of `Lib.Rlp` behind a vanity that stays in place. Filtering therefore depends on the
cleared fields only, and it always succeeds where decoding does, since clearing seals makes the
content no longer (`exists_filtered`).

The hash of a header's encoding is taken as injective where two headers are compared, and as nothing
at all where a writer is shown to change no hash.
-/

namespace Wormholes.Consensus

open Lib Common Rlp

variable {x : Item} {addrs : List Address} {e' : IstanbulExtra}

/-! ## Encodings -/

theorem IstanbulExtra.ofItem_item (e : IstanbulExtra) : ofItem e.item = some e := by
  simp [item, ofItem, asListOf_map asAddress_addressItem, asListOf_map asStr_str]

theorem IstanbulExtra.item_injective : Function.Injective item := fun e e' h => by
  simpa [ofItem_item] using congrArg ofItem h

theorem length_encode_of_asAddress {a : Address} (h : asAddress x = some a) :
    (encode x).length = 21 := by
  cases x with
  | list items => cases h
  | str bytes =>
    obtain ⟨bs, hfixed, -⟩ := Option.map_eq_some_iff.mp h
    have hlen : bytes.length = 20 := by
      by_contra hne
      simp [asFixed, hne] at hfixed
    have hsingle : single bytes = false := by
      rw [Bool.eq_false_iff]
      intro h
      obtain ⟨b, rfl, -⟩ := single_eq_true_iff.mp h
      simp at hlen
    rw [encode, encodeStr, hsingle, if_neg (by decide), List.length_append, hlen]
    rfl

theorem length_encodeAll_of_mapM {items : List Item} (h : items.mapM asAddress = some addrs) :
    (encodeAll items).length = 21 * addrs.length := by
  induction items generalizing addrs with
  | nil =>
    cases h
    rfl
  | cons x items ih =>
    rw [List.mapM_cons] at h
    obtain ⟨a, ha, h⟩ := Option.bind_eq_some_iff.mp h
    obtain ⟨as, has, h⟩ := Option.bind_eq_some_iff.mp h
    cases h
    rw [encodeAll, List.length_append, length_encode_of_asAddress ha, ih has, List.length_cons]
    omega

/-- An address list takes as many bytes as the item it was read from. -/
theorem length_encode_addresses (h : asListOf asAddress x = some addrs) :
    (encode (.list (addrs.map addressItem))).length = (encode x).length := by
  cases x with
  | str bytes => cases h
  | list items =>
    have hwritten := asListOf_map asAddress_addressItem addrs
    rw [asListOf] at h hwritten
    have hlen := length_encodeAll_of_mapM h
    have hlen' := length_encodeAll_of_mapM hwritten
    rw [encode, encode, List.length_append, List.length_append, hlen, hlen']

theorem IstanbulExtra.ofItem_eq_some {e : IstanbulExtra} (h : ofItem x = some e) :
    ∃ validators committedSeal beneficiaryAddr,
      x = .list [validators, .str e.proposerSeal, committedSeal, beneficiaryAddr] ∧
        asListOf asAddress validators = some e.validators ∧
          asListOf asAddress beneficiaryAddr = some e.beneficiaryAddr := by
  unfold ofItem at h
  split at h
  next validators proposerSeal committedSeal beneficiaryAddr =>
    obtain ⟨vs, hvs, h⟩ := Option.bind_eq_some_iff.mp h
    obtain ⟨sig, hsig, h⟩ := Option.bind_eq_some_iff.mp h
    obtain ⟨cs, -, h⟩ := Option.bind_eq_some_iff.mp h
    obtain ⟨bs, hbs, h⟩ := Option.bind_eq_some_iff.mp h
    cases h
    cases proposerSeal with
    | list items => cases hsig
    | str bytes =>
      cases hsig
      exact ⟨validators, committedSeal, beneficiaryAddr, rfl, hvs, hbs⟩
  next => cases h

/-- Clearing seals makes extra data no longer. -/
theorem size_clear_le {e : IstanbulExtra} (h : IstanbulExtra.ofItem x = some e) (keepSeal : Bool) :
    size (RawHeader.clear keepSeal e).item ≤ size x := by
  obtain ⟨validators, committedSeal, beneficiaryAddr, rfl, hvs, hbs⟩ :=
    IstanbulExtra.ofItem_eq_some h
  have hseal : (encode (.str (if keepSeal then e.proposerSeal else []))).length ≤
      (encode (.str e.proposerSeal)).length := by
    cases keepSeal with
    | true => simp
    | false => exact encode_length_pos (.str e.proposerSeal)
  have hcommitted : (encode (.list ([] : List Item))).length ≤ (encode committedSeal).length :=
    encode_length_pos committedSeal
  have hvs' := length_encode_addresses hvs
  have hbs' := length_encode_addresses hbs
  simp only [RawHeader.clear, IstanbulExtra.item, size, encodeAll, List.length_append,
    List.length_nil, List.map_nil]
  omega

namespace RawHeader

/-! ## Writing and reading back -/

variable {h h' : RawHeader} {e : IstanbulExtra}

theorem extract_eq_ok : h.extractIstanbulExtra = .ok e ↔
    istanbulExtraVanity ≤ h.extra.length ∧
      ∃ x, decodeBytes (h.extra.drop istanbulExtraVanity) = some x ∧
        IstanbulExtra.ofItem x = some e := by
  unfold extractIstanbulExtra
  split
  next hshort =>
    constructor
    · intro h
      cases h
    · intro h
      omega
  next hlong =>
    cases hbind : (decodeBytes (h.extra.drop istanbulExtraVanity)).bind IstanbulExtra.ofItem with
    | none =>
      constructor
      · intro h
        cases h
      · rintro ⟨-, x, hx, he⟩
        simp [hx, he] at hbind
    | some e' =>
      obtain ⟨x, hx, he⟩ := Option.bind_eq_some_iff.mp hbind
      constructor
      · intro h
        cases h
        exact ⟨Nat.not_lt.mp hlong, x, hx, he⟩
      · rintro ⟨-, y, hy, he'⟩
        rw [hx] at hy
        cases hy
        rw [he] at he'
        cases he'
        rfl

theorem withExtra_eq_ok : h.withExtra e = .ok h' ↔
    ∃ payload, encodeToBytes e.item = some payload ∧
      h' = { h with extra := h.extra.take istanbulExtraVanity ++ payload } := by
  unfold withExtra
  cases encodeToBytes e.item with
  | none => simp
  | some payload => simp [eq_comm]

/-- What is written behind the vanity is read back, and the vanity stays. -/
theorem extract_of_withExtra (hlen : istanbulExtraVanity ≤ h.extra.length)
    (hw : h.withExtra e = .ok h') :
    h'.extractIstanbulExtra = .ok e ∧
      h'.extra.take istanbulExtraVanity = h.extra.take istanbulExtraVanity := by
  obtain ⟨payload, hpayload, rfl⟩ := withExtra_eq_ok.mp hw
  have htake : (h.extra.take istanbulExtraVanity).length = istanbulExtraVanity := by
    rw [List.length_take]
    omega
  refine ⟨extract_eq_ok.mpr ⟨?_, e.item, ?_, e.ofItem_item⟩, ?_⟩
  · simp only [List.length_append, htake]
    omega
  · rw [List.drop_left' htake]
    exact decodeBytes_of_encodeToBytes hpayload
  · exact List.take_left' htake

/-- Where extra data decodes, filtering succeeds. -/
theorem exists_filtered (he : h.extractIstanbulExtra = .ok e) (keepSeal : Bool) :
    ∃ payload, encodeToBytes (clear keepSeal e).item = some payload ∧
      h.istanbulFilteredHeader keepSeal =
        some { h with extra := h.extra.take istanbulExtraVanity ++ payload } := by
  obtain ⟨-, x, hx, hitem⟩ := extract_eq_ok.mp he
  have hsize : size x < 2 ^ 64 := by
    by_contra hlarge
    have := encodeToBytes_of_decodeBytes hx
    rw [encodeToBytes, if_neg hlarge] at this
    cases this
  have hfits := Nat.lt_of_le_of_lt (size_clear_le hitem keepSeal) hsize
  have hpayload : encodeToBytes (clear keepSeal e).item = some (encode (clear keepSeal e).item) :=
    if_pos hfits
  refine ⟨_, hpayload, ?_⟩
  simp only [istanbulFilteredHeader, he, withExtra, hpayload]
  rfl

/-- A write that only touches cleared fields leaves the filtered header as it was. -/
theorem filtered_of_withExtra {keepSeal : Bool} (he : h.extractIstanbulExtra = .ok e)
    (hw : h.withExtra e' = .ok h') (hclear : clear keepSeal e' = clear keepSeal e) :
    h'.istanbulFilteredHeader keepSeal = h.istanbulFilteredHeader keepSeal := by
  obtain ⟨hlen, -⟩ := extract_eq_ok.mp he
  obtain ⟨he', hvanity⟩ := extract_of_withExtra hlen hw
  obtain ⟨payload, hpayload, hfiltered⟩ := exists_filtered he keepSeal
  obtain ⟨payload', hpayload', hfiltered'⟩ := exists_filtered he' keepSeal
  rw [hclear, hpayload] at hpayload'
  cases hpayload'
  obtain ⟨written, -, hh'⟩ := withExtra_eq_ok.mp hw
  rw [hfiltered', hfiltered, hvanity, hh']

theorem writeSeal_eq_ok {sig : List ℕ} (hw : h.writeSeal sig = .ok h') :
    ∃ e, h.extractIstanbulExtra = .ok e ∧ h.withExtra { e with proposerSeal := sig } = .ok h' := by
  unfold writeSeal at hw
  split at hw
  next => cases hw
  next =>
    cases he : h.extractIstanbulExtra with
    | error err =>
      rw [he] at hw
      cases hw
    | ok e =>
      rw [he] at hw
      exact ⟨e, rfl, hw⟩

theorem writeCommittedSeals_eq_ok {sigs : List (List ℕ)} (hw : h.writeCommittedSeals sigs = .ok h') :
    ∃ e, h.extractIstanbulExtra = .ok e ∧ h.withExtra { e with committedSeal := sigs } = .ok h' := by
  unfold writeCommittedSeals at hw
  split at hw
  next => cases hw
  next =>
    cases he : h.extractIstanbulExtra with
    | error err =>
      rw [he] at hw
      cases hw
    | ok e =>
      rw [he] at hw
      exact ⟨e, rfl, hw⟩

theorem toOption_getD_cases {ε α : Type*} (x : Except ε α) (a : α) :
    (∃ b, x = .ok b ∧ x.toOption.getD a = b) ∨ x.toOption.getD a = a := by
  cases x with
  | error err => exact Or.inr rfl
  | ok b => exact Or.inl ⟨b, rfl, rfl⟩

/-! ## Hashes -/

variable (rlpHash : Option RawHeader → List ℕ)

theorem hash_eq (hmix : h.mixDigest = istanbulDigest) (he : h.extractIstanbulExtra = .ok e) :
    h.hash rlpHash = rlpHash (h.istanbulFilteredHeader true) := by
  obtain ⟨payload, -, hfiltered⟩ := exists_filtered he true
  simp only [hash, if_pos hmix, filteredHeader, he, hfiltered]

theorem hash_writeCommittedSeals (hmix : h.mixDigest = istanbulDigest) (sigs : List (List ℕ)) :
    ((SealWrite.committedSeals sigs).apply h).hash rlpHash = h.hash rlpHash := by
  rcases toOption_getD_cases (h.writeCommittedSeals sigs) h with ⟨h', hw, happly⟩ | happly
  · obtain ⟨e, he, hw⟩ := writeCommittedSeals_eq_ok hw
    obtain ⟨hlen, -⟩ := extract_eq_ok.mp he
    have he' := (extract_of_withExtra hlen hw).1
    have hmix' : h'.mixDigest = istanbulDigest := by
      obtain ⟨-, -, rfl⟩ := withExtra_eq_ok.mp hw
      exact hmix
    rw [SealWrite.apply, happly, hash_eq rlpHash hmix' he', hash_eq rlpHash hmix he,
      filtered_of_withExtra he hw rfl]
  · rw [SealWrite.apply, happly]

theorem sigHash_apply (h : RawHeader) (write : SealWrite) :
    (write.apply h).sigHash rlpHash = h.sigHash rlpHash := by
  cases write with
  | proposerSeal sig =>
    rcases toOption_getD_cases (h.writeSeal sig) h with ⟨h', hw, happly⟩ | happly
    · obtain ⟨e, he, hw⟩ := writeSeal_eq_ok hw
      rw [SealWrite.apply, happly, sigHash, sigHash, filtered_of_withExtra he hw rfl]
    · rw [SealWrite.apply, happly]
  | committedSeals sigs =>
    rcases toOption_getD_cases (h.writeCommittedSeals sigs) h with ⟨h', hw, happly⟩ | happly
    · obtain ⟨e, he, hw⟩ := writeCommittedSeals_eq_ok hw
      rw [SealWrite.apply, happly, sigHash, sigHash, filtered_of_withExtra he hw rfl]
    · rw [SealWrite.apply, happly]

theorem sigHash_foldl_apply (h : RawHeader) (writes : List SealWrite) :
    (writes.foldl SealWrite.apply h).sigHash rlpHash = h.sigHash rlpHash := by
  induction writes generalizing h with
  | nil => rfl
  | cons write writes ih =>
    rw [List.foldl_cons, ih]
    exact sigHash_apply rlpHash h write

/-- All fields of a header but its extra data. -/
def AgreesOnFields (h h' : RawHeader) : Prop := { h with extra := h'.extra } = h'

/-- Headers with new extra data are equal exactly when the other fields and the new data are. -/
theorem withExtra_eq_iff (x y : List ℕ) :
    ({ h with extra := x } : RawHeader) = { h' with extra := y } ↔
      AgreesOnFields h h' ∧ x = y := by
  constructor
  · intro heq
    have hfields := congrArg (fun k : RawHeader => { k with extra := h'.extra }) heq
    exact ⟨hfields, congrArg RawHeader.extra heq⟩
  · intro hboth
    rw [hboth.2]
    exact congrArg (fun k : RawHeader => { k with extra := y }) hboth.1

/-- Filtered headers are equal exactly when the fields, the vanity and what filtering keeps are. -/
theorem filtered_eq_iff (he : h.extractIstanbulExtra = .ok e)
    (he' : h'.extractIstanbulExtra = .ok e') :
    h.istanbulFilteredHeader true = h'.istanbulFilteredHeader true ↔
      AgreesOnFields h h' ∧
        h.extra.take istanbulExtraVanity = h'.extra.take istanbulExtraVanity ∧
          e.validators = e'.validators ∧ e.proposerSeal = e'.proposerSeal ∧
            e.beneficiaryAddr = e'.beneficiaryAddr := by
  obtain ⟨payload, hpayload, hfiltered⟩ := exists_filtered he true
  obtain ⟨payload', hpayload', hfiltered'⟩ := exists_filtered he' true
  have hclear : clear true e = clear true e' ↔ e.validators = e'.validators ∧
      e.proposerSeal = e'.proposerSeal ∧ e.beneficiaryAddr = e'.beneficiaryAddr := by
    simp [clear]
  have hpayloads : payload = payload' ↔ clear true e = clear true e' := by
    constructor
    · intro heq
      subst heq
      have hx := decodeBytes_of_encodeToBytes hpayload
      rw [decodeBytes_of_encodeToBytes hpayload'] at hx
      exact (IstanbulExtra.item_injective (Option.some.inj hx)).symm
    · intro heq
      rw [heq, hpayload'] at hpayload
      exact (Option.some.inj hpayload).symm
  have hsplit : h.extra.take istanbulExtraVanity ++ payload =
      h'.extra.take istanbulExtraVanity ++ payload' ↔
      h.extra.take istanbulExtraVanity = h'.extra.take istanbulExtraVanity ∧ payload = payload' := by
    have hlen := (extract_eq_ok.mp he).1
    have hlen' := (extract_eq_ok.mp he').1
    constructor
    · intro heq
      refine List.append_inj heq ?_
      rw [List.length_take, List.length_take]
      omega
    · rintro ⟨htake, hpay⟩
      rw [htake, hpay]
  rw [hfiltered, hfiltered', Option.some.injEq, withExtra_eq_iff, hsplit, hpayloads, hclear]

/-- **The block hash ignores exactly the committed seals.** Two Istanbul headers hash alike exactly
when they agree on everything else; writing committed seals never changes the hash, and no order of
writes changes the hash a proposer signs. -/
theorem hash_ignores_exactly_committedSeals (hinj : Function.Injective rlpHash) :
    (∀ (h h' : RawHeader) (e e' : IstanbulExtra),
        h.mixDigest = istanbulDigest → h'.mixDigest = istanbulDigest →
        h.extractIstanbulExtra = .ok e → h'.extractIstanbulExtra = .ok e' →
        (h.hash rlpHash = h'.hash rlpHash ↔
          AgreesOnFields h h' ∧
            h.extra.take istanbulExtraVanity = h'.extra.take istanbulExtraVanity ∧
              e.validators = e'.validators ∧ e.proposerSeal = e'.proposerSeal ∧
                e.beneficiaryAddr = e'.beneficiaryAddr)) ∧
      (∀ (h : RawHeader) (sigs : List (List ℕ)), h.mixDigest = istanbulDigest →
        ((SealWrite.committedSeals sigs).apply h).hash rlpHash = h.hash rlpHash) ∧
      ∀ (h : RawHeader) (writes : List SealWrite),
        (writes.foldl SealWrite.apply h).sigHash rlpHash = h.sigHash rlpHash := by
  refine ⟨?_, ?_, sigHash_foldl_apply rlpHash⟩
  · intro h h' e e' hmix hmix' he he'
    rw [hash_eq rlpHash hmix he, hash_eq rlpHash hmix' he', hinj.eq_iff, filtered_eq_iff he he']
  · intro h sigs hmix
    exact hash_writeCommittedSeals rlpHash hmix sigs

/-- An Istanbul header with a vanity of zeros and the given encoded extra data. -/
def plainHeader (payload : List ℕ) : RawHeader where
  parentHash := []
  uncleHash := []
  coinbase := 0
  root := []
  txHash := []
  receiptHash := []
  bloom := []
  difficulty := 1
  number := 1
  gasLimit := 0
  gasUsed := 0
  time := 0
  extra := List.replicate 32 0 ++ payload
  mixDigest := istanbulDigest
  nonce := []
  baseFee := none

/-- A header as one tuple, in the order of its fields. -/
def tuple (h : RawHeader) : List (List ℕ) × List ℕ × Option ℕ :=
  ([h.parentHash, h.uncleHash, h.root, h.txHash, h.receiptHash, h.bloom, h.extra, h.mixDigest,
    h.nonce], [h.coinbase.toNat, h.difficulty, h.number, h.gasLimit, h.gasUsed, h.time], h.baseFee)

/-- An injective hash of headers. -/
def tupleHash (h : Option RawHeader) : List ℕ := [Encodable.encode (h.map tuple)]

theorem tupleHash_injective : Function.Injective tupleHash := by
  intro h h' heq
  have hmap : h.map tuple = h'.map tuple := Encodable.encode_injective (List.singleton_inj.mp heq)
  refine Option.map_injective ?_ hmap
  intro a b hab
  cases a
  cases b
  simp only [tuple, Prod.mk.injEq, List.cons.injEq, BitVec.toNat_inj] at hab
  simp [hab]

/-- A header without committed seals and one with a committed seal of one byte hash alike. -/
theorem hash_plainHeader :
    (plainHeader [0xc4, 0xc0, 0x80, 0xc0, 0xc0]).hash tupleHash =
      (plainHeader [0xc5, 0xc0, 0x80, 0xc1, 0x01, 0xc0]).hash tupleHash :=
  ((hash_ignores_exactly_committedSeals tupleHash tupleHash_injective).1
    (plainHeader [0xc4, 0xc0, 0x80, 0xc0, 0xc0]) (plainHeader [0xc5, 0xc0, 0x80, 0xc1, 0x01, 0xc0])
    ⟨[], [], [], []⟩ ⟨[], [], [[1]], []⟩ rfl rfl (by decide +kernel) (by decide +kernel)).mpr
    ⟨rfl, rfl, rfl, rfl, rfl⟩

end RawHeader

end Wormholes.Consensus
