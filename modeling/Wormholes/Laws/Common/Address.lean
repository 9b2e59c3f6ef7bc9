import Wormholes.State.Nft
import Mathlib.Data.BitVec
import Mathlib.Tactic.IntervalCases

/-!
# Laws.Common.Address — the addresses the merge tree computes on text are block starts

Each address function of `State.Nft` slices an address' text, glues digits and zeros to the slice
and reads the result back. Here every one of them is shown to be arithmetic: the parent of an
address is the start of its block one level up, the siblings are that start plus a digit's
multiple, and a split visits the children of the blocks on the way down. Letter case never
matters to these; the single place where it does is the comparison in `splitNFT16`, of the text that
`shouldNFTAddr` makes with the address' own text.
-/

namespace Wormholes

open Lib Common

variable {c : Char} {d k level : ℕ} {S : Address}
variable {s : GoString} {ds : List ℕ}

/-! ## Texts and the digits they spell -/

/-- Every character of `s` is a hexadecimal digit, and they have the values `ds`. -/
def Spells (s : GoString) (ds : List ℕ) : Prop := s.map fromHexChar = ds.map some

theorem exists_of_has0xPrefix (h : has0xPrefix s = true) :
    ∃ x digits, s = '0' :: x :: digits ∧ (x = 'x' ∨ x = 'X') := by
  unfold has0xPrefix at h
  split at h
  next => exact ⟨_, _, rfl, Or.inl rfl⟩
  next => exact ⟨_, _, rfl, Or.inr rfl⟩
  next => cases h

namespace Spells

variable {s t : GoString} {ds es : List ℕ}

theorem length_eq (h : Spells s ds) : s.length = ds.length := by
  simpa using congrArg List.length h

theorem append (h : Spells s ds) (h' : Spells t es) : Spells (s ++ t) (ds ++ es) := by
  unfold Spells at *
  rw [List.map_append, List.map_append, h, h']

theorem take (h : Spells s ds) (k : ℕ) : Spells (s.take k) (ds.take k) := by
  unfold Spells at *
  rw [List.map_take, List.map_take, h]

theorem drop (h : Spells s ds) (k : ℕ) : Spells (s.drop k) (ds.drop k) := by
  unfold Spells at *
  rw [List.map_drop, List.map_drop, h]

theorem set (h : Spells s ds) (k : ℕ) (hc : fromHexChar c = some d) :
    Spells (s.set k c) (ds.set k d) := by
  unfold Spells at *
  rw [List.map_set, List.map_set, h, hc]

theorem cons (hc : fromHexChar c = some d) (h : Spells s ds) : Spells (c :: s) (d :: ds) := by
  unfold Spells at *
  rw [List.map_cons, List.map_cons, h, hc]

theorem zeros (k : ℕ) : Spells (List.replicate k '0') (List.replicate k 0) := by
  unfold Spells
  rw [List.map_replicate, List.map_replicate]
  rfl

theorem digit_of_mem (h : Spells s ds) (hc : c ∈ s) : ∃ d, fromHexChar c = some d := by
  have hmem : fromHexChar c ∈ ds.map some := h ▸ List.mem_map_of_mem hc
  obtain ⟨d, -, hd⟩ := List.mem_map.mp hmem
  exact ⟨d, hd.symm⟩

/-- A text of digits has no `0x`. -/
theorem has0xPrefix_eq_false (h : Spells s ds) : has0xPrefix s = false := by
  by_contra hp
  obtain ⟨x, digits, rfl, hx⟩ := exists_of_has0xPrefix (Bool.eq_true_of_not_eq_false hp)
  obtain ⟨d, hd⟩ := h.digit_of_mem (c := x) (by simp)
  rcases hx with rfl | rfl <;> cases hd

end Spells

/-- Both spellings of a hexadecimal digit are read as that digit. -/
theorem fromHexChar_hexDigit (hd : d < 16) : fromHexChar (hexDigit d) = some d := by
  interval_cases d <;> rfl

theorem fromHexChar_upper (hd : d < 16) (hletter : hexDigit d > '9') :
    fromHexChar (Char.ofNat ((hexDigit d).toNat - 32)) = some d := by
  interval_cases d <;> first | rfl | exact absurd hletter (by decide)

/-! ## Reading a spelled text -/

theorem length_hex2Bytes (h : Spells s ds) (heven : s.length % 2 = 0) :
    (hex2Bytes s).length * 2 = s.length ∧ ofDigitsBE 256 (hex2Bytes s) = ofDigitsBE 16 ds := by
  induction s using hex2Bytes.induct generalizing ds with
  | case1 hi lo rest x y hlo hhi ih =>
    cases ds with
    | nil => exact absurd h (by simp [Spells])
    | cons d ds =>
    cases ds with
    | nil => exact absurd h (by simp [Spells])
    | cons e ds =>
      obtain ⟨hd, htail⟩ := List.cons.inj h
      obtain ⟨he, hrest⟩ := List.cons.inj htail
      rw [hhi] at hd
      rw [hlo] at he
      cases hd
      cases he
      obtain ⟨hlen, hval⟩ := ih hrest (by simp only [List.length_cons] at heven; omega)
      have hlen' : (hex2Bytes rest).length * 2 = ds.length := by
        rw [hlen]; exact Spells.length_eq hrest
      simp only [hex2Bytes, hhi, hlo]
      refine ⟨by simp only [List.length_cons]; omega, ?_⟩
      rw [← List.singleton_append, ofDigitsBE_append, hval,
        show x :: y :: ds = [x, y] ++ ds from rfl, ofDigitsBE_append, ← hlen',
        Nat.mul_comm _ 2, Nat.pow_mul]
      simp [ofDigitsBE]
  | case2 hi lo rest hbad =>
    cases ds with
    | nil => exact absurd h (by simp [Spells])
    | cons d ds =>
    cases ds with
    | nil => exact absurd h (by simp [Spells])
    | cons e ds =>
      obtain ⟨hd, htail⟩ := List.cons.inj h
      exact absurd (List.cons.inj htail).1 (hbad d e hd)
  | case3 s hshort =>
    cases s with
    | nil =>
      have : ds = [] := by simpa using (Spells.length_eq h).symm
      subst this
      simp [hex2Bytes]
    | cons c s =>
      cases s with
      | nil => simp at heven
      | cons c' s => exact absurd rfl (hshort c c' s)

/-- A text of hexadecimal digits is read as the number they write, cut to 160 bits. -/
theorem hexToAddress_of_spells (h : Spells s ds) :
    hexToAddress s = BitVec.ofNat 160 (ofDigitsBE 16 ds) := by
  unfold hexToAddress fromHex bytesToAddress
  simp only [h.has0xPrefix_eq_false, Bool.false_eq_true, if_false]
  split
  next hodd =>
    have hcons : Spells ('0' :: s) (0 :: ds) := h.cons rfl
    rw [(length_hex2Bytes hcons (by simp only [List.length_cons]; omega)).2,
      ← List.singleton_append, ofDigitsBE_append]
    simp [ofDigitsBE]
  next heven => rw [(length_hex2Bytes h (by omega)).2]

theorem hexToAddress_prefixed {x : Char} (hx : x = 'x' ∨ x = 'X') (h : Spells s ds) :
    hexToAddress ('0' :: x :: s) = BitVec.ofNat 160 (ofDigitsBE 16 ds) := by
  have h0x : has0xPrefix ('0' :: x :: s) = true := by rcases hx with rfl | rfl <;> rfl
  rw [← hexToAddress_of_spells h]
  unfold hexToAddress fromHex
  simp only [h0x, h.has0xPrefix_eq_false, if_true, Bool.false_eq_true, if_false, List.drop_succ_cons,
    List.drop_zero]

theorem bigSetString16_of_spells (h : Spells s ds) : bigSetString16 s = ofDigitsBE 16 ds := by
  have hmap : s.map (fun c => (fromHexChar c).getD 0) = (s.map fromHexChar).map (·.getD 0) := by
    rw [List.map_map]; rfl
  unfold bigSetString16
  rw [hmap, h, List.map_map]
  congr 1
  exact (List.map_congr_left fun _ _ => rfl).trans (List.map_id ds)

/-! ## The text of an address -/

namespace Address

variable (H : Hasher) (a : Address)

theorem lt_of_mem_digits (h : d ∈ a.digits) : d < 16 :=
  lt_of_mem_toDigitsBE (by decide) h

@[simp] theorem length_digits : a.digits.length = 40 := length_toDigitsBE 40 _

theorem ofDigitsBE_digits : ofDigitsBE 16 a.digits = a.toNat := by
  have hlt : a.toNat < 16 ^ 40 := by
    have := a.isLt
    norm_num at this ⊢
    exact this
  unfold digits
  rw [ofDigitsBE_toDigitsBE, Nat.mod_eq_of_lt hlt]

theorem spells_checksumDigits : Spells (a.checksumDigits H) a.digits := by
  unfold Spells checksumDigits Address.hex
  refine List.ext_getElem (by simp) fun i h1 h2 => ?_
  have hi : i < a.digits.length := by simpa using h2
  have hd : a.digits[i] < 16 := a.lt_of_mem_digits (List.getElem_mem hi)
  simp only [List.getElem_map, List.getElem_mapIdx]
  split
  next hupper => exact fromHexChar_upper hd hupper.1
  next => exact fromHexChar_hexDigit hd

@[simp] theorem length_checksumDigits : (a.checksumDigits H).length = 40 := by
  rw [(spells_checksumDigits H a).length_eq, length_digits]

@[simp] theorem length_string : (a.string H).length = 42 := by
  simp [Address.string]

theorem take_string (hk : k ≤ 40) :
    (a.string H).take (42 - k) = '0' :: 'x' :: (a.checksumDigits H).take (40 - k) := by
  rw [show 42 - k = 40 - k + 1 + 1 by omega]
  rfl

theorem drop_string (hk : k ≤ 40) :
    (a.string H).drop (42 - k) = (a.checksumDigits H).drop (40 - k) := by
  rw [show 42 - k = 40 - k + 1 + 1 by omega]
  rfl

end Address

/-! ## The merge tree's addresses -/

namespace StateDB

variable (H : Hasher)

theorem take_digits_append_zeros (a : Address) (hk : k ≤ 40) :
    ofDigitsBE 16 (a.digits.take (40 - k) ++ List.replicate k 0) = blockStart 16 k a.toNat := by
  have hlt : a.toNat < 16 ^ (40 - k + k) := by
    rw [Nat.sub_add_cancel hk]
    have := a.isLt
    norm_num at this ⊢
    exact this
  have h := ofDigitsBE_take_append_zeros hlt
  rw [Nat.sub_add_cancel hk] at h
  exact h

/-- The parent in the owner lookup is the start of the block one level up. -/
theorem parentOf_eq (a : Address) {depth : ℕ} (hd : depth + 1 ≤ 40) :
    parentOf H a depth = BitVec.ofNat 160 (blockStart 16 (depth + 1) a.toNat) := by
  unfold parentOf
  rw [Address.take_string H a hd, List.cons_append, List.cons_append,
    hexToAddress_prefixed (Or.inl rfl) (((Address.spells_checksumDigits H a).take _).append (Spells.zeros _)),
    take_digits_append_zeros a hd]

theorem parentDigits_eq (a : Address) (hl : level + 1 ≤ 40) :
    parentDigits H a level = some ((a.checksumDigits H).take (40 - (level + 1))) := by
  unfold parentDigits
  rw [Nat.mod_eq_of_lt (by omega), if_pos hl, Address.string, List.drop_succ_cons,
    List.drop_succ_cons, List.drop_zero]

/-- The merged address is the start of the block one level up. -/
theorem mergedAddr_eq (a : Address) (hl : level + 1 ≤ 40) :
    mergedAddr ((a.checksumDigits H).take (40 - (level + 1))) =
      BitVec.ofNat 160 (blockStart 16 (level + 1) a.toNat) := by
  have hlen : ((a.checksumDigits H).take (40 - (level + 1))).length = 40 - (level + 1) := by
    rw [List.length_take, Address.length_checksumDigits]
    omega
  unfold mergedAddr
  rw [hlen, show 40 - (40 - (level + 1)) = level + 1 by omega,
    hexToAddress_of_spells (((Address.spells_checksumDigits H a).take _).append (Spells.zeros _)),
    take_digits_append_zeros a hl]

/-- The hexadecimal text of bytes spells the same number. -/
theorem spells_hexEncode (w n : ℕ) :
    Spells (hexEncode (toDigitsBE 256 w n)) (toDigitsBE 16 (2 * w) n) := by
  induction w generalizing n with
  | zero => rfl
  | succ w ih =>
    have hhi : n % 256 / 16 = n / 16 % 16 := by omega
    have hlo : n % 256 % 16 = n % 16 := by omega
    have hdiv : n / 16 / 16 = n / 256 := by omega
    have hpair : Spells [hexDigit (n / 16 % 16), hexDigit (n % 16)] [n / 16 % 16, n % 16] :=
      Spells.cons (fromHexChar_hexDigit (Nat.mod_lt _ (by decide)))
        (Spells.cons (fromHexChar_hexDigit (Nat.mod_lt _ (by decide))) rfl)
    have h := (ih (n / 256)).append hpair
    simpa [hexEncode, toDigitsBE, Nat.mul_add, hhi, hlo, hdiv] using h

theorem ofDigitsBE_bigBytes_nibbles (n : ℕ) :
    ∃ ds, Spells (hexEncode (bigBytes n)) ds ∧ ofDigitsBE 16 ds = n := by
  refine ⟨_, spells_hexEncode _ n, ?_⟩
  rw [ofDigitsBE_toDigitsBE]
  apply Nat.mod_eq_of_lt
  split
  next h => subst h; simp
  next h =>
    have hlog : n < 2 ^ (Nat.log2 n + 1) := Nat.lt_log2_self
    calc n < 2 ^ (Nat.log2 n + 1) := hlog
      _ ≤ 2 ^ (4 * (2 * (Nat.log2 n / 8 + 1))) := Nat.pow_le_pow_right (by decide) (by omega)
      _ = 16 ^ (2 * (Nat.log2 n / 8 + 1)) := by rw [Nat.pow_mul]

/-- The siblings are the children of the block one level up. -/
theorem siblingAddr_eq (a : Address) (hl : level + 1 ≤ 40) (i : ℕ) :
    siblingAddr ((a.checksumDigits H).take (40 - (level + 1))) level i =
      BitVec.ofNat 160 (blockStart 16 (level + 1) a.toNat + i * 16 ^ level) := by
  have hparent : bigSetString16 ((a.checksumDigits H).take (40 - (level + 1))) * 16 ^ (level + 1) =
      blockStart 16 (level + 1) a.toNat := by
    rw [bigSetString16_of_spells ((Address.spells_checksumDigits H a).take _),
      ← ofDigitsBE_append_zeros, take_digits_append_zeros a hl]
  obtain ⟨ds, hds, hval⟩ := ofDigitsBE_bigBytes_nibbles
    (bigSetString16 ((a.checksumDigits H).take (40 - (level + 1))) * 16 + i)
  unfold siblingAddr
  rw [hexToAddress_of_spells (((Spells.zeros _).append hds).append (Spells.zeros level)),
    ofDigitsBE_append_zeros, ofDigitsBE_zeros_append, hval, ← hparent]
  congr 1
  ring

/-! ## Split -/

theorem fromHexChar_splitDigit {j : ℕ} (hj : j < 16) : fromHexChar (splitDigit j) = some j := by
  interval_cases j <;> rfl

/-- The leading digits of an address and of the start of its block agree. -/
theorem take_digits_blockStart {a : Address} {m : ℕ} (hm : m ≤ 40)
    (hS : S.toNat = blockStart 16 m a.toNat) : S.digits.take (40 - m) = a.digits.take (40 - m) := by
  have hdiv : S.toNat / 16 ^ m = a.toNat / 16 ^ m := by
    rw [hS, blockStart, Nat.mul_div_cancel _ (Nat.pow_pos (by decide))]
  have h (x : Address) : x.digits.take (40 - m) = toDigitsBE 16 (40 - m) (x.toNat / 16 ^ m) := by
    have := take_toDigitsBE (b := 16) m (40 - m) x.toNat
    rwa [Nat.sub_add_cancel hm] at this
  rw [h, h, hdiv]

/-- The trailing digits of a block start are zero. -/
theorem drop_digits_of_dvd (hk : k ≤ 40) (hS : 16 ^ k ∣ S.toNat) :
    S.digits.drop (40 - k) = List.replicate k 0 := by
  have h := drop_toDigitsBE (b := 16) k (40 - k) S.toNat
  rw [Nat.sub_add_cancel hk] at h
  exact h.trans (toDigitsBE_of_dvd (by decide) hS)

/-- A split visits the children of the blocks between the stored NFT and the address. -/
theorem splitAddr_eq {a : Address} {m i j : ℕ} (hm : m ≤ 40)
    (hS : S.toNat = blockStart 16 m a.toNat) (hi : i < m) (hj : j < 16) :
    splitAddr H S a m i j =
      BitVec.ofNat 160 (blockStart 16 (m - i) a.toNat + j * 16 ^ (m - i - 1)) := by
  have hpre := take_digits_blockStart hm hS
  have hzero : S.digits.drop (40 - (m - i)) = List.replicate (m - i) 0 := by
    apply drop_digits_of_dvd (by omega)
    rw [hS]
    exact Nat.dvd_trans (Nat.pow_dvd_pow 16 (by omega)) (dvd_blockStart 16 m _)
  have hmid : (a.digits.take (40 - (m - i))).take (40 - m) = a.digits.take (40 - m) := by
    rw [List.take_take]
    congr 1
    omega
  -- the digits of the text: the address' own down to the child's digit, then zeros
  have hdigits : S.digits.take (40 - m) ++ (a.digits.take (40 - (m - i))).drop (40 - m) ++
      S.digits.drop (40 - (m - i)) = a.digits.take (40 - (m - i)) ++ List.replicate (m - i) 0 := by
    rw [hpre, ← hmid, List.take_append_drop, hzero]
  have hset : (a.digits.take (40 - (m - i)) ++ List.replicate (m - i) 0).set (40 - (m - i)) j =
      a.digits.take (40 - (m - i)) ++ j :: List.replicate (m - i - 1) 0 := by
    have hlen : (a.digits.take (40 - (m - i))).length = 40 - (m - i) := by
      rw [List.length_take, Address.length_digits]
      omega
    rw [List.set_append_right _ _ (by omega), hlen, Nat.sub_self,
      show m - i = (m - i - 1) + 1 by omega, List.replicate_succ, List.set_cons_zero]
    rfl
  have hspell := ((((Address.spells_checksumDigits H S).take (40 - m)).append
    (((Address.spells_checksumDigits H a).take (40 - (m - i))).drop (40 - m))).append
    ((Address.spells_checksumDigits H S).drop (40 - (m - i)))).set (40 - (m - i))
      (fromHexChar_splitDigit hj)
  have htext : ((S.string H).take (42 - m) ++ (((a.string H).take (42 - m + i)).drop (42 - m)) ++
      (S.string H).drop (42 - m + i)).set (42 - m + i) (splitDigit j) =
      '0' :: 'x' :: ((((S.checksumDigits H).take (40 - m)) ++
        (((a.checksumDigits H).take (40 - (m - i))).drop (40 - m))) ++
        ((S.checksumDigits H).drop (40 - (m - i)))).set (40 - (m - i)) (splitDigit j) := by
    rw [show 42 - m + i = 42 - (m - i) by omega, Address.take_string H S hm,
      Address.take_string H a (by omega), Address.drop_string H S (by omega),
      show 42 - m = 40 - m + 1 + 1 by omega, show 42 - (m - i) = 40 - (m - i) + 1 + 1 by omega]
    rfl
  rw [hdigits, hset] at hspell
  unfold splitAddr
  simp only [htext]
  have hval : ofDigitsBE 16 (a.digits.take (40 - (m - i)) ++ j :: List.replicate (m - i - 1) 0) =
      blockStart 16 (m - i) a.toNat + j * 16 ^ (m - i - 1) := by
    rw [ofDigitsBE_append, ← take_digits_append_zeros a (by omega),
      ofDigitsBE_append_zeros, List.length_cons, List.length_replicate,
      Nat.sub_add_cancel (by omega), ← List.singleton_append, ofDigitsBE_append_zeros]
    simp [ofDigitsBE]
  rw [hexToAddress_prefixed (Or.inl rfl) hspell, hval]

/-- A zero digit is written the same in either case. -/
theorem drop_checksumDigits_of_dvd {a : Address} (hk : k ≤ 40) (ha : 16 ^ k ∣ a.toNat) :
    (a.checksumDigits H).drop (40 - k) = List.replicate k '0' := by
  have hdrop := drop_digits_of_dvd hk ha
  refine List.ext_getElem (by simp; omega) fun i h1 h2 => ?_
  have hi : i < k := by simpa using h2
  have hidx : 40 - k + i < a.digits.length := by rw [Address.length_digits]; omega
  have hzero : a.digits[40 - k + i] = 0 := by
    have := List.getElem_of_eq hdrop (i := i) (by simp; omega)
    simpa using this
  simp only [List.getElem_drop, Address.checksumDigits, Address.hex, List.getElem_mapIdx,
    List.getElem_map, hzero, List.getElem_replicate]
  rfl

end StateDB

end Wormholes
