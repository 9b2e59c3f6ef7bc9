import Wormholes.Core.Orders
import Wormholes.Laws.Common.Address

/-!
# Laws.Core.NftText — which texts name an NFT, and which one

`GetNftAddressAndLevel` looks at a text's length and prefix and leaves the digits to `HexToAddress`, which
reads up to the first pair that is not hexadecimal. So it accepts texts that name nothing
(`bad_digit_accepted`). `nft_text_exact_iff` says that these are the only ones it gets wrong.
-/

namespace Wormholes

open Lib Common

variable {s t : GoString} {ds es : List ℕ} {c : Char} {d : ℕ}

/-! ## Letter case -/

theorem fromHexChar_spec (h : fromHexChar c = some d) :
    d < 16 ∧ fromHexChar c.toLower = some d ∧ c.toLower = hexDigit d := by
  have hsmall : c.toNat < 128 := by
    have hle : ∀ e : Char, e.toNat < 128 → c ≤ e → c.toNat < 128 := fun e he hce =>
      Nat.lt_of_le_of_lt (Char.le_def.mp hce) he
    unfold fromHexChar at h
    split at h
    next hc => exact hle '9' (by decide) hc.2
    next =>
      split at h
      next hc => exact hle 'f' (by decide) hc.2
      next =>
        split at h
        next hc => exact hle 'F' (by decide) hc.2
        next => cases h
  have htable : ∀ n < 128, (fromHexChar (Char.ofNat n)).all fun d =>
      decide (d < 16 ∧ fromHexChar (Char.ofNat n).toLower = some d ∧
        (Char.ofNat n).toLower = hexDigit d) := by decide
  have hc := htable c.toNat hsmall
  rw [Char.ofNat_toNat, h] at hc
  exact of_decide_eq_true hc

namespace Spells

theorem lt (h : Spells s ds) (hd : d ∈ ds) : d < 16 := by
  have hmem : some d ∈ s.map fromHexChar := h ▸ List.mem_map_of_mem hd
  obtain ⟨c, -, hc⟩ := List.mem_map.mp hmem
  exact (fromHexChar_spec hc).1

/-- Texts of digits are equal up to letter case exactly if the digits are the same. -/
theorem map_toLower_eq_iff (h : Spells s ds) (h' : Spells t es) :
    s.map Char.toLower = t.map Char.toLower ↔ ds = es := by
  have hlower : ∀ {u : GoString} {ks : List ℕ}, Spells u ks →
      u.map Char.toLower = ks.map hexDigit ∧ Spells (u.map Char.toLower) ks := by
    intro u ks hu
    induction u generalizing ks with
    | nil =>
      cases ks with
      | nil => exact ⟨rfl, rfl⟩
      | cons k ks => cases hu
    | cons c u ih =>
      cases ks with
      | nil => cases hu
      | cons k ks =>
        obtain ⟨hc, hu⟩ := List.cons.inj hu
        obtain ⟨-, hdigit, hchar⟩ := fromHexChar_spec hc
        exact ⟨by rw [List.map_cons, List.map_cons, hchar, (ih hu).1], (ih hu).2.cons hdigit⟩
  constructor
  · intro heq
    have hs := (hlower h).2
    rw [heq] at hs
    exact List.map_injective_iff.mpr (Option.some_injective ℕ) (hs.symm.trans (hlower h').2)
  · rintro rfl
    rw [(hlower h).1, (hlower h').1]

end Spells

/-! ## Reading an NFT text -/

namespace Core

/-- `0x` or `0X`, then at most forty hexadecimal digits of the values `ds`. -/
def NftText (s : GoString) (ds : List ℕ) : Prop :=
  has0xPrefix s = true ∧ Spells (s.drop 2) ds ∧ ds.length ≤ 40

/-- The text is accepted exactly if it is an NFT text, and then as the number it spells at the level of
the digits it leaves out. -/
def ReadExactly (s : GoString) : Prop :=
  ((getNftAddressAndLevel s).isOk = true ↔ ∃ ds, NftText s ds) ∧
    ∀ A level, getNftAddressAndLevel s = .ok (A, level) →
      ∃ ds, NftText s ds ∧ level = 40 - ds.length ∧ A.toNat = ofDigitsBE 16 ds * 16 ^ level

/-- After its prefix, a text that is not too long has only hexadecimal digits. -/
def HexOnly (s : GoString) : Prop :=
  has0xPrefix s = true → s.length ≤ 42 → ∀ c ∈ s.drop 2, (fromHexChar c).isSome = true

theorem isOk_getNftAddressAndLevel :
    (getNftAddressAndLevel s).isOk = true ↔ s.length ≤ 42 ∧ has0xPrefix s = true := by
  unfold getNftAddressAndLevel
  split
  next h => exact ⟨fun h' => (by cases h'), fun h' => absurd h'.1 (by omega)⟩
  next h =>
    split
    next hp => exact ⟨fun _ => ⟨by omega, hp⟩, fun _ => rfl⟩
    next hp => exact ⟨fun h' => (by cases h'), fun h' => absurd h'.2 hp⟩

theorem NftText.length_eq (h : NftText s ds) : s.length = ds.length + 2 := by
  have hlen := h.2.1.length_eq
  obtain ⟨x, digits, rfl, -⟩ := exists_of_has0xPrefix h.1
  exact congrArg (· + 2) hlen

/-- What an NFT text is read as. -/
theorem NftText.read (h : NftText s ds) : getNftAddressAndLevel s =
    .ok (BitVec.ofNat 160 (ofDigitsBE 16 ds * 16 ^ (40 - ds.length)), 40 - ds.length) := by
  have hlen := h.length_eq
  have hle := h.2.2
  have hlevel : 42 - s.length = 40 - ds.length := by omega
  unfold getNftAddressAndLevel
  rw [if_neg (by omega), if_pos h.1, hlevel]
  obtain ⟨x, digits, rfl, hx⟩ := exists_of_has0xPrefix h.1
  have hspells : Spells (digits ++ _) _ := h.2.1.append (Spells.zeros (40 - ds.length))
  show Res.ok (hexToAddress ('0' :: x :: digits ++ _), _) = _
  rw [List.cons_append, List.cons_append, hexToAddress_prefixed hx hspells,
    ofDigitsBE_append_zeros]

theorem NftText.number_lt (h : NftText s ds) :
    ofDigitsBE 16 ds * 16 ^ (40 - ds.length) < 2 ^ 160 := by
  have hlt := ofDigitsBE_lt fun d hd => h.2.1.lt hd
  have hle := h.2.2
  calc ofDigitsBE 16 ds * 16 ^ (40 - ds.length)
      < 16 ^ ds.length * 16 ^ (40 - ds.length) := Nat.mul_lt_mul_of_pos_right hlt (by positivity)
    _ = 16 ^ 40 := by rw [← Nat.pow_add]; congr 1; omega
    _ = 2 ^ 160 := by norm_num

/-- An accepted text without other characters is an NFT text. -/
theorem HexOnly.nftText (h : HexOnly s) (hok : (getNftAddressAndLevel s).isOk = true) :
    ∃ ds, NftText s ds := by
  obtain ⟨hlen, hp⟩ := isOk_getNftAddressAndLevel.mp hok
  have hspells : Spells (s.drop 2) ((s.drop 2).map fun c => (fromHexChar c).getD 0) := by
    unfold Spells
    rw [List.map_map]
    refine List.map_congr_left fun c hc => ?_
    obtain ⟨d, hd⟩ := Option.isSome_iff_exists.mp (h hp hlen c hc)
    rw [Function.comp_apply, hd, Option.getD_some]
  refine ⟨_, hp, hspells, ?_⟩
  rw [List.length_map, List.length_drop]
  omega

/-- Decoding stops without an error at a character that is no digit; the level is that of the length. -/
theorem readExactly_iff : ReadExactly s ↔ HexOnly s := by
  constructor
  · intro h hp hlen c hc
    obtain ⟨ds, hds⟩ := h.1.mp (isOk_getNftAddressAndLevel.mpr ⟨hlen, hp⟩)
    exact Option.isSome_iff_exists.mpr (hds.2.1.digit_of_mem hc)
  · intro h
    refine ⟨⟨h.nftText, ?_⟩, fun A level hread => ?_⟩
    · rintro ⟨ds, hds⟩
      rw [hds.read]
      rfl
    · obtain ⟨ds, hds⟩ := h.nftText (by rw [hread]; rfl)
      rw [hds.read] at hread
      cases hread
      exact ⟨ds, hds, rfl, Nat.mod_eq_of_lt hds.number_lt⟩

/-- Texts with the same reading have the same digits. -/
theorem NftText.read_eq_iff (h : NftText s ds) (h' : NftText t es) :
    getNftAddressAndLevel s = getNftAddressAndLevel t ↔ ds = es := by
  rw [h.read, h'.read]
  constructor
  · intro heq
    obtain ⟨hA, hlevel⟩ := Prod.mk.inj (Res.ok.inj heq)
    have hlen : ds.length = es.length := by
      have := h.2.2
      have := h'.2.2
      omega
    have hnumber := congrArg BitVec.toNat hA
    rw [BitVec.toNat_ofNat, BitVec.toNat_ofNat, Nat.mod_eq_of_lt h.number_lt,
      Nat.mod_eq_of_lt h'.number_lt, hlen] at hnumber
    have hvalue := Nat.eq_of_mul_eq_mul_right (by positivity) hnumber
    rw [← toDigitsBE_ofDigitsBE fun d hd => h.2.1.lt hd, hvalue, hlen,
      toDigitsBE_ofDigitsBE fun d hd => h'.2.1.lt hd]
  · rintro rfl
    rfl

/-- A text is read exactly if and only if it has no other character after its prefix where the length
would be accepted. Of two accepted texts without other characters, the readings are equal if and only if
the texts are equal up to letter case. -/
theorem nft_text_exact_iff (s t : GoString) : (ReadExactly s ↔ HexOnly s) ∧
    (HexOnly s → HexOnly t → (getNftAddressAndLevel s).isOk = true →
      (getNftAddressAndLevel t).isOk = true →
      (getNftAddressAndLevel s = getNftAddressAndLevel t ↔
        s.map Char.toLower = t.map Char.toLower)) := by
  refine ⟨readExactly_iff, fun hs ht hoks hokt => ?_⟩
  obtain ⟨ds, hds⟩ := hs.nftText hoks
  obtain ⟨es, hes⟩ := ht.nftText hokt
  have hprefix : ∀ {u : GoString}, has0xPrefix u = true →
      u.map Char.toLower = '0' :: 'x' :: (u.drop 2).map Char.toLower := by
    intro u hu
    obtain ⟨x, digits, rfl, rfl | rfl⟩ := exists_of_has0xPrefix hu <;> rfl
  rw [hds.read_eq_iff hes, hprefix hds.1, hprefix hes.1, List.cons.injEq, List.cons.injEq,
    hds.2.1.map_toLower_eq_iff hes.2.1]
  simp only [true_and]

/-- `0xAb` and `0Xab` name the same NFT of level 38. -/
theorem nft_text_exact_ab : ReadExactly "0xAb".toList ∧
    getNftAddressAndLevel "0xAb".toList = getNftAddressAndLevel "0Xab".toList :=
  have hA : HexOnly "0xAb".toList := fun _ _ => List.all_eq_true.mp (by decide)
  have ha : HexOnly "0Xab".toList := fun _ _ => List.all_eq_true.mp (by decide)
  ⟨(nft_text_exact_iff _ []).1.mpr hA,
    ((nft_text_exact_iff _ _).2 hA ha (by decide) (by decide)).mpr (by decide)⟩

/-- `0xg` is accepted as the NFT of level 39 at the zero address. -/
theorem bad_digit_accepted : getNftAddressAndLevel "0xg".toList = .ok (0, 39) ∧
    ¬ ReadExactly "0xg".toList := by
  refine ⟨by decide +kernel, fun h => ?_⟩
  have hg := readExactly_iff.mp h (by decide) (by decide) 'g' (by decide)
  exact absurd hg (by decide)

end Core

end Wormholes
