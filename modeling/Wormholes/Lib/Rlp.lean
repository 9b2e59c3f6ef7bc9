import Wormholes.Lib.Digits

/-!
# Lib.Rlp — recursive length prefix encoding

An item is a byte string or a list of items. A single byte below `0x80` is its own encoding; any
other string and every list is a head followed by its content, and the head holds the content's
size: in the tag byte up to 55, in up to eight bytes of its own above. The decoder is strict: it
refuses a size that could have been written shorter and a single byte that needs no head.

Two laws make it a codec. `decode_encode_fuel`: what is encoded decodes to itself, whatever follows.
`encode_decode_fuel`: what is decoded was the item's encoding, so no two byte strings decode to one
item. A byte is a natural number here; sizes are read from numbers below 256 only. A size has eight
bytes at most, so the first law asks for a content shorter than `2 ^ 64`.

The decoder runs on fuel; twice the number of bytes is always enough. Nothing here names a program.
-/

namespace Wormholes.Lib.Rlp

variable {n : ℕ} {bs rest : List ℕ}

inductive Item where
  | str (bytes : List ℕ)
  | list (items : List Item)

/-! ## Encoding -/

/-- The head of a content of `n` bytes: `tag` is `0x80` for strings and `0xc0` for lists. -/
def head (tag n : ℕ) : List ℕ :=
  if n < 56 then [tag + n] else (tag + 55 + byteLength n) :: natBytes n

/-- A single byte that is its own encoding. -/
def single : List ℕ → Bool
  | [b] => b < 0x80
  | _ => false

def encodeStr (bytes : List ℕ) : List ℕ :=
  if single bytes then bytes else head 0x80 bytes.length ++ bytes

mutual
def encode : Item → List ℕ
  | .str bytes => encodeStr bytes
  | .list items => head 0xc0 (encodeAll items).length ++ encodeAll items
def encodeAll : List Item → List ℕ
  | [] => []
  | x :: xs => encode x ++ encodeAll xs
end

/-- The number of bytes of an item's content. -/
def size : Item → ℕ
  | .str bytes => bytes.length
  | .list items => (encodeAll items).length

/-- The encoding, when the size fits the eight bytes a head has for it. -/
def encodeToBytes (x : Item) : Option (List ℕ) := if size x < 2 ^ 64 then some (encode x) else none

/-! ## Decoding -/

/-- What a head announces. -/
inductive Kind where
  | byte (b : ℕ)
  | string (size : ℕ)
  | list (size : ℕ)

/-- A size of `n` bytes: without a leading zero, and not below 56. -/
def readSize (n : ℕ) (bs : List ℕ) : Option (ℕ × List ℕ) :=
  if (bs.take n).length = n ∧ (bs.take n).head? ≠ some 0 ∧ (∀ b ∈ bs.take n, b < 256) ∧
      56 ≤ ofDigitsBE 256 (bs.take n) then
    some (ofDigitsBE 256 (bs.take n), bs.drop n)
  else none

def readKind : List ℕ → Option (Kind × List ℕ)
  | [] => none
  | b :: bs =>
    if b < 0x80 then some (.byte b, bs)
    else if b < 0xb8 then some (.string (b - 0x80), bs)
    else if b < 0xc0 then (readSize (b - 0xb7) bs).map fun p => (.string p.1, p.2)
    else if b < 0xf8 then some (.list (b - 0xc0), bs)
    else if b < 0x100 then (readSize (b - 0xf7) bs).map fun p => (.list p.1, p.2)
    else none

mutual
/-- The first item of the input, and the input behind it. -/
def decodeItem : ℕ → List ℕ → Option (Item × List ℕ)
  | 0, _ => none
  | fuel + 1, bs =>
    match readKind bs with
    | none => none
    | some (.byte b, rest) => some (.str [b], rest)
    | some (.string n, rest) =>
      if n ≤ rest.length ∧ single (rest.take n) = false then
        some (.str (rest.take n), rest.drop n)
      else none
    | some (.list n, rest) =>
      if n ≤ rest.length then
        (decodeAll fuel (rest.take n)).map fun xs => (.list xs, rest.drop n)
      else none
/-- All items of a list's content. -/
def decodeAll : ℕ → List ℕ → Option (List Item)
  | _, [] => some []
  | 0, _ :: _ => none
  | fuel + 1, b :: bs =>
    match decodeItem fuel (b :: bs) with
    | none => none
    | some (x, rest) => (decodeAll fuel rest).map (x :: ·)
end

/-- Decodes an input that is one item and nothing else. -/
def decodeBytes (bs : List ℕ) : Option Item :=
  match decodeItem (2 * bs.length) bs with
  | some (x, []) => some x
  | _ => none

/-! ## Heads -/

theorem readSize_natBytes (hn : 56 ≤ n) (rest : List ℕ) :
    readSize (byteLength n) (natBytes n ++ rest) = some (n, rest) := by
  have htake : (natBytes n ++ rest).take (byteLength n) = natBytes n := by
    rw [← length_natBytes n]
    exact List.take_left
  have hdrop : (natBytes n ++ rest).drop (byteLength n) = rest := by
    rw [← length_natBytes n]
    exact List.drop_left
  rw [readSize, htake, hdrop, if_pos, ofDigitsBE_natBytes]
  refine ⟨length_natBytes n, head?_natBytes n, fun b hb => lt_of_mem_natBytes hb, ?_⟩
  rwa [ofDigitsBE_natBytes]

theorem readSize_eq_some {size : ℕ} (h : readSize n bs = some (size, rest)) :
    bs = natBytes size ++ rest ∧ byteLength size = n ∧ 56 ≤ size := by
  rw [readSize] at h
  split at h
  next hc =>
    obtain ⟨hlen, hhead, hbytes, hsize⟩ := hc
    simp only [Option.some.injEq, Prod.mk.injEq] at h
    obtain ⟨rfl, rfl⟩ := h
    have hnat := natBytes_ofDigitsBE hhead hbytes
    refine ⟨?_, ?_, hsize⟩
    · rw [hnat, List.take_append_drop]
    · rw [← length_natBytes, hnat, hlen]
  next => cases h

theorem byteLength_pos (h : 56 ≤ n) : 0 < byteLength n := by
  rw [byteLength, if_neg (by omega)]
  omega

theorem byteLength_le_eight (h : n < 2 ^ 64) : byteLength n ≤ 8 :=
  byteLength_le_iff.mpr (by simpa using h)

theorem readKind_head_string (hn : n < 2 ^ 64) (rest : List ℕ) :
    readKind (head 0x80 n ++ rest) = some (.string n, rest) := by
  rw [head]
  split
  next hsmall =>
    have h₁ : ¬(0x80 + n < 0x80) := by omega
    have h₂ : 0x80 + n < 0xb8 := by omega
    simp only [List.singleton_append, readKind, if_neg h₁, if_pos h₂, Nat.add_sub_cancel_left]
  next hlarge =>
    have hpos := byteLength_pos (Nat.not_lt.mp hlarge)
    have hle := byteLength_le_eight hn
    have h₁ : ¬(0x80 + 55 + byteLength n < 0x80) := by omega
    have h₂ : ¬(0x80 + 55 + byteLength n < 0xb8) := by omega
    have h₃ : 0x80 + 55 + byteLength n < 0xc0 := by omega
    have hsub : 0x80 + 55 + byteLength n - 0xb7 = byteLength n := by omega
    simp only [List.cons_append, readKind, if_neg h₁, if_neg h₂, if_pos h₃, hsub,
      readSize_natBytes (Nat.not_lt.mp hlarge), Option.map_some]

theorem readKind_head_list (hn : n < 2 ^ 64) (rest : List ℕ) :
    readKind (head 0xc0 n ++ rest) = some (.list n, rest) := by
  rw [head]
  split
  next hsmall =>
    have h₁ : ¬(0xc0 + n < 0x80) := by omega
    have h₂ : ¬(0xc0 + n < 0xb8) := by omega
    have h₃ : ¬(0xc0 + n < 0xc0) := by omega
    have h₄ : 0xc0 + n < 0xf8 := by omega
    simp only [List.singleton_append, readKind, if_neg h₁, if_neg h₂, if_neg h₃, if_pos h₄,
      Nat.add_sub_cancel_left]
  next hlarge =>
    have hpos := byteLength_pos (Nat.not_lt.mp hlarge)
    have hle := byteLength_le_eight hn
    have h₁ : ¬(0xc0 + 55 + byteLength n < 0x80) := by omega
    have h₂ : ¬(0xc0 + 55 + byteLength n < 0xb8) := by omega
    have h₃ : ¬(0xc0 + 55 + byteLength n < 0xc0) := by omega
    have h₄ : ¬(0xc0 + 55 + byteLength n < 0xf8) := by omega
    have h₅ : 0xc0 + 55 + byteLength n < 0x100 := by omega
    have hsub : 0xc0 + 55 + byteLength n - 0xf7 = byteLength n := by omega
    simp only [List.cons_append, readKind, if_neg h₁, if_neg h₂, if_neg h₃, if_neg h₄, if_pos h₅,
      hsub, readSize_natBytes (Nat.not_lt.mp hlarge), Option.map_some]

theorem head_of_readSize (tag : ℕ) {size : ℕ} (h : readSize n bs = some (size, rest)) (hn : n ≤ 8) :
    (tag + 55 + n) :: bs = head tag size ++ rest ∧ size < 2 ^ 64 := by
  obtain ⟨rfl, rfl, hsize⟩ := readSize_eq_some h
  refine ⟨?_, by simpa using byteLength_le_iff.mp hn⟩
  rw [head, if_neg (by omega)]
  rfl

/-- An input starts with the head that was read from it. -/
def Kind.Opens (bs rest : List ℕ) : Kind → Prop
  | .byte b => bs = b :: rest ∧ b < 0x80
  | .string n => bs = head 0x80 n ++ rest ∧ n < 2 ^ 64
  | .list n => bs = head 0xc0 n ++ rest ∧ n < 2 ^ 64

theorem opens_of_readKind {k : Kind} (h : readKind bs = some (k, rest)) : k.Opens bs rest := by
  cases bs with
  | nil => cases h
  | cons b bs =>
    simp only [readKind] at h
    split at h
    next hb =>
      cases h
      exact ⟨rfl, hb⟩
    next h₁ =>
    split at h
    next h₂ =>
      cases h
      refine ⟨?_, by omega⟩
      rw [head, if_pos (by omega), Nat.add_sub_cancel' (by omega)]
      rfl
    next h₂ =>
    split at h
    next h₃ =>
      obtain ⟨⟨size, tail⟩, hsize, hk⟩ := Option.map_eq_some_iff.mp h
      cases hk
      have hopen := head_of_readSize 0x80 hsize (by omega)
      rwa [show 0x80 + 55 + (b - 0xb7) = b by omega] at hopen
    next h₃ =>
    split at h
    next h₄ =>
      cases h
      refine ⟨?_, by omega⟩
      rw [head, if_pos (by omega), Nat.add_sub_cancel' (by omega)]
      rfl
    next h₄ =>
    split at h
    next h₅ =>
      obtain ⟨⟨size, tail⟩, hsize, hk⟩ := Option.map_eq_some_iff.mp h
      cases hk
      have hopen := head_of_readSize 0xc0 hsize (by omega)
      rwa [show 0xc0 + 55 + (b - 0xf7) = b by omega] at hopen
    next => cases h

theorem head_ne_nil (tag n : ℕ) : head tag n ≠ [] := by
  rw [head]
  split <;> exact List.cons_ne_nil _ _

theorem head_length_pos (tag n : ℕ) : 0 < (head tag n).length :=
  List.length_pos_iff.mpr (head_ne_nil tag n)

/-! ## Round trips -/

theorem single_eq_true_iff : single bs = true ↔ ∃ b, bs = [b] ∧ b < 0x80 := by
  rcases bs with _ | ⟨b, _ | ⟨c, bs⟩⟩
  · simp [single]
  · simp [single]
  · simp [single]

theorem encode_ne_nil (x : Item) : encode x ≠ [] := by
  cases x with
  | str bytes =>
    rw [encode, encodeStr]
    split
    next h =>
      obtain ⟨b, rfl, -⟩ := single_eq_true_iff.mp h
      exact List.cons_ne_nil _ _
    next => simp [head_ne_nil]
  | list items =>
    rw [encode]
    simp [head_ne_nil]

theorem encode_length_pos (x : Item) : 0 < (encode x).length :=
  List.length_pos_iff.mpr (encode_ne_nil x)

theorem size_le_length_encode (x : Item) : size x ≤ (encode x).length := by
  cases x with
  | str bytes =>
    rw [encode, encodeStr, size]
    split <;> simp
  | list items => simp [encode, size]

/-- What is encoded decodes to itself, and the input behind it is left. The items by induction on
the fuel: a list's content is shorter than the list, and so is what follows its first item. -/
theorem decode_encode_fuel (fuel : ℕ) :
    (∀ x, size x < 2 ^ 64 → 2 * (encode x).length ≤ fuel + 1 → ∀ rest,
        decodeItem fuel (encode x ++ rest) = some (x, rest)) ∧
      ∀ xs, (encodeAll xs).length < 2 ^ 64 → 2 * (encodeAll xs).length ≤ fuel →
        decodeAll fuel (encodeAll xs) = some xs := by
  induction fuel with
  | zero =>
    constructor
    · intro x _ hfuel
      have := encode_length_pos x
      omega
    · intro xs _ hfuel
      cases xs with
      | nil => simp [encodeAll, decodeAll]
      | cons x xs =>
        have := encode_length_pos x
        simp only [encodeAll, List.length_append] at hfuel
        omega
  | succ fuel ih =>
    obtain ⟨ihItem, ihAll⟩ := ih
    constructor
    · intro x hsize hfuel rest
      cases x with
      | str bytes =>
        rw [encode, encodeStr]
        split
        next h =>
          obtain ⟨b, rfl, hb⟩ := single_eq_true_iff.mp h
          simp [decodeItem, readKind, hb]
        next h =>
          rw [size] at hsize
          rw [List.append_assoc, decodeItem, readKind_head_string hsize]
          simp [h]
      | list items =>
        have hlen : (encode (.list items)).length =
            (head 0xc0 (encodeAll items).length).length + (encodeAll items).length := by
          rw [encode, List.length_append]
        have hhead := head_length_pos 0xc0 (encodeAll items).length
        rw [size] at hsize
        have hitems := ihAll items hsize (by omega)
        rw [encode, List.append_assoc, decodeItem, readKind_head_list hsize]
        simp [hitems]
    · intro xs hsize hfuel
      cases xs with
      | nil => simp [encodeAll, decodeAll]
      | cons x xs =>
        simp only [encodeAll, List.length_append] at hsize hfuel
        have hpos := encode_length_pos x
        have hx := ihItem x (by have := size_le_length_encode x; omega) (by omega) (encodeAll xs)
        have hxs := ihAll xs (by omega) (by omega)
        have hstep : ∀ bs, bs ≠ [] → decodeAll (fuel + 1) bs =
            (decodeItem fuel bs).bind fun p => (decodeAll fuel p.2).map (p.1 :: ·) := by
          intro bs hbs
          obtain ⟨b, bs, rfl⟩ := List.exists_cons_of_ne_nil hbs
          rw [decodeAll]
          cases decodeItem fuel (b :: bs) <;> rfl
        rw [encodeAll, hstep _ (by simp [encode_ne_nil]), hx]
        simp [hxs]

theorem decodeBytes_encode {x : Item} (h : size x < 2 ^ 64) : decodeBytes (encode x) = some x := by
  have hitem := (decode_encode_fuel (2 * (encode x).length)).1 x h (by omega) []
  rw [List.append_nil] at hitem
  rw [decodeBytes, hitem]

theorem decodeBytes_of_encodeToBytes {x : Item} (h : encodeToBytes x = some bs) :
    decodeBytes bs = some x := by
  rw [encodeToBytes] at h
  split at h
  next hsize =>
    cases h
    exact decodeBytes_encode hsize
  next => cases h

/-- What is decoded was the item's encoding, and its size fits a head. -/
theorem encode_decode_fuel (fuel : ℕ) :
    (∀ bs x rest, decodeItem fuel bs = some (x, rest) → bs = encode x ++ rest ∧ size x < 2 ^ 64) ∧
      ∀ bs xs, decodeAll fuel bs = some xs → bs = encodeAll xs := by
  induction fuel with
  | zero =>
    constructor
    · intro bs x rest h
      cases h
    · intro bs xs h
      cases bs with
      | nil => cases h; rfl
      | cons b bs => cases h
  | succ fuel ih =>
    obtain ⟨ihItem, ihAll⟩ := ih
    constructor
    · intro bs x rest h
      rw [decodeItem] at h
      cases hkind : readKind bs with
      | none =>
        rw [hkind] at h
        cases h
      | some p =>
        obtain ⟨k, tail⟩ := p
        have hopen := opens_of_readKind hkind
        rw [hkind] at h
        cases k with
        | byte b =>
          obtain ⟨rfl, hb⟩ := hopen
          cases h
          have hsingle : single [b] = true := single_eq_true_iff.mpr ⟨b, rfl, hb⟩
          refine ⟨?_, ?_⟩
          · rw [encode, encodeStr, if_pos hsingle]
            rfl
          · simp [size]
        | string n =>
          obtain ⟨rfl, hn⟩ := hopen
          obtain ⟨hc, hx⟩ := Option.ite_none_right_eq_some.mp h
          cases hx
          have hlen : (tail.take n).length = n := by
            rw [List.length_take]
            omega
          refine ⟨?_, by rw [size, hlen]; exact hn⟩
          rw [encode, encodeStr, if_neg (by simp [hc.2]), hlen, List.append_assoc,
            List.take_append_drop]
        | list n =>
          obtain ⟨rfl, hn⟩ := hopen
          obtain ⟨hle, hx⟩ := Option.ite_none_right_eq_some.mp h
          obtain ⟨xs, hxs, heq⟩ := Option.map_eq_some_iff.mp hx
          cases heq
          have hcontent := ihAll _ _ hxs
          have hlen : (encodeAll xs).length = n := by
            rw [← hcontent, List.length_take]
            omega
          refine ⟨?_, by rw [size, hlen]; exact hn⟩
          rw [encode, hlen, ← hcontent, List.append_assoc, List.take_append_drop]
    · intro bs xs h
      cases bs with
      | nil =>
        rw [decodeAll] at h
        cases h
        rfl
      | cons b bs =>
        rw [decodeAll] at h
        cases hitem : decodeItem fuel (b :: bs) with
        | none =>
          rw [hitem] at h
          cases h
        | some p =>
          obtain ⟨x, rest⟩ := p
          rw [hitem] at h
          obtain ⟨ys, hys, heq⟩ := Option.map_eq_some_iff.mp h
          cases heq
          obtain ⟨hbs, -⟩ := ihItem _ _ _ hitem
          rw [hbs, ihAll _ _ hys, encodeAll]

/-- The decoder is strict: it accepts an item's own encoding only. -/
theorem encodeToBytes_of_decodeBytes {x : Item} (h : decodeBytes bs = some x) :
    encodeToBytes x = some bs := by
  rw [decodeBytes] at h
  cases hitem : decodeItem (2 * bs.length) bs with
  | none =>
    rw [hitem] at h
    cases h
  | some p =>
    obtain ⟨y, rest⟩ := p
    rw [hitem] at h
    cases rest with
    | cons b rest => cases h
    | nil =>
      cases h
      obtain ⟨hbs, hsize⟩ := (encode_decode_fuel _).1 _ _ _ hitem
      rw [encodeToBytes, if_pos hsize, hbs, List.append_nil]

/-! ## Reading items as values -/

section

variable {α : Type*}

/-- An unsigned integer: its bytes without leading zeros. -/
def nat (n : ℕ) : Item := .str (natBytes n)

def bool (b : Bool) : Item := nat b.toNat

def asStr : Item → Option (List ℕ)
  | .str bytes => some bytes
  | .list _ => none

/-- A string of exactly `w` bytes. -/
def asFixed (w : ℕ) : Item → Option (List ℕ)
  | .str bytes => if bytes.length = w then some bytes else none
  | .list _ => none

/-- An integer is refused with a leading zero. -/
def asNat : Item → Option ℕ
  | .str bytes =>
    if bytes.head? ≠ some 0 ∧ ∀ b ∈ bytes, b < 256 then some (ofDigitsBE 256 bytes) else none
  | .list _ => none

/-- An integer of `w` bits. -/
def asUint (w : ℕ) (x : Item) : Option ℕ := (asNat x).filter (· < 2 ^ w)

def asBool (x : Item) : Option Bool :=
  match asUint 8 x with
  | some 0 => some false
  | some 1 => some true
  | _ => none

def asListOf (read : Item → Option α) : Item → Option (List α)
  | .str _ => none
  | .list items => items.mapM read

@[simp] theorem asStr_str (bytes : List ℕ) : asStr (.str bytes) = some bytes := rfl

theorem asFixed_str {w : ℕ} {bytes : List ℕ} (h : bytes.length = w) :
    asFixed w (.str bytes) = some bytes := if_pos h

@[simp] theorem asNat_nat (n : ℕ) : asNat (nat n) = some n := by
  have h : (natBytes n).head? ≠ some 0 ∧ ∀ b ∈ natBytes n, b < 256 :=
    ⟨head?_natBytes n, fun b hb => lt_of_mem_natBytes hb⟩
  rw [nat, asNat, if_pos h, ofDigitsBE_natBytes]

theorem asUint_nat {w : ℕ} (h : n < 2 ^ w) : asUint w (nat n) = some n := by
  simp [asUint, h]

@[simp] theorem asBool_bool (b : Bool) : asBool (bool b) = some b := by
  cases b
  · rw [asBool, bool, asUint_nat (by decide)]
    rfl
  · rw [asBool, bool, asUint_nat (by decide)]
    rfl

theorem asListOf_map {read : Item → Option α} {write : α → Item}
    (h : ∀ a, read (write a) = some a) (as : List α) :
    asListOf read (.list (as.map write)) = some as := by
  rw [asListOf]
  induction as with
  | nil => rfl
  | cons a as ih => simp [h a, ih]

end

end Wormholes.Lib.Rlp
