import Wormholes.Laws.Vm.Stack

/-!
# Laws.Vm.Metering — the memory of the NFT opcodes and who pays for it

An opcode with a memory size in its table entry pays for the memory it touches before it runs, so
along a run the price of the memory plus the gas left never grows. The NFT opcodes have no memory
size. `NTOKENURI`, `NNAME` and `NSYMBOL` grow the memory themselves, unpaid, and write at `0x40`
and at the free-memory pointer whether or not the memory reaches that far; `NMINT` reads a text at
an offset nobody checked. `Fits` is exactly when an opcode stays within memory that is there.
-/

namespace Wormholes.Vm

open Lib

variable {m m' : Memory}
variable {off n w : ℕ}
variable {size offset len w' : ℕ} {data : List ℕ} {st : Stack} {read : StateDB → Address → GoString}

/-! ## Texts written to memory -/

/-- The free-memory pointer, as the opcodes read it from a memory of at least `0x60` bytes. -/
def freePointer (m : Memory) : ℕ := (Word.ofBytes ((m.store.drop 0x40).take 32)).uint64

/-- The memory already holds the pointer's own word and the place for a text of `len` bytes. -/
def TextFits (m : Memory) (len : ℕ) : Prop :=
  0x60 ≤ m.len ∧ freePointer m + (len / 32 + 2) * 32 ≤ m.len

theorem getPtr_pointer (h : 0x60 ≤ m.len) :
    m.getPtr 0x40 32 = .ok ((m.store.drop 0x40).take 32) := by
  unfold Memory.getPtr
  rw [if_neg (by decide), if_pos (by omega)]
  exact slice_eq_ok.mpr ⟨⟨by decide, by decide, by omega⟩, rfl⟩

theorem write_ok (value : List ℕ) (hin : off + size ≤ m.len) (hlen : m.len < 2 ^ 64) :
    ∃ m', m.write off size value = .ok m' ∧ m'.len = m.len := by
  have hoff : off < 2 ^ 64 := by omega
  have hsize : size < 2 ^ 64 := by omega
  have hok : m.write off size value = .ok _ := (write_eq_ok hoff hsize hlen).mpr ⟨hin, rfl⟩
  exact ⟨_, hok, (len_write hoff hsize hlen hok).2⟩

theorem set_ok (value : List ℕ) (hin : off + size ≤ m.len) (hlen : m.len < 2 ^ 64) :
    ∃ m', m.set off size value = .ok m' ∧ m'.len = m.len := by
  unfold Memory.set
  split
  · exact ⟨m, rfl, rfl⟩
  · exact write_ok value hin hlen

/-- A text that fits ends where `freeOffset` says, without wrapping. -/
theorem freeOffset_of_le (h : offset + (len / 32 + 2) * 32 ≤ n) (hn : n < 2 ^ 64) :
    freeOffset offset len = offset + (len / 32 + 2) * 32 :=
  Nat.mod_eq_of_lt (by omega)

theorem storeText_of_fits (hlen : m.len < 2 ^ 64) (h : TextFits m (data.length % 2 ^ 64)) :
    ∃ r, storeText m data = .ok r ∧ r.1.len = m.len := by
  obtain ⟨hptr, hin⟩ := h
  have hfree : freeOffset (freePointer m) (data.length % 2 ^ 64) ≤ m.len := by
    rw [freeOffset_of_le hin hlen]
    exact hin
  have hnext : (freePointer m + 32) % 2 ^ 64 + data.length % 2 ^ 64 ≤ m.len := by
    rw [Nat.mod_eq_of_lt (by omega)]
    omega
  obtain ⟨m₁, hset, hlen₁⟩ := write_ok
    (Word.bytes32 (BitVec.ofNat 256 (data.length % 2 ^ 64))) (show freePointer m + 32 ≤ m.len by omega)
    hlen
  obtain ⟨m₂, hdata, hlen₂⟩ := set_ok data (hlen₁ ▸ hnext) (hlen₁ ▸ hlen)
  obtain ⟨m₃, hpointer, hlen₃⟩ := write_ok
    (Word.bytes32 (BitVec.ofNat 256 (freeOffset (freePointer m) (data.length % 2 ^ 64))))
    (show 0x40 + 32 ≤ m₂.len by omega) (by omega)
  refine ⟨(m₃, freePointer m), ?_, hlen₃.trans (hlen₂.trans hlen₁)⟩
  unfold storeText
  refine bind_eq_ok.mpr ⟨_, getPtr_pointer hptr, ?_⟩
  refine bind_eq_ok.mpr ⟨_, resize_of_le hfree, ?_⟩
  refine bind_eq_ok.mpr ⟨_, hset, ?_⟩
  refine bind_eq_ok.mpr ⟨_, hdata, ?_⟩
  exact bind_eq_ok.mpr ⟨_, hpointer, rfl⟩

/-- A text whose pieces all lie within the memory fits, even where the end of it was computed
with wrapping arithmetic. -/
theorem end_le_of_pieces (hn : n < 2 ^ 63) (hword : offset + 32 ≤ n)
    (hdata : len = 0 ∨ (offset + 32) % 2 ^ 64 + len ≤ n) (hfree : freeOffset offset len ≤ n) :
    offset + (len / 32 + 2) * 32 ≤ n := by
  unfold freeOffset at hfree
  rw [Nat.mod_eq_of_lt (show offset + 32 < 2 ^ 64 by omega)] at hdata
  rwa [Nat.mod_eq_of_lt (by omega)] at hfree

theorem fits_of_storeText {r : Memory × ℕ} (hlen : m.len < 2 ^ 63) (h : storeText m data = .ok r)
    (hsame : r.1.len ≤ m.len) : TextFits m (data.length % 2 ^ 64) := by
  have hmod : data.length % 2 ^ 64 < 2 ^ 64 := Nat.mod_lt _ (by decide)
  unfold storeText at h
  obtain ⟨bs, hptr, h⟩ := bind_eq_ok.mp h
  obtain ⟨m₁, hresize, h⟩ := bind_eq_ok.mp h
  obtain ⟨m₂, hset, h⟩ := bind_eq_ok.mp h
  obtain ⟨m₃, hdata, h⟩ := bind_eq_ok.mp h
  obtain ⟨m₄, hpointer, h⟩ := bind_eq_ok.mp h
  cases h
  have hoff : (Word.ofBytes bs).uint64 < 2 ^ 64 := Nat.mod_lt _ (by decide)
  have hfree : freeOffset (Word.ofBytes bs).uint64 (data.length % 2 ^ 64) < 2 ^ 64 :=
    Nat.mod_lt _ (by decide)
  have hlen₁ := len_resize hresize
  have hlt₁ : m₁.len < 2 ^ 64 := by omega
  obtain ⟨hset, hlen₂⟩ := len_write hoff (by decide) hlt₁ hset
  obtain ⟨hdata, hlen₃⟩ := len_set (Nat.mod_lt _ (by decide)) hmod (by omega) hdata
  obtain ⟨hpointer, hlen₄⟩ := len_write (by decide) (by decide) (by omega) hpointer
  -- the writes keep the length and the resize does not lower it
  have hkept : m₁.len = m.len := by
    dsimp only at hsame
    omega
  have hreach : 0x60 ≤ m.len := by omega
  rw [getPtr_pointer hreach] at hptr
  cases hptr
  refine ⟨hreach, end_le_of_pieces hlen ?_ ?_ ?_⟩
  · exact hkept ▸ hset
  · exact hkept ▸ hlen₂ ▸ hdata
  · exact (le_max_right _ _).trans (hlen₁ ▸ hkept.le)

/-! ## Texts read from memory -/

theorem int64_of_lt (h : n < 2 ^ 63) : int64 n = n := by
  unfold int64 Int.bmod
  dsimp only
  split <;> omega

theorem int64_neg (h : 2 ^ 63 ≤ n) (hn : n < 2 ^ 64) : int64 n < 0 := by
  unfold int64 Int.bmod
  dsimp only
  split <;> omega

/-- The number in the thirty-two bytes at `off`, cut to sixty-four bits. -/
def wordAt (m : Memory) (off : ℕ) : ℕ := (Word.ofBytes ((m.store.drop off).take 32)).uint64

/-- The place `off` lies past the memory, or the memory holds the length word there and the text
behind it. A text is not looked at where the memory ends with its length word. -/
def UriFits (m : Memory) (off : ℕ) : Prop :=
  off < 2 ^ 63 ∧ (m.len ≤ off ∨
    off + 32 ≤ m.len ∧ (wordAt m off = 0 ∨ m.len ≤ off + 32 ∨ off + 32 + wordAt m off ≤ m.len))

theorem getCopy_zero (m : Memory) (off : ℤ) : m.getCopy off 0 = .ok [] := rfl

/-- When a copy of `n` bytes succeeds, for `n` a `uint64` read as an `int64`. -/
theorem getCopy_ok_iff (hn : n < 2 ^ 64) (hlen : m.len ≤ Memory.maxAlloc) :
    (∃ uri, m.getCopy off (int64 n) = .ok uri) ↔ n = 0 ∨ m.len ≤ off ∨ off + n ≤ m.len := by
  have halloc : Memory.maxAlloc = 2 ^ 48 := rfl
  rcases Nat.eq_zero_or_pos n with rfl | hpos
  · rw [int64_of_lt (by decide)]
    exact ⟨fun _ => .inl rfl, fun _ => ⟨[], rfl⟩⟩
  by_cases hsmall : n < 2 ^ 63
  · rw [int64_of_lt hsmall]
    unfold Memory.getCopy
    rw [if_neg (by omega)]
    split
    next hgt =>
      split
      next hbig =>
        refine ⟨fun ⟨_, h⟩ => (by cases h), fun h => ?_⟩
        omega
      next =>
        refine ⟨fun ⟨uri, h⟩ => ?_, fun h => ⟨_, slice_eq_ok.mpr ⟨?_, rfl⟩⟩⟩
        · have := (slice_eq_ok.mp h).1
          omega
        · omega
    next hle => exact ⟨fun _ => .inr (.inl (by omega)), fun _ => ⟨[], rfl⟩⟩
  · have hneg := int64_neg (Nat.le_of_not_lt hsmall) hn
    unfold Memory.getCopy
    rw [if_neg (by omega)]
    split
    next hgt =>
      rw [if_pos (.inl hneg)]
      refine ⟨fun ⟨_, h⟩ => (by cases h), fun h => ?_⟩
      omega
    next hle => exact ⟨fun _ => .inr (.inl (by omega)), fun _ => ⟨[], rfl⟩⟩

/-- Reading a text stays within the memory exactly when the text fits. -/
theorem readText_ok_iff (hoff : off < 2 ^ 64) (hlen : m.len ≤ Memory.maxAlloc) :
    (∃ uri, readText m (int64 off) = .ok uri) ↔ UriFits m off := by
  have halloc : Memory.maxAlloc = 2 ^ 48 := rfl
  by_cases hsmall : off < 2 ^ 63
  · by_cases hpast : m.len ≤ off
    · -- nothing is read, so the length is zero
      refine ⟨fun _ => ⟨hsmall, .inl hpast⟩, fun _ => ⟨[], bind_eq_ok.mpr ⟨[], ?_, ?_⟩⟩⟩
      · unfold Memory.getPtr
        rw [int64_of_lt hsmall, if_neg (by decide), if_neg (by omega)]
      · have hzero : (Word.ofBytes []).uint64 = 0 := rfl
        rw [hzero, int64_of_lt (show 0 < 2 ^ 63 by decide)]
        exact getCopy_zero m _
    · have hptr : m.getPtr (int64 off) 32 = m.slice off 32 := by
        unfold Memory.getPtr
        rw [int64_of_lt hsmall, if_neg (by decide), if_pos (by omega)]
      have hnext : int64 (int64 off + 32) = (off + 32 : ℕ) := by
        rw [int64_of_lt hsmall]
        exact int64_of_lt (show off + 32 < 2 ^ 63 by omega)
      have hcopy : (∃ uri, m.getCopy (off + 32 : ℕ) (int64 (wordAt m off)) = .ok uri) ↔ _ :=
        getCopy_ok_iff (Nat.mod_lt _ (by decide)) hlen
      unfold readText
      rw [hptr, hnext]
      constructor
      · rintro ⟨uri, h⟩
        obtain ⟨bs, hbs, huri⟩ := bind_eq_ok.mp h
        obtain ⟨hin, rfl⟩ := slice_eq_ok.mp hbs
        refine ⟨hsmall, .inr ⟨by omega, ?_⟩⟩
        exact hcopy.mp ⟨uri, huri⟩
      · rintro ⟨-, hbad | ⟨hin, hfits⟩⟩
        · exact absurd hbad hpast
        · obtain ⟨uri, huri⟩ := hcopy.mpr hfits
          exact ⟨uri, bind_eq_ok.mpr ⟨_, slice_eq_ok.mpr ⟨by omega, rfl⟩, huri⟩⟩
  · have hneg := int64_neg (Nat.le_of_not_lt hsmall) hoff
    refine ⟨?_, fun h => absurd h.1 hsmall⟩
    rintro ⟨uri, h⟩
    obtain ⟨bs, hbs, -⟩ := bind_eq_ok.mp h
    unfold Memory.getPtr at hbs
    rw [if_neg (by decide), if_pos (by omega)] at hbs
    have := (slice_eq_ok.mp hbs).1.1
    omega

/-! ## The price of memory -/

theorem totalFee_mono (h : w ≤ w') : totalFee w ≤ totalFee w' :=
  Nat.add_le_add (Nat.mul_le_mul_right 3 h) (Nat.div_le_div_right (Nat.mul_le_mul h h))

theorem totalFee_lt (h : w < w') : totalFee w < totalFee w' := by
  have hlin : w * 3 < w' * 3 := by omega
  exact Nat.add_lt_add_of_lt_of_le hlin (Nat.div_le_div_right (Nat.mul_le_mul h.le h.le))

/-- The most words `memoryGasCost` ever charges for. -/
def maxWords : ℕ := 0xFFFFFFFF

theorem totalFee_le_max (h : w ≤ maxWords) : totalFee w < 2 ^ 64 :=
  (totalFee_mono h).trans_lt (by decide)

/-- A memory of `w` whole words whose price is noted. -/
structure Memory.Priced (m : Memory) (w : ℕ) : Prop where
  len : m.len = 32 * w
  noted : m.lastGasCost = totalFee w
  le_max : w ≤ maxWords

theorem toWordSize_of_le (h : n ≤ 0x1FFFFFFFE0) : toWordSize n = (n + 31) / 32 := by
  unfold toWordSize
  exact if_neg (by omega)

/-- What a growth to `n` bytes is charged: nothing within the memory, and the difference of the
prices beyond it. -/
theorem memoryGasCost_eq_ok {fee : ℕ} (hm : m.Priced w) (h : memoryGasCost m n = .ok (fee, m')) :
    (n ≤ m.len ∧ fee = 0 ∧ m' = m) ∨
      ∃ k, w < k ∧ k ≤ maxWords ∧ k = (n + 31) / 32 ∧ fee + totalFee w = totalFee k ∧
        m' = { m with lastGasCost := totalFee k } := by
  have hlen := hm.len
  unfold memoryGasCost at h
  split at h
  next hzero =>
    cases h
    exact .inl ⟨by omega, rfl, rfl⟩
  next =>
    split at h
    next => cases h
    next hmax =>
      have hwords := toWordSize_of_le (Nat.le_of_not_lt hmax)
      have hbound : (n + 31) / 32 ≤ maxWords := by
        unfold maxWords
        omega
      dsimp only at h
      rw [hwords] at h
      split at h
      next hgrow =>
        cases h
        have hlt : w < (n + 31) / 32 := by omega
        have hfee := totalFee_lt hlt
        have hfit := totalFee_le_max hbound
        refine .inr ⟨_, hlt, hbound, rfl, ?_, rfl⟩
        rw [hm.noted]
        omega
      next hin =>
        cases h
        exact .inl ⟨by omega, rfl, rfl⟩

theorem memoryGasCost_len (hm : m.Priced w) : memoryGasCost m m.len = .ok (0, m) := by
  have hlen := hm.len
  have hle := hm.le_max
  unfold maxWords at hle
  unfold memoryGasCost
  split
  next => rfl
  next =>
    rw [if_neg (by omega), toWordSize_of_le (by omega)]
    exact if_neg (by omega)

/-- Growth that costs nothing is no growth. -/
theorem le_of_free (hm : m.Priced w) (h : memoryGasCost m n = .ok (0, m')) : n ≤ m.len := by
  rcases memoryGasCost_eq_ok hm h with ⟨hle, -, -⟩ | ⟨k, hlt, -, -, hfee, -⟩
  · exact hle
  · have := totalFee_lt hlt
    omega

/-! ## Metered frames -/

variable {K : Crypto} {readOnly : Bool} {c : Contract} {f g : Frame} {op : OpCode} {gas : ℕ}

/-- The memory is priced, and its price and the gas left are covered by the gas at the start. -/
def Metered (gas : ℕ) (f : Frame) : Prop := ∃ w, f.memory.Priced w ∧ totalFee w + f.gas ≤ gas

theorem metered_start (gas : ℕ) (db : StateDB) : Metered gas (.start gas db) :=
  ⟨0, ⟨rfl, rfl, Nat.zero_le _⟩, (Nat.zero_add gas).le⟩

theorem Metered.len_le (h : Metered gas f) : f.memory.len ≤ 0x1FFFFFFFE0 := by
  obtain ⟨w, hm, -⟩ := h
  have hlen := hm.len
  have hle := hm.le_max
  unfold maxWords at hle
  omega

theorem Metered.of_same (h : Metered gas f) (hlen : g.memory.len = f.memory.len)
    (hnoted : g.memory.lastGasCost = f.memory.lastGasCost) (hgas : g.gas ≤ f.gas) :
    Metered gas g := by
  obtain ⟨w, hm, hle⟩ := h
  exact ⟨w, ⟨hlen.trans hm.len, hnoted.trans hm.noted, hm.le_max⟩, by omega⟩

/-- Growth through `expand` is paid for. -/
theorem Metered.expand {memSize : ℕ} (h : Metered gas f) (hexp : expand f memSize = .ok g) :
    Metered gas g := by
  obtain ⟨w, hm, hle⟩ := h
  simp only [Vm.expand] at hexp
  split at hexp
  next => cases hexp
  next =>
    split at hexp
    next => cases hexp
    next fee m hcost =>
      obtain ⟨f', hused, hexp⟩ := bind_eq_ok.mp hexp
      obtain ⟨hpaid, rfl⟩ := useGas_eq_ok.mp hused
      obtain ⟨m', hresize, hexp⟩ := bind_eq_ok.mp hexp
      cases hexp
      dsimp only at hpaid hresize
      rcases memoryGasCost_eq_ok hm hcost with ⟨hin, rfl, rfl⟩ | ⟨k, hlt, hk, hwords, hfee, rfl⟩
      · rw [resize_of_le hin] at hresize
        cases hresize
        exact ⟨w, hm, hle⟩
      · have hlen := len_resize hresize
        change m'.len = max f.memory.len (toWordSize memSize * 32) at hlen
        have hnoted := (accesses_resize _ _).of_ok hresize
        have hold := hm.len
        refine ⟨k, ⟨?_, hnoted, hk⟩, ?_⟩
        · dsimp only
          omega
        · dsimp only
          omega

/-- The checks and charges of a turn keep a frame metered. -/
theorem Metered.prepare (h : Metered gas f) (hp : Prepared readOnly c f op g) : Metered gas g := by
  have hused : Metered gas { f with gas := f.gas - (jumpTable op).constantGas } :=
    h.of_same rfl rfl (Nat.sub_le _ _)
  have hgrown := hp.grown
  split at hgrown
  next =>
    subst hgrown
    exact hused
  next =>
    obtain ⟨_, _, hexp⟩ := hgrown
    exact hused.expand hexp

/-! ## What opcodes do to memory and gas -/

/-- The opcodes that access memory without a memory size in their table entry. -/
def OpCode.usesMemory : OpCode → Bool
  | .nTokenURI | .nName | .nSymbol | .nMint => true
  | _ => false

/-- The opcode stays within memory that is there. -/
def Fits (c : Contract) (op : OpCode) (f : Frame) : Prop :=
  match op with
  | .nTokenURI => TextFits f.memory ((f.db.getNFTMetaURL (f.stack.back 0).bytes20).length % 2 ^ 64)
  | .nName => TextFits f.memory ((f.db.getNFTName (f.stack.back 0).bytes20).length % 2 ^ 64)
  | .nSymbol => TextFits f.memory ((f.db.getNFTSymbol (f.stack.back 0).bytes20).length % 2 ^ 64)
  | .nMint => f.db.getExchangerFlag c.caller = true → UriFits f.memory (f.stack.back 0).uint64
  | _ => True

instance (m : Memory) (len : ℕ) : Decidable (TextFits m len) := inferInstanceAs (Decidable (_ ∧ _))

instance (m : Memory) (off : ℕ) : Decidable (UriFits m off) :=
  inferInstanceAs (Decidable (_ ∧ (_ ∨ _ ∧ (_ ∨ _ ∨ _))))

instance (c : Contract) (op : OpCode) (f : Frame) : Decidable (Fits c op f) :=
  match op with
  | .nTokenURI | .nName | .nSymbol => inferInstanceAs (Decidable (TextFits _ _))
  | .nMint => inferInstanceAs (Decidable (_ → UriFits _ _))
  | .stop | .pop | .push _ | .mload | .mstore | .mstore8 | .nBalanceOf | .nOwnerOf
  | .nTransferFrom | .nApprove | .nSetApprovalForAll | .nGetApproved | .nIsApprovedForAll
  | .nCreator | .nIsExist | .nRoyaltyRatio => .isTrue trivial

/-- The opcode leaves the gas and the size and price of the memory. -/
def SameMemory (f g : Frame) : Prop :=
  g.gas = f.gas ∧ g.memory.len = f.memory.len ∧ g.memory.lastGasCost = f.memory.lastGasCost

/-- If the computation returns, its value meets `Q`. -/
abbrev Returns {α : Type} (x : Except Stop α) (Q : α → Prop) : Prop := Ensures (fun _ => True) x Q

theorem returns_pop {α : Type} {k : Word × Stack → Except Stop α} {Q : α → Prop}
    (h : ∀ w st', st = w :: st' → Returns (k (w, st')) Q) : Returns (Stack.pop st >>= k) Q := by
  cases st with
  | nil => trivial
  | cons w st' => exact h w st' rfl

theorem returns_withRes (f g : Frame) (r : Res StateDB) (h : SameMemory f g) :
    Returns (g.withRes r) (SameMemory f) := by
  cases r with
  | ok db => exact h
  | err msg => trivial
  | panic => trivial

theorem returns_overwriteTop (read : StateDB → Address → Word) (f : Frame) :
    Returns (overwriteTop read f) (SameMemory f) :=
  returns_pop fun _ _ _ => ⟨rfl, rfl, rfl⟩

theorem returns_set32 {mStart : ℕ} {val : Word} (hoff : mStart < 2 ^ 64)
    (hlen : m.len < 2 ^ 64) :
    Returns (m.set32 mStart val) fun m' => m'.len = m.len ∧ m'.lastGasCost = m.lastGasCost := by
  unfold Memory.set32
  cases hw : m.write mStart 32 val.bytes32 with
  | error => trivial
  | ok m' => exact ⟨(len_write hoff (by decide) hlen hw).2, (accesses_write _ _ _ _).of_ok hw⟩

theorem returns_overwriteTopText (hlen : f.memory.len < 2 ^ 64)
    (hfits : TextFits f.memory ((read f.db (f.stack.back 0).bytes20).length % 2 ^ 64)) :
    Returns (overwriteTopText read f) (SameMemory f) := by
  refine returns_pop fun v st hst => ?_
  have hback : f.stack.back 0 = v := by simp [hst, Stack.back]
  rw [hback] at hfits
  have hchars : ((read f.db v.bytes20).map Char.toNat).length = (read f.db v.bytes20).length :=
    List.length_map _
  rw [← hchars] at hfits
  obtain ⟨r, hr, hsame⟩ := storeText_of_fits hlen hfits
  dsimp only
  rw [hr]
  exact ⟨rfl, hsame, (accesses_storeText _ _).of_ok hr⟩

theorem returns_opNMint (c : Contract) (f : Frame) : Returns (opNMint c f) (SameMemory f) := by
  refine returns_pop fun _ _ _ => returns_pop fun _ _ _ => returns_pop fun _ _ _ => ?_
  dsimp only
  split
  · refine Ensures.bind_eq (fun _ _ => trivial) fun uri _ => ?_
    exact ⟨rfl, rfl, rfl⟩
  · trivial

/-- An opcode that fits its memory leaves its size. -/
theorem returns_execute (hlen : f.memory.len < 2 ^ 64) (hfits : Fits c op f) :
    Returns (execute K c op f) (SameMemory f) := by
  cases op with
  | stop => trivial
  | push n => exact ⟨rfl, rfl, rfl⟩
  | pop => exact returns_pop fun _ _ _ => ⟨rfl, rfl, rfl⟩
  | mload =>
    refine returns_pop fun _ _ _ => Ensures.bind_eq (fun _ _ => trivial) fun bs _ => ?_
    exact ⟨rfl, rfl, rfl⟩
  | mstore =>
    refine returns_pop fun _ _ _ => returns_pop fun _ _ _ => ?_
    refine Ensures.bind (returns_set32 (Nat.mod_lt _ (by decide)) hlen) fun m' hm => ?_
    exact ⟨rfl, hm⟩
  | mstore8 =>
    refine returns_pop fun _ _ _ => returns_pop fun _ _ _ => ?_
    dsimp only
    split
    · exact ⟨rfl, List.length_set, rfl⟩
    · trivial
  | nTransferFrom =>
    refine returns_pop fun _ _ _ => returns_pop fun _ _ _ => returns_pop fun _ _ _ => ?_
    exact returns_withRes _ _ _ ⟨rfl, rfl, rfl⟩
  | nApprove =>
    refine returns_pop fun _ _ _ => returns_pop fun _ _ _ => ?_
    exact returns_withRes _ _ _ ⟨rfl, rfl, rfl⟩
  | nSetApprovalForAll =>
    exact returns_pop fun _ _ _ => returns_pop fun _ _ _ => ⟨rfl, rfl, rfl⟩
  | nIsApprovedForAll =>
    exact returns_pop fun _ _ _ => returns_pop fun _ _ _ => ⟨rfl, rfl, rfl⟩
  | nMint => exact returns_opNMint c f
  | nTokenURI => exact returns_overwriteTopText hlen hfits
  | nName => exact returns_overwriteTopText hlen hfits
  | nSymbol => exact returns_overwriteTopText hlen hfits
  | nBalanceOf =>
    unfold execute opNBalanceOf
    exact returns_overwriteTop _ f
  | nOwnerOf =>
    unfold execute opNOwnerOf
    exact returns_overwriteTop _ f
  | nGetApproved =>
    unfold execute opNGetApproved
    exact returns_overwriteTop _ f
  | nCreator =>
    unfold execute opNCreator
    exact returns_overwriteTop _ f
  | nIsExist =>
    unfold execute opNIsExist
    exact returns_overwriteTop _ f
  | nRoyaltyRatio =>
    unfold execute opNRoyaltyRatio
    exact returns_overwriteTop _ f

/-! ## Safe and paid opcodes -/

/-- The outcome `x` of an opcode that costs `cost` in frame `f` is no memory panic, and the memory
it leaves is paid for: the gas spent is `cost` and what `MSTORE` pays to reach that memory. -/
structure SafeAndPaid (f : Frame) (cost : ℕ) (x : Except Stop Frame) : Prop where
  safe : ∀ p : Fault, p.ofMemory → x ≠ fault p
  paid : ∀ g, x = .ok g → ∃ fee m', memoryGasCost f.memory g.memory.len = .ok (fee, m') ∧
    g.gas + cost + fee = f.gas

variable {cost : ℕ}

/-- A frame that has only paid `cost`. -/
def Frame.spend (f : Frame) (cost : ℕ) : Frame := { f with gas := f.gas - cost }

theorem SafeAndPaid.of_same {x : Except Stop Frame} (hm : Metered gas f) (hcost : cost ≤ f.gas)
    (hsafe : ∀ p : Fault, p.ofMemory → x ≠ fault p)
    (hsame : Returns x (SameMemory (f.spend cost))) : SafeAndPaid f cost x := by
  refine ⟨hsafe, fun g hg => ?_⟩
  obtain ⟨w, hw, -⟩ := hm
  obtain ⟨hgas, hlen, -⟩ := hsame.of_ok hg
  refine ⟨0, f.memory, ?_, ?_⟩
  · rw [hlen]
    exact memoryGasCost_len hw
  · rw [hgas]
    exact Nat.sub_add_cancel hcost

/-- An opcode that writes a text is safe and paid exactly when the text fits. -/
theorem overwriteTopText_iff (hm : Metered gas f) (hcost : cost ≤ f.gas)
    (hstack : 0 < f.stack.length) :
    SafeAndPaid f cost (overwriteTopText read (f.spend cost)) ↔
      TextFits f.memory ((read f.db (f.stack.back 0).bytes20).length % 2 ^ 64) := by
  have hlen := hm.len_le
  obtain ⟨v, st, hst⟩ := List.exists_cons_of_length_pos hstack
  have hback : f.stack.back 0 = v := by simp [hst, Stack.back]
  have hchars : ((read f.db v.bytes20).map Char.toNat).length = (read f.db v.bytes20).length :=
    List.length_map _
  have hexec : overwriteTopText read (f.spend cost) =
      (storeText f.memory ((read f.db v.bytes20).map Char.toNat) >>= fun r =>
        .ok { f.spend cost with stack := BitVec.ofNat 256 r.2 :: st, memory := r.1 }) := by
    simp only [overwriteTopText, Frame.spend, hst]
    rfl
  constructor
  · rintro ⟨hsafe, hpaid⟩
    rw [hexec] at hsafe hpaid
    have hacc := accesses_storeText f.memory ((read f.db v.bytes20).map Char.toNat)
    cases hr : storeText f.memory ((read f.db v.bytes20).map Char.toNat) with
    | error e =>
      rw [hr] at hacc hsafe
      obtain ⟨p, hp, rfl⟩ := hacc
      exact absurd rfl (hsafe p hp)
    | ok r =>
      rw [hr] at hpaid
      obtain ⟨fee, m', hfee, hgas⟩ := hpaid _ rfl
      obtain ⟨w, hw, -⟩ := hm
      -- the opcode spent its own price only, so growth was free
      have hzero : fee = 0 := by
        dsimp only [Frame.spend] at hgas
        omega
      subst hzero
      rw [hback, ← hchars]
      exact fits_of_storeText (by omega) hr (le_of_free hw hfee)
  · intro hfits
    have hfits' := hfits
    rw [hback, ← hchars] at hfits'
    obtain ⟨r, hr, -⟩ := storeText_of_fits (by omega) hfits'
    refine .of_same hm hcost (fun p _ => ?_) (returns_overwriteTopText (by
      dsimp only [Frame.spend]
      omega) hfits)
    rw [hexec, hr]
    exact fun h => nomatch h

/-- What `NMINT` does with its three operands. -/
theorem opNMint_cons {uri royalty toWord : Word} (hst : f.stack = uri :: royalty :: toWord :: st) :
    opNMint c (f.spend cost) =
      if f.db.getExchangerFlag c.caller then
        readText f.memory (int64 uri.uint64) >>= fun uriStr =>
          let r := f.db.createNFTByUser c.caller toWord.bytes20 (royalty.uint64 % 2 ^ 32)
            (uriStr.map Char.ofNat)
          .ok { f.spend cost with stack := Word.ofAddress r.2 :: st, db := r.1 }
      else .error (.error (.executionReverted "NFT Mint Failed: caller Not exchanger")) := by
  simp only [opNMint, Frame.spend, hst]
  rfl

/-- `NMINT` is safe and paid exactly when its caller may not mint or its text fits. -/
theorem opNMint_iff (hm : Metered gas f) (hcost : cost ≤ f.gas) (hstack : 3 ≤ f.stack.length) :
    SafeAndPaid f cost (opNMint c (f.spend cost)) ↔
      (f.db.getExchangerFlag c.caller = true → UriFits f.memory (f.stack.back 0).uint64) := by
  have hlen := hm.len_le
  have halloc : Memory.maxAlloc = 2 ^ 48 := rfl
  obtain ⟨uri, royalty, toWord, st, hst⟩ : ∃ a b d st, f.stack = a :: b :: d :: st := by
    match hf : f.stack with
    | a :: b :: d :: st => exact ⟨a, b, d, st, rfl⟩
    | [] | [_] | [_, _] => simp [hf] at hstack
  have hback : f.stack.back 0 = uri := by simp [hst, Stack.back]
  have hreads : (∃ text, readText f.memory (int64 uri.uint64) = .ok text) ↔ _ :=
    readText_ok_iff (Nat.mod_lt _ (by decide)) (by omega)
  have hsame := returns_opNMint c (f.spend cost)
  rw [hback, ← hreads]
  by_cases hflag : f.db.getExchangerFlag c.caller = true
  · constructor
    · rintro ⟨hsafe, -⟩ -
      rw [opNMint_cons hst, if_pos hflag] at hsafe
      have hacc := accesses_readText f.memory (int64 uri.uint64)
      cases htext : readText f.memory (int64 uri.uint64) with
      | error e =>
        rw [htext] at hacc hsafe
        obtain ⟨p, hp, rfl⟩ := hacc
        exact absurd rfl (hsafe p hp)
      | ok text => exact ⟨text, rfl⟩
    · intro hread
      obtain ⟨text, htext⟩ := hread hflag
      refine .of_same hm hcost (fun p _ => ?_) hsame
      rw [opNMint_cons hst, if_pos hflag, htext]
      exact fun h => nomatch h
  · refine ⟨fun _ h => absurd h hflag, fun _ => .of_same hm hcost (fun p _ => ?_) hsame⟩
    rw [opNMint_cons hst, if_neg hflag]
    exact fun h => nomatch h

/-! ## Runs -/

/-- Whatever opcode executes next in `f` fits its memory. -/
def FitsNext (readOnly : Bool) (c : Contract) (f : Frame) : Prop :=
  ∀ {op g}, prepare readOnly c f = .ok (op, g) → Fits c op f

/-- Whatever NFT opcode with a text executes next in `f` is safe and paid. -/
def MemorySafe (K : Crypto) (readOnly : Bool) (c : Contract) (f : Frame) : Prop :=
  ∀ {op g}, prepare readOnly c f = .ok (op, g) → op.usesMemory = true →
    SafeAndPaid f (jumpTable op).constantGas (execute K c op g)

/-- A step of a run that mixes the modelled opcodes with others. Another opcode charges for the
memory it touches and grows it the way `MSTORE` does, then spends what it likes and does anything
to the stack, to the state and within the memory. -/
inductive MemoryStep (K : Crypto) (readOnly : Bool) (c : Contract) : Frame → Frame → Prop
  | modelled {f g : Frame} (hstep : step K readOnly c f = .ok g) : MemoryStep K readOnly c f g
  | other {f e g : Frame} {memSize : ℕ} (hop : getOp c f.pc = none)
      (hexp : expand f memSize = .ok e) (hlen : g.memory.len = e.memory.len)
      (hnoted : g.memory.lastGasCost = e.memory.lastGasCost) (hgas : g.gas ≤ e.gas) :
      MemoryStep K readOnly c f g

/-- An opcode without a memory size starts with the memory the frame had. -/
theorem Prepared.eq_spend (h : Prepared readOnly c f op g) (hop : op.usesMemory = true) :
    g = f.spend (jumpTable op).constantGas := by
  have hgrown := h.grown
  have hnone : (jumpTable op).memorySize = none := by cases op <;> first | rfl | cases hop
  rw [hnone] at hgrown
  exact hgrown

theorem memorySafe_iff_fitsNext (hm : Metered gas f) :
    MemorySafe K readOnly c f ↔ FitsNext readOnly c f := by
  -- the opcodes that access memory, each with its own equivalence
  have hiff : ∀ {op g}, prepare readOnly c f = .ok (op, g) → op.usesMemory = true →
      (SafeAndPaid f (jumpTable op).constantGas (execute K c op g) ↔ Fits c op f) := by
    intro op g hprep hop
    have hp := prepare_eq_ok hprep
    have hmin := hp.min
    rw [hp.eq_spend hop]
    cases op with
    | nTokenURI => exact overwriteTopText_iff hm hp.gas hmin
    | nName => exact overwriteTopText_iff hm hp.gas hmin
    | nSymbol => exact overwriteTopText_iff hm hp.gas hmin
    | nMint => exact opNMint_iff hm hp.gas hmin
    | _ => cases hop
  constructor
  · intro hsafe op g hprep
    by_cases hop : op.usesMemory = true
    · exact (hiff hprep hop).mp (hsafe hprep hop)
    · cases op <;> trivial
  · intro hfits op g hprep hop
    exact (hiff hprep hop).mpr (hfits hprep)

/-- A step that fits keeps the account of what the memory has cost: every opcode but the four pays
for the words it adds, and those four add none where they fit. -/
theorem Metered.step (hm : Metered gas f) (hfits : FitsNext readOnly c f)
    (h : MemoryStep K readOnly c f g) : Metered gas g := by
  cases h with
  | modelled hstep =>
    obtain ⟨⟨op, f'⟩, hprep, hstep⟩ := bind_eq_ok.mp hstep
    obtain ⟨g', hexec, hstep⟩ := bind_eq_ok.mp hstep
    cases hstep
    have hp := prepare_eq_ok hprep
    have hm' := hm.prepare hp
    have hlen := hm'.len_le
    have hfits' : Fits c op f' := by
      by_cases hop : op.usesMemory = true
      · have hspend := hp.eq_spend hop
        have hf := hfits hprep
        subst hspend
        cases op <;> exact hf
      · cases op <;> trivial
    obtain ⟨hgas, hsame, hnoted⟩ := (returns_execute (by omega) hfits').of_ok hexec
    exact hm'.of_same hsame hnoted hgas.le
  | other hop hexp hlen hnoted hgas => exact (hm.expand hexp).of_same hlen hnoted hgas

/-- In a run whose steps all fit their memory, the memory of every frame is whole words whose
price the run has spent, and the next NFT opcode with a text is safe and paid exactly when it
fits. -/
theorem memory_safe_and_metered {gas : ℕ} {db : StateDB} {f : Frame}
    (run : Relation.ReflTransGen
      (fun f g => FitsNext readOnly c f ∧ MemoryStep K readOnly c f g) (.start gas db) f) :
    (∃ w, f.memory.len = 32 * w ∧ totalFee w + f.gas ≤ gas) ∧
      (MemorySafe K readOnly c f ↔ FitsNext readOnly c f) := by
  have hm : Metered gas f := by
    induction run with
    | refl => exact metered_start gas db
    | tail _ hstep ih => exact ih.step hstep.1 hstep.2
  refine ⟨?_, memorySafe_iff_fitsNext hm⟩
  obtain ⟨w, hw, hle⟩ := hm
  exact ⟨w, hw.len, hle⟩

/-- The opcode the frame stands at fits its memory. -/
def fitsHere (c : Contract) (f : Frame) : Bool := (getOp c f.pc).all fun op => decide (Fits c op f)

theorem fitsNext_of_fitsHere (h : fitsHere c f = true) : FitsNext readOnly c f := by
  intro op g hprep
  have hfetched := (prepare_eq_ok hprep).fetched
  unfold fitsHere at h
  rw [hfetched] at h
  exact of_decide_eq_true h

/-- The next `n` turns go through, fit their memory and lead to a frame that meets `Q`. -/
def FitsFor (K : Crypto) (readOnly : Bool) (c : Contract) (Q : Frame → Prop) : ℕ → Frame → Prop
  | 0, f => Q f
  | n + 1, f => fitsHere c f = true ∧
      Ensures (fun _ => False) (step K readOnly c f) (FitsFor K readOnly c Q n)

instance decidableFitsFor {Q : Frame → Prop} [DecidablePred Q] :
    ∀ n f, Decidable (FitsFor K readOnly c Q n f)
  | 0, _ => inferInstanceAs (Decidable (Q _))
  | n + 1, _ =>
    have : DecidablePred (FitsFor K readOnly c Q n) := decidableFitsFor n
    inferInstanceAs (Decidable (_ ∧ Ensures _ _ _))

theorem exists_run_of_fitsFor {Q : Frame → Prop} (h : FitsFor K readOnly c Q n f) :
    ∃ g, Relation.ReflTransGen (fun f g => FitsNext readOnly c f ∧ MemoryStep K readOnly c f g) f g ∧
      Q g := by
  induction n generalizing f with
  | zero => exact ⟨f, .refl, h⟩
  | succ n ih =>
    obtain ⟨hfits, hstep⟩ := h
    obtain ⟨f', hstep, hrest⟩ := hstep.exists_ok
    obtain ⟨g, hrun, hQ⟩ := ih hrest
    exact ⟨g, .head ⟨fitsNext_of_fitsHere hfits, .modelled hstep⟩ hrun, hQ⟩

/-- `PUSH1 0x80; PUSH1 0x40; MSTORE; PUSH1 0; PUSH1 0xa0; MSTORE; PUSH1 0; NTOKENURI`: a pointer and
room for an empty text behind it. -/
def uriWithRoom : Contract :=
  ⟨[0x60, 0x80, 0x60, 0x40, 0x52, 0x60, 0x00, 0x60, 0xa0, 0x52, 0x60, 0x00, 0xbd], 0⟩

theorem uriWithRoom_fits : FitsFor .trivial false uriWithRoom (fun f => f.pc = 13) 8
    (.start 200 (Genesis.small []).emptyState) := by
  decide +kernel

/-- A program that stores behind `0x80` first has room there for the text of its `NTOKENURI`: it runs to
its end, and the memory it has then is paid for. -/
theorem memory_safe_and_metered_with_room :
    ∃ f, f.pc = 13 ∧ (∃ w, f.memory.len = 32 * w ∧ totalFee w + f.gas ≤ 200) ∧
      (MemorySafe .trivial false uriWithRoom f ↔ FitsNext false uriWithRoom f) := by
  obtain ⟨f, hrun, hpc⟩ := exists_run_of_fitsFor uriWithRoom_fits
  exact ⟨f, hpc, memory_safe_and_metered hrun⟩

/-- `PUSH1 0; NTOKENURI`. -/
def uriOnEmpty : Contract := ⟨[0x60, 0x00, 0xbd], 0⟩

/-- `PUSH1 0x60; PUSH1 0x40; MSTORE; PUSH1 0; NTOKENURI`: the pointer is the end of the memory. -/
def uriAtEnd : Contract := ⟨[0x60, 0x60, 0x60, 0x40, 0x52, 0x60, 0x00, 0xbd], 0⟩

theorem uriOnEmpty_run : Ensures (fun _ => False)
    (runFor .trivial false uriOnEmpty 1 (.start 100 (Genesis.small []).emptyState)) fun f =>
    Ensures (· = Stop.panic .storeEmpty) (step .trivial false uriOnEmpty f) fun _ => False := by
  decide +kernel

theorem uriAtEnd_run : Ensures (fun _ => False)
    (runFor .trivial false uriAtEnd 4 (.start 100 (Genesis.small []).emptyState)) fun f =>
    Ensures (fun _ => False) (step .trivial false uriAtEnd f) fun g =>
      f.memory.len = 0x60 ∧ g.memory.len = 0xa0 ∧ f.gas = g.gas + gasExtStep := by
  decide +kernel

/-- On an empty memory `NTOKENURI` writes past the memory. With the pointer at the memory's end it
grows the memory by two words for nothing. -/
theorem nTokenURI_unsafe_and_unpaid :
    (∃ f, Reaches .trivial false uriOnEmpty (.start 100 (Genesis.small []).emptyState) f ∧
      step .trivial false uriOnEmpty f = fault .storeEmpty) ∧
    ∃ f g, Reaches .trivial false uriAtEnd (.start 100 (Genesis.small []).emptyState) f ∧
      step .trivial false uriAtEnd f = .ok g ∧
      f.memory.len = 0x60 ∧ g.memory.len = 0xa0 ∧ f.gas = g.gas + gasExtStep := by
  constructor
  · obtain ⟨f, hf, hnext⟩ := uriOnEmpty_run.exists_ok
    exact ⟨f, reaches_of_runFor hf, hnext.eq_error⟩
  · obtain ⟨f, hf, hnext⟩ := uriAtEnd_run.exists_ok
    obtain ⟨g, hg, hsizes⟩ := hnext.exists_ok
    exact ⟨f, g, reaches_of_runFor hf, hg, hsizes⟩

end Wormholes.Vm
