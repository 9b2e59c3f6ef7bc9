import Wormholes.Consensus.QbftTypes
import Wormholes.Laws.Common.Encoding

/-!
# Laws.Consensus.QbftTypes — messages read back, and what a signature says

Encoding a message and decoding it gives the message without its sources: the two halves meet at the
message's item, and every stream decoder has an equation on the item it is for, with anything after
it. A ROUND-CHANGE reads back if it has both a prepared round and a digest or neither
(`SignedRoundChangePayload.Whole`), since only both are encoded.

The bytes that are signed determine a message's code, sequence and round and the content the signature
covers, across all kinds of messages.
-/

namespace Wormholes.Consensus.Qbft.Node

open Lib Common Rlp

variable {P : Type} {C : BlockCodec P}
variable {m : RoundChange P} {p : SignedRoundChangePayload} {bs : List ℕ}

/-! ## Messages without their sources -/

def Prepare.unsourced (p : Prepare) : Prepare := { p with source := 0 }

def Commit.unsourced (m : Commit) : Commit := { m with source := 0 }

def SignedRoundChangePayload.unsourced (p : SignedRoundChangePayload) : SignedRoundChangePayload :=
  { p with source := 0 }

def Preprepare.unsourced (m : Preprepare P) : Preprepare P :=
  { m with
    source := 0
    justificationRoundChanges := m.justificationRoundChanges.map SignedRoundChangePayload.unsourced
    justificationPrepares := m.justificationPrepares.map Prepare.unsourced }

def RoundChange.unsourced (m : RoundChange P) : RoundChange P :=
  { m with source := 0, justification := m.justification.map Prepare.unsourced }

/-- A message as `Decode` returns it: no source is set, neither its own nor in its justification. -/
def Message.unsourced : Message P → Message P
  | .preprepare m => .preprepare m.unsourced
  | .prepare m => .prepare m.unsourced
  | .commit m => .commit m.unsourced
  | .roundChange m => .roundChange m.unsourced

/-! ## Messages that can be encoded whole -/

/-- The payload has a prepared round and a digest, or neither. -/
def SignedRoundChangePayload.Whole (p : SignedRoundChangePayload) : Prop :=
  p.preparedRound = none ↔ p.preparedDigest = zeroHash

/-- The ROUND-CHANGE is unprepared and has no block, or prepared and has the block of its digest. -/
def RoundChange.Whole (C : BlockCodec P) (m : RoundChange P) : Prop :=
  (m.preparedRound = none ∧ m.preparedDigest = zeroHash ∧ m.preparedBlock = none) ∨
    ∃ round p, m.preparedRound = some round ∧ m.preparedDigest ≠ zeroHash ∧
      m.preparedBlock = some p ∧ C.hash p = m.preparedDigest

/-- The ROUND-CHANGE messages in a message are whole. -/
def Message.Whole (C : BlockCodec P) : Message P → Prop
  | .preprepare m => ∀ p ∈ m.justificationRoundChanges, p.Whole
  | .prepare _ => True
  | .commit _ => True
  | .roundChange m => m.Whole C

theorem RoundChange.Whole.payload (h : m.Whole C) : m.toSignedRoundChangePayload.Whole := by
  rcases h with ⟨hround, hdigest, -⟩ | ⟨round, p, hround, hdigest, -, -⟩
  · exact iff_of_true hround hdigest
  · exact iff_of_false (by simp [hround]) hdigest

theorem RoundChange.Whole.hash_eq (h : m.Whole C) {p : P} (hp : m.preparedBlock = some p) :
    C.hash p = m.preparedDigest := by
  rcases h with ⟨-, -, hnone⟩ | ⟨round, q, -, -, hq, hhash⟩
  · rw [hnone] at hp
    cases hp
  · rw [hq] at hp
    cases hp
    exact hhash

/-! ## Reading back -/

@[simp] theorem Prepare.ofItem_item (p : Prepare) : Prepare.ofItem p.item = some p.unsourced := by
  simp [Prepare.ofItem, Prepare.item, Prepare.payloadItem, Prepare.unsourced]

@[simp] theorem Commit.ofItem_item (m : Commit) : Commit.ofItem m.item = some m.unsourced := by
  simp [Commit.ofItem, Commit.item, Commit.payloadItem, Commit.unsourced]

/-- Values that read back up to a change read back so in a list. -/
theorem asListOf_map_eq {α : Type} {read : Item → Option α} {write : α → Item} {f : α → α}
    {as : List α} (h : ∀ a ∈ as, read (write a) = some (f a)) :
    asListOf read (.list (as.map write)) = some (as.map f) := by
  rw [asListOf]
  induction as with
  | nil => rfl
  | cons a as ih =>
    simp [h a List.mem_cons_self, ih fun b hb => h b (List.mem_cons_of_mem a hb)]

theorem asListOf_prepares (ps : List Prepare) :
    asListOf Prepare.ofItem (.list (ps.map Prepare.item)) = some (ps.map Prepare.unsourced) :=
  asListOf_map_eq fun p _ => p.ofItem_item

/-- The list of the prepared round and digest, with its own end still to be read. -/
theorem decodePrepared_item (h : p.Whole) {items : List Item}
    (hitems : preparedItem p.prepared = .list items) (rest : List Item) (outer : Stream) :
    decodePrepared (encodeAll items).length (items :: rest :: outer) =
      some ((p.preparedRound, p.preparedDigest), [] :: rest :: outer) := by
  unfold SignedRoundChangePayload.prepared at hitems
  cases hround : p.preparedRound with
  | none =>
    have hdigest : p.preparedDigest = zeroHash := h.mp hround
    rw [hround] at hitems
    cases hitems
    rw [hdigest]
    rfl
  | some round =>
    have hdigest : p.preparedDigest ≠ zeroHash := fun hzero => by
      rw [h.mpr hzero] at hround
      cases hround
    simp only [hround, if_neg hdigest, preparedItem, Item.list.injEq] at hitems
    subst hitems
    have hpos := encodeAll_length_pos [nat round, hashItem p.preparedDigest] (by simp)
    rw [decodePrepared, if_pos hpos]
    rw [bind_eq_of_eq (a := round) (t := [hashItem p.preparedDigest] :: rest :: outer) (by simp)]
    rw [bind_eq_of_eq (a := p.preparedDigest) (t := [] :: rest :: outer) (by simp)]
    rfl

theorem within_decodePayload (h : p.Whole) :
    Decoder.within p.payloadItem decodePayload =
      some { p with source := 0, signature := [] } := by
  obtain ⟨items, hitems⟩ : ∃ items, preparedItem p.prepared = .list items := by
    cases p.prepared with
    | none => exact ⟨_, rfl⟩
    | some r => exact ⟨_, rfl⟩
  have hread : decodePayload [[p.payloadItem]] =
      some ({ p with source := 0, signature := [] }, [[]]) := by
    unfold SignedRoundChangePayload.payloadItem decodePayload
    rw [hitems, bind_eq_of_eq (list_cons _ _ _)]
    rw [bind_eq_of_eq (a := p.sequence) (t := [nat p.round, .list items] :: [[]]) (by simp)]
    rw [bind_eq_of_eq (a := p.round) (t := [.list items] :: [[]]) (by simp)]
    rw [bind_eq_of_eq (list_cons _ _ _), bind_eq_of_eq (decodePrepared_item h hitems _ _)]
    rw [bind_eq_of_eq (listEnd_nil _ _), bind_eq_of_eq (listEnd_nil _ _)]
    rfl
  rw [Decoder.within, hread]
  rfl

theorem decodeSignedPayload_item (h : p.Whole) (rest : List Item) (outer : Stream) :
    decodeSignedPayload ((p.item :: rest) :: outer) = some (p.unsourced, rest :: outer) := by
  unfold SignedRoundChangePayload.item decodeSignedPayload
  rw [bind_eq_of_eq (list_cons _ _ _), bind_eq_of_eq (raw_cons _ _ _), within_decodePayload h]
  rw [bind_eq_of_eq rfl]
  rw [bind_eq_of_eq (a := p.signature) (t := [] :: rest :: outer) (by simp)]
  rw [bind_eq_of_eq (listEnd_nil _ _)]
  rfl

theorem SignedRoundChangePayload.ofItem_item (h : p.Whole) :
    SignedRoundChangePayload.ofItem p.item = some p.unsourced := by
  rw [SignedRoundChangePayload.ofItem, Decoder.within, decodeSignedPayload_item h]
  rfl

theorem decodeBlock_item {block : Option P} {digest : Hash}
    (h : ∀ p, block = some p → C.hash p = digest) (rest : List Item) (outer : Stream) :
    decodeBlock C digest ((blockItem C block :: rest) :: outer) = some (block, rest :: outer) := by
  unfold decodeBlock
  rw [bind_eq_of_eq (kindSize_cons _ _ _)]
  cases block with
  | none => rfl
  | some p =>
    obtain ⟨header, txs, uncles, hitem⟩ := C.item_eq p
    have hpos := encodeAll_length_pos [header, txs, uncles] (by simp)
    have hsize : contentSize (blockItem C (some p)) ≠ 0 := by
      simp only [blockItem, hitem, contentSize]
      omega
    have hvalue : Decoder.value C.ofItem ((blockItem C (some p) :: rest) :: outer) =
        some (p, rest :: outer) := by
      simp [blockItem, C.ofItem_item]
    rw [if_neg hsize, bind_eq_of_eq hvalue, if_neg (not_not.mpr (h p rfl))]
    rfl

theorem decodeJustification_item (ps : List Prepare) (rest : List Item) (outer : Stream) :
    decodeJustification ((.list (ps.map Prepare.item) :: rest) :: outer) =
      some (ps.map Prepare.unsourced, rest :: outer) := by
  unfold decodeJustification
  rw [bind_eq_of_eq (kindSize_cons _ _ _)]
  cases ps with
  | nil => rfl
  | cons p ps =>
    have hpos := encodeAll_length_pos ((p :: ps).map Prepare.item) (by simp)
    have hsize : contentSize (.list ((p :: ps).map Prepare.item)) ≠ 0 := by
      simp only [contentSize]
      omega
    rw [if_neg hsize, value_cons, asListOf_prepares]
    rfl

theorem RoundChange.ofItem_item (h : m.Whole C) :
    RoundChange.ofItem C (m.item C) = some m.unsourced := by
  have hblock : ∀ p, m.preparedBlock = some p →
      C.hash p = m.toSignedRoundChangePayload.unsourced.preparedDigest := fun p hp => h.hash_eq hp
  have hread : decodeRoundChange C [[m.item C]] = some (m.unsourced, [[]]) := by
    unfold RoundChange.item decodeRoundChange
    rw [bind_eq_of_eq (list_cons _ _ _), bind_eq_of_eq (decodeSignedPayload_item h.payload _ _)]
    rw [bind_eq_of_eq (decodeBlock_item hblock _ _)]
    rw [bind_eq_of_eq (decodeJustification_item _ _ _), bind_eq_of_eq (listEnd_nil _ _)]
    rfl
  rw [RoundChange.ofItem, Decoder.within, hread]
  rfl

theorem Preprepare.ofItem_item {m : Preprepare P} (h : ∀ p ∈ m.justificationRoundChanges, p.Whole) :
    Preprepare.ofItem C (m.item C) = some m.unsourced := by
  have hroundChanges : asListOf SignedRoundChangePayload.ofItem
      (.list (m.justificationRoundChanges.map SignedRoundChangePayload.item)) =
        some (m.justificationRoundChanges.map SignedRoundChangePayload.unsourced) :=
    asListOf_map_eq fun p hp => SignedRoundChangePayload.ofItem_item (h p hp)
  simp [Preprepare.ofItem, Preprepare.item, Preprepare.payloadItem, C.ofItem_item, hroundChanges,
    asListOf_prepares, Preprepare.unsourced]

/-- A message reads back from its encoding. -/
theorem decode_of_encode {m : Message P} (h : m.Whole C) (henc : m.encode C = some bs) :
    decode C m.code bs = .ok m.unsourced := by
  have hdata := decodeBytes_of_encodeToBytes henc
  unfold decode
  rw [hdata]
  cases m with
  | preprepare m =>
    show orError ((Preprepare.ofItem C (m.item C)).map Message.preprepare) _ = _
    rw [Preprepare.ofItem_item h]
    rfl
  | prepare m =>
    show orError ((Prepare.ofItem m.item).map Message.prepare) _ = _
    rw [Prepare.ofItem_item]
    rfl
  | commit m =>
    show orError ((Commit.ofItem m.item).map Message.commit) _ = _
    rw [Commit.ofItem_item]
    rfl
  | roundChange m =>
    show orError ((RoundChange.ofItem C (m.item C)).map Message.roundChange) _ = _
    rw [RoundChange.ofItem_item h]
    rfl

/-- The bytes to sign do not depend on the sources. -/
theorem encodePayloadForSigning_unsourced (m : Message P) :
    m.unsourced.encodePayloadForSigning C = m.encodePayloadForSigning C := by
  cases m <;> rfl

/-! ## What is signed -/

theorem nat_injective : Function.Injective nat := by
  intro n n' h
  have hread := congrArg asNat h
  simpa using hread

theorem hashItem_injective : Function.Injective hashItem := by
  intro r r' h
  have hread := congrArg asHash h
  simpa using hread

theorem codecItem_injective (C : BlockCodec P) : Function.Injective C.item := by
  intro p p' h
  have hread := congrArg C.ofItem h
  rw [C.ofItem_item, C.ofItem_item] at hread
  exact Option.some.inj hread

theorem preparedItem_injective : Function.Injective preparedItem := by
  intro r r' h
  cases r with
  | none =>
    cases r' with
    | none => rfl
    | some r' => simp [preparedItem] at h
  | some r =>
    cases r' with
    | none => simp [preparedItem] at h
    | some r' =>
      simp only [preparedItem, Item.list.injEq, List.cons.injEq, and_true] at h
      exact congrArg some (Prod.ext (nat_injective h.1) (hashItem_injective h.2))

/-- Bytes that encode two items encode one. -/
theorem item_eq_of_encodeToBytes {x y : Item} (hx : encodeToBytes x = some bs)
    (hy : encodeToBytes y = some bs) : x = y := by
  have hread := (decodeBytes_of_encodeToBytes hx).symm.trans (decodeBytes_of_encodeToBytes hy)
  exact Option.some.inj hread

/-- Messages of one code and payload say the same. -/
theorem content_eq_of_payloadItem {m m' : Message P} (hcode : m.code = m'.code)
    (h : m.payloadItem C = m'.payloadItem C) :
    m.common.sequence = m'.common.sequence ∧ m.common.round = m'.common.round ∧
      m.content = m'.content := by
  cases m with
  | preprepare m =>
    cases m' with
    | preprepare m' =>
      simp only [Message.payloadItem, Preprepare.payloadItem, Item.list.injEq, List.cons.injEq,
        and_true] at h
      exact ⟨nat_injective h.1, nat_injective h.2.1,
        congrArg Content.preprepare (codecItem_injective C h.2.2)⟩
    | _ => cases hcode
  | prepare m =>
    cases m' with
    | prepare m' =>
      simp only [Message.payloadItem, Prepare.payloadItem, Item.list.injEq, List.cons.injEq,
        and_true] at h
      exact ⟨nat_injective h.1, nat_injective h.2.1,
        congrArg Content.prepare (hashItem_injective h.2.2)⟩
    | _ => cases hcode
  | commit m =>
    cases m' with
    | commit m' =>
      simp only [Message.payloadItem, Commit.payloadItem, Item.list.injEq, List.cons.injEq,
        Item.str.injEq, and_true] at h
      exact ⟨nat_injective h.1, nat_injective h.2.1,
        congrArg₂ Content.commit (hashItem_injective h.2.2.1) h.2.2.2⟩
    | _ => cases hcode
  | roundChange m =>
    cases m' with
    | roundChange m' =>
      simp only [Message.payloadItem, SignedRoundChangePayload.payloadItem, Item.list.injEq,
        List.cons.injEq, and_true] at h
      exact ⟨nat_injective h.1, nat_injective h.2.1,
        congrArg Content.roundChange (preparedItem_injective h.2.2)⟩
    | _ => cases hcode

/-- Signatures of different kinds of messages, views or contents are over different bytes. -/
theorem eq_of_encodePayloadForSigning {m m' : Message P}
    (hm : m.encodePayloadForSigning C = some bs) (hm' : m'.encodePayloadForSigning C = some bs) :
    m.code = m'.code ∧ m.common.sequence = m'.common.sequence ∧
      m.common.round = m'.common.round ∧ m.content = m'.content := by
  have hitem := item_eq_of_encodeToBytes hm hm'
  simp only [signingItem, Item.list.injEq, List.cons.injEq, and_true] at hitem
  have hcode := nat_injective hitem.1
  exact ⟨hcode, content_eq_of_payloadItem hcode hitem.2⟩

/-- Every message whose ROUND-CHANGE parts are whole reads back from its encoding, without its sources
and with the same bytes to sign; and the bytes to sign determine code, sequence, round and content of
a message of any kind. -/
theorem messages_read_back (C : BlockCodec P) :
    (∀ (m : Message P) (bs : List ℕ), m.Whole C → m.encode C = some bs →
      decode C m.code bs = .ok m.unsourced ∧
        m.unsourced.encodePayloadForSigning C = m.encodePayloadForSigning C) ∧
    ∀ (m m' : Message P) (bs : List ℕ), m.encodePayloadForSigning C = some bs →
      m'.encodePayloadForSigning C = some bs →
        m.code = m'.code ∧ m.common.sequence = m'.common.sequence ∧
          m.common.round = m'.common.round ∧ m.content = m'.content := by
  constructor
  · intro m bs hwhole henc
    exact ⟨decode_of_encode hwhole henc, encodePayloadForSigning_unsourced m⟩
  · intro m m' bs hm hm'
    exact eq_of_encodePayloadForSigning hm hm'

/-- Blocks are numbers, and the hash of one is its successor. -/
def plainBlocks : BlockCodec ℕ where
  hash := fun p => BitVec.ofNat 256 (p + 1)
  item := fun p => .list [nat p, .list [], .list []]
  ofItem
    | .list [header, .list [], .list []] => asNat header
    | _ => none
  ofItem_item := asNat_nat
  item_eq := fun _ => ⟨_, _, _, rfl⟩

/-- A PRE-PREPARE for round one with a prepared and an unprepared ROUND-CHANGE and a PREPARE. -/
def plainPreprepare : Message ℕ :=
  .preprepare
    { source := 1, sequence := 2, round := 1, signature := [1], proposal := 7
      justificationRoundChanges :=
        [{ source := 1, sequence := 2, round := 1, signature := [1], preparedRound := some 0,
           preparedDigest := 8 },
         { source := 2, sequence := 2, round := 1, signature := [2], preparedRound := none,
           preparedDigest := zeroHash }]
      justificationPrepares := [{ source := 1, sequence := 2, round := 0, signature := [1], digest := 8 }] }

/-- A PRE-PREPARE whose justification has a ROUND-CHANGE and a PREPARE message. -/
theorem messages_read_back_preprepare :
    ∃ bs, plainPreprepare.encode plainBlocks = some bs ∧
      decode plainBlocks preprepareCode bs = .ok plainPreprepare.unsourced := by
  have hwhole : plainPreprepare.Whole plainBlocks := by
    intro p hp
    rcases List.mem_cons.mp hp with rfl | hp
    · exact iff_of_false (by simp) (by decide)
    · rw [List.mem_singleton.mp hp]
      exact iff_of_true rfl rfl
  obtain ⟨bs, hbs⟩ : ∃ bs, plainPreprepare.encode plainBlocks = some bs :=
    Option.isSome_iff_exists.mp (by decide +kernel)
  exact ⟨bs, hbs, ((messages_read_back plainBlocks).1 plainPreprepare bs hwhole hbs).1⟩

end Wormholes.Consensus.Qbft.Node
