import Wormholes.Consensus.Istanbul
import Wormholes.Common.Encoding

/-!
# Consensus.ExtraData — a header's extra data as bytes, the hash rules and the seal writers

`core/types/istanbul.go`, `Header.Hash` of `core/types/block.go` and the writers of
`consensus/istanbul/ibft/engine`. The extra data of a header is a vanity of 32 bytes followed by the
encoding of an `IstanbulExtra`. Hashing a header clears the committed seals, signing it clears the
proposer's seal too: both decode the extra data, clear fields, encode it again and put it back behind
the vanity.

The hash of a header's encoding is a parameter; a nil header has a hash too, since `sigHash` encodes
what filtering returns without looking. A header's numbers are not nil. Encoding fails for a content
of `2 ^ 64` bytes and more, which no head can announce.
-/

namespace Wormholes.Consensus

open Lib Common Rlp

/-- A header with its extra data as bytes. -/
structure RawHeader where
  parentHash : List ℕ
  uncleHash : List ℕ
  coinbase : Address
  root : List ℕ
  txHash : List ℕ
  receiptHash : List ℕ
  bloom : List ℕ
  difficulty : ℕ
  number : ℕ
  gasLimit : ℕ
  gasUsed : ℕ
  time : ℕ
  extra : List ℕ
  mixDigest : List ℕ
  nonce : List ℕ
  baseFee : Option ℕ
deriving DecidableEq

/-- Why extra data is refused: it is shorter than the vanity, it is no encoding, the seal to write
has no multiple of 65 bytes, or there are no committed seals of 65 bytes each. -/
inductive ExtraError where
  | invalidIstanbulHeaderExtra
  | rlp
  | invalidSignature
  | invalidCommittedSeals
deriving DecidableEq

/-! ## Encodings -/

def IstanbulExtra.item (e : IstanbulExtra) : Item :=
  .list [.list (e.validators.map addressItem), .str e.proposerSeal,
    .list (e.committedSeal.map .str), .list (e.beneficiaryAddr.map addressItem)]

def IstanbulExtra.ofItem : Item → Option IstanbulExtra
  | .list [validators, proposerSeal, committedSeal, beneficiaryAddr] => do
    let validators ← asListOf asAddress validators
    let proposerSeal ← asStr proposerSeal
    let committedSeal ← asListOf asStr committedSeal
    let beneficiaryAddr ← asListOf asAddress beneficiaryAddr
    some ⟨validators, proposerSeal, committedSeal, beneficiaryAddr⟩
  | _ => none

structure ValidatorVote where
  recipientAddress : Address
  voteType : ℕ

/-- The extra data of the other engine. -/
structure QBFTExtra where
  vanityData : List ℕ
  validators : List Address
  vote : Option ValidatorVote
  round : ℕ
  committedSeal : List (List ℕ)

/-- A vote; none is an empty list. -/
def voteItem : Option ValidatorVote → Item
  | none => .list []
  | some vote => .list [addressItem vote.recipientAddress, nat vote.voteType]

def asVote : Item → Option (Option ValidatorVote)
  | .list [] => some none
  | .list [recipientAddress, voteType] => do
    let recipientAddress ← asAddress recipientAddress
    let voteType ← asUint 8 voteType
    some (some ⟨recipientAddress, voteType⟩)
  | _ => none

def QBFTExtra.item (e : QBFTExtra) : Item :=
  .list [.str e.vanityData, .list (e.validators.map addressItem), voteItem e.vote, nat e.round,
    .list (e.committedSeal.map .str)]

def QBFTExtra.ofItem : Item → Option QBFTExtra
  | .list [vanityData, validators, vote, round, committedSeal] => do
    let vanityData ← asStr vanityData
    let validators ← asListOf asAddress validators
    let vote ← asVote vote
    let round ← asUint 32 round
    let committedSeal ← asListOf asStr committedSeal
    some ⟨vanityData, validators, vote, round, committedSeal⟩
  | _ => none

/-! ## Hash rules -/

/-- `types.IstanbulExtraVanity`. -/
def istanbulExtraVanity : ℕ := 32

/-- `types.IstanbulExtraSeal`. -/
def istanbulExtraSeal : ℕ := 65

namespace RawHeader

variable (h : RawHeader)

def extractIstanbulExtra : Except ExtraError IstanbulExtra :=
  if h.extra.length < istanbulExtraVanity then .error .invalidIstanbulHeaderExtra
  else
    match (decodeBytes (h.extra.drop istanbulExtraVanity)).bind IstanbulExtra.ofItem with
    | some e => .ok e
    | none => .error .rlp

/-- A header with the encoding of `e` behind its vanity. -/
def withExtra (e : IstanbulExtra) : Except ExtraError RawHeader :=
  match encodeToBytes e.item with
  | some payload => .ok { h with extra := h.extra.take istanbulExtraVanity ++ payload }
  | none => .error .rlp

/-- Clears the committed seals and, unless it is kept, the proposer's seal. -/
def clear (keepSeal : Bool) (e : IstanbulExtra) : IstanbulExtra :=
  { e with proposerSeal := if keepSeal then e.proposerSeal else [], committedSeal := [] }

/-- `IstanbulFilteredHeader`; `none` is the nil header. -/
def istanbulFilteredHeader (keepSeal : Bool) : Option RawHeader :=
  match h.extractIstanbulExtra with
  | .error _ => none
  | .ok e => (h.withExtra (clear keepSeal e)).toOption

/-- `QBFTFilteredHeader`. -/
def qbftFilteredHeader : Option RawHeader :=
  match (decodeBytes h.extra).bind QBFTExtra.ofItem with
  | none => none
  | some e =>
    (encodeToBytes { e with committedSeal := [], round := 0 : QBFTExtra }.item).map fun payload =>
      { h with extra := payload }

def filteredHeader : Option RawHeader :=
  match h.extractIstanbulExtra with
  | .error _ => h.qbftFilteredHeader
  | .ok _ => h.istanbulFilteredHeader true

variable (rlpHash : Option RawHeader → List ℕ)

/-- `Header.Hash`. -/
def hash : List ℕ :=
  if h.mixDigest = istanbulDigest then
    match h.filteredHeader with
    | some istanbulHeader => rlpHash (some istanbulHeader)
    | none => rlpHash (some h)
  else rlpHash (some h)

/-- The hash a proposer signs. -/
def sigHash : List ℕ := rlpHash (h.istanbulFilteredHeader false)

/-! ## Seals -/

def writeSeal (sig : List ℕ) : Except ExtraError RawHeader :=
  if sig.length % istanbulExtraSeal ≠ 0 then .error .invalidSignature
  else
    match h.extractIstanbulExtra with
    | .error err => .error err
    | .ok e => h.withExtra { e with proposerSeal := sig }

def writeCommittedSeals (committedSeals : List (List ℕ)) : Except ExtraError RawHeader :=
  if committedSeals = [] ∨ ∃ sig ∈ committedSeals, sig.length ≠ istanbulExtraSeal then
    .error .invalidCommittedSeals
  else
    match h.extractIstanbulExtra with
    | .error err => .error err
    | .ok e => h.withExtra { e with committedSeal := committedSeals }

/-- A call of one of the two writers. -/
inductive SealWrite where
  | proposerSeal (sig : List ℕ)
  | committedSeals (sigs : List (List ℕ))

/-- A header after a call; a failed one leaves it as it was. -/
def SealWrite.apply : SealWrite → RawHeader
  | .proposerSeal sig => (h.writeSeal sig).toOption.getD h
  | .committedSeals sigs => (h.writeCommittedSeals sigs).toOption.getD h

end RawHeader

end Wormholes.Consensus
