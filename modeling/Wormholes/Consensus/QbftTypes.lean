import Wormholes.Common.Encoding
import Wormholes.Consensus.Ibft
import Wormholes.Lib.RlpStream

/-!
# Consensus.QbftTypes — the messages of the QBFT core and their encodings

`consensus/istanbul/qbft/types`. A message is a payload, the signature over it, and what the signature
does not cover: the ROUND-CHANGE and PREPARE messages that justify a PRE-PREPARE, the block of a
prepared ROUND-CHANGE and the PREPARE messages for it. The source is not encoded; `verifySignatures`
sets it. A message's code belongs to its type.

Sequences and rounds are big integers that are neither nil nor negative. How a block is encoded, and
its hash, are a parameter.
-/

namespace Wormholes.Consensus.Qbft

open Lib Common Rlp
open Ibft (View)

variable {P : Type}

/-- The blocks of a chain: their hashes and their encodings, which decode to them. A block is encoded
as the list of its header, transactions and uncles. -/
structure BlockCodec (P : Type) where
  hash : P → Hash
  item : P → Item
  ofItem : Item → Option P
  ofItem_item : ∀ p, ofItem (item p) = some p
  item_eq : ∀ p, ∃ header txs uncles, item p = .list [header, txs, uncles]

namespace Node

/-! ## Messages -/

def preprepareCode : ℕ := 0x12
def prepareCode : ℕ := 0x13
def commitCode : ℕ := 0x14
def roundChangeCode : ℕ := 0x15

/-- What every message has: who signed it, filled in from the signature, the view and the signature. -/
structure CommonPayload where
  source : Address
  sequence : ℕ
  round : ℕ
  signature : List ℕ
deriving DecidableEq

def CommonPayload.view (m : CommonPayload) : View := ⟨m.sequence, m.round⟩

/-- A PREPARE message: its sender accepts the proposal of the digest. -/
structure Prepare extends CommonPayload where
  digest : Hash
deriving DecidableEq

/-- A COMMIT message, with a seal of the block for its header. -/
structure Commit extends CommonPayload where
  digest : Hash
  commitSeal : List ℕ
deriving DecidableEq

/-- The signed part of a ROUND-CHANGE, which names the block its sender has prepared, if there is one. -/
structure SignedRoundChangePayload extends CommonPayload where
  preparedRound : Option ℕ
  preparedDigest : Hash
deriving DecidableEq

/-- A proposal, with the messages that justify it in rounds after the first. -/
structure Preprepare (P : Type) extends CommonPayload where
  proposal : P
  justificationRoundChanges : List SignedRoundChangePayload
  justificationPrepares : List Prepare
deriving DecidableEq

/-- A ROUND-CHANGE with the prepared block itself and the PREPARE messages for it. -/
structure RoundChange (P : Type) extends SignedRoundChangePayload where
  preparedBlock : Option P
  justification : List Prepare
deriving DecidableEq

/-- `QBFTMessage`. -/
inductive Message (P : Type) where
  | preprepare (m : Preprepare P)
  | prepare (m : Prepare)
  | commit (m : Commit)
  | roundChange (m : RoundChange P)
deriving DecidableEq

namespace Message

def common : Message P → CommonPayload
  | .preprepare m => m.toCommonPayload
  | .prepare m => m.toCommonPayload
  | .commit m => m.toCommonPayload
  | .roundChange m => m.toCommonPayload

def code : Message P → ℕ
  | .preprepare _ => preprepareCode
  | .prepare _ => prepareCode
  | .commit _ => commitCode
  | .roundChange _ => roundChangeCode

end Message

/-! ## Encoding -/

section Encode

variable (C : BlockCodec P)

def Prepare.payloadItem (p : Prepare) : Item :=
  .list [nat p.sequence, nat p.round, hashItem p.digest]

/-- `Prepare.EncodeRLP`. -/
def Prepare.item (p : Prepare) : Item := .list [p.payloadItem, .str p.signature]

def Commit.payloadItem (m : Commit) : Item :=
  .list [nat m.sequence, nat m.round, hashItem m.digest, .str m.commitSeal]

/-- `Commit.EncodeRLP`. -/
def Commit.item (m : Commit) : Item := .list [m.payloadItem, .str m.signature]

/-- The prepared round and digest as they are encoded: both or nothing. -/
def SignedRoundChangePayload.prepared (p : SignedRoundChangePayload) : Option (ℕ × Hash) :=
  match p.preparedRound with
  | some round => if p.preparedDigest = zeroHash then none else some (round, p.preparedDigest)
  | none => none

def preparedItem : Option (ℕ × Hash) → Item
  | none => .list []
  | some (round, digest) => .list [nat round, hashItem digest]

/-- `encodePayloadInternal`. -/
def SignedRoundChangePayload.payloadItem (p : SignedRoundChangePayload) : Item :=
  .list [nat p.sequence, nat p.round, preparedItem p.prepared]

/-- `SignedRoundChangePayload.EncodeRLP`. -/
def SignedRoundChangePayload.item (p : SignedRoundChangePayload) : Item :=
  .list [p.payloadItem, .str p.signature]

def Preprepare.payloadItem (m : Preprepare P) : Item :=
  .list [nat m.sequence, nat m.round, C.item m.proposal]

/-- `Preprepare.EncodeRLP`. -/
def Preprepare.item (m : Preprepare P) : Item :=
  .list [.list [m.payloadItem C, .str m.signature],
    .list [.list (m.justificationRoundChanges.map SignedRoundChangePayload.item),
      .list (m.justificationPrepares.map Prepare.item)]]

/-- A block, or the empty list for a nil pointer. -/
def blockItem : Option P → Item
  | some p => C.item p
  | none => .list []

/-- `RoundChange.EncodeRLP`. -/
def RoundChange.item (m : RoundChange P) : Item :=
  .list [m.toSignedRoundChangePayload.item, blockItem C m.preparedBlock,
    .list (m.justification.map Prepare.item)]

namespace Message

def item : Message P → Item
  | .preprepare m => m.item C
  | .prepare m => m.item
  | .commit m => m.item
  | .roundChange m => m.item C

def payloadItem : Message P → Item
  | .preprepare m => m.payloadItem C
  | .prepare m => m.payloadItem
  | .commit m => m.payloadItem
  | .roundChange m => m.payloadItem

/-- `rlp.EncodeToBytes` of a message. -/
def encode (m : Message P) : Option (List ℕ) := encodeToBytes (m.item C)

end Message

/-- A payload with its code in front. -/
def signingItem (code : ℕ) (payload : Item) : Item := .list [nat code, payload]

/-- `EncodePayloadForSigning` of a message. -/
def Message.encodePayloadForSigning (m : Message P) : Option (List ℕ) :=
  encodeToBytes (signingItem m.code (m.payloadItem C))

/-- `EncodePayloadForSigning` of a ROUND-CHANGE payload alone. -/
def SignedRoundChangePayload.encodePayloadForSigning (p : SignedRoundChangePayload) :
    Option (List ℕ) :=
  encodeToBytes (signingItem roundChangeCode p.payloadItem)

/-- `EncodePayloadForSigning` of a PREPARE in a justification. -/
def Prepare.encodePayloadForSigning (p : Prepare) : Option (List ℕ) :=
  encodeToBytes (signingItem prepareCode p.payloadItem)

end Encode

/-- The content a signature covers, besides the code and the view. -/
inductive Content (P : Type) where
  | preprepare (proposal : P)
  | prepare (digest : Hash)
  | commit (digest : Hash) (commitSeal : List ℕ)
  | roundChange (prepared : Option (ℕ × Hash))
deriving DecidableEq

def Message.content : Message P → Content P
  | .preprepare m => .preprepare m.proposal
  | .prepare m => .prepare m.digest
  | .commit m => .commit m.digest m.commitSeal
  | .roundChange m => .roundChange m.prepared

/-! ## Decoding -/

section Decode

variable (C : BlockCodec P)

/-- `Prepare.DecodeRLP`. What is decoded has no source yet. -/
def Prepare.ofItem : Item → Option Prepare
  | .list [.list [sequence, round, digest], signature] => do
    let sequence ← asNat sequence
    let round ← asNat round
    let digest ← asHash digest
    let signature ← asStr signature
    some { source := 0, sequence, round, signature, digest }
  | _ => none

/-- `Commit.DecodeRLP`. -/
def Commit.ofItem : Item → Option Commit
  | .list [.list [sequence, round, digest, commitSeal], signature] => do
    let sequence ← asNat sequence
    let round ← asNat round
    let digest ← asHash digest
    let commitSeal ← asStr commitSeal
    let signature ← asStr signature
    some { source := 0, sequence, round, signature, digest, commitSeal }
  | _ => none

/-- The prepared round and digest inside their list, which the decoders skip when it is empty. -/
def decodePrepared (size : ℕ) : Decoder (Option ℕ × Hash) :=
  if 0 < size then do
    let preparedRound ← Decoder.value asNat
    let preparedDigest ← Decoder.value asHash
    return (some preparedRound, preparedDigest)
  else return (none, zeroHash)

/-- What both decoders of a ROUND-CHANGE do with the stream of its payload. -/
def decodePayload : Decoder SignedRoundChangePayload := do
  let _ ← Decoder.list
  let sequence ← Decoder.value asNat
  let round ← Decoder.value asNat
  let size ← Decoder.list
  let prepared ← decodePrepared size
  Decoder.listEnd
  Decoder.listEnd
  return { source := 0, sequence, round, signature := [],
           preparedRound := prepared.1, preparedDigest := prepared.2 }

/-- `SignedRoundChangePayload.DecodeRLP`, and how `RoundChange.DecodeRLP` starts. -/
def decodeSignedPayload : Decoder SignedRoundChangePayload := do
  let _ ← Decoder.list
  let encodedPayload ← Decoder.raw
  let p ← StateT.lift (Decoder.within encodedPayload decodePayload)
  let signature ← Decoder.value asStr
  Decoder.listEnd
  return { p with signature }

def SignedRoundChangePayload.ofItem (x : Item) : Option SignedRoundChangePayload :=
  Decoder.within x decodeSignedPayload

/-- The prepared block, whose hash must be the prepared digest. A value without content is skipped. -/
def decodeBlock (digest : Hash) : Decoder (Option P) := do
  let size ← Decoder.kindSize
  if size = 0 then
    let _ ← Decoder.raw
    return none
  else
    let p ← Decoder.value C.ofItem
    if C.hash p ≠ digest then failure
    return some p

def decodeJustification : Decoder (List Prepare) := do
  let size ← Decoder.kindSize
  if size = 0 then
    let _ ← Decoder.raw
    return []
  else Decoder.value (asListOf Prepare.ofItem)

/-- `RoundChange.DecodeRLP`. -/
def decodeRoundChange : Decoder (RoundChange P) := do
  let _ ← Decoder.list
  let p ← decodeSignedPayload
  let preparedBlock ← decodeBlock C p.preparedDigest
  let justification ← decodeJustification
  Decoder.listEnd
  return { p with preparedBlock, justification }

def RoundChange.ofItem (x : Item) : Option (RoundChange P) :=
  Decoder.within x (decodeRoundChange C)

/-- `Preprepare.DecodeRLP`. -/
def Preprepare.ofItem : Item → Option (Preprepare P)
  | .list [.list [.list [sequence, round, proposal], signature],
      .list [roundChanges, prepares]] => do
    let sequence ← asNat sequence
    let round ← asNat round
    let proposal ← C.ofItem proposal
    let signature ← asStr signature
    let justificationRoundChanges ← asListOf SignedRoundChangePayload.ofItem roundChanges
    let justificationPrepares ← asListOf Prepare.ofItem prepares
    some { source := 0, sequence, round, signature, proposal, justificationRoundChanges,
           justificationPrepares }
  | _ => none

/-- The errors of `Decode`. A malformed PREPARE is reported as a COMMIT. -/
inductive DecodeError where
  | failedDecodePreprepare
  | failedDecodeCommit
  | failedDecodeRoundChange
  | invalidMessage
deriving DecidableEq

/-- A decoded value or the error for its absence. -/
def orError {α : Type} (x : Option α) (err : DecodeError) : Except DecodeError α :=
  match x with
  | some a => .ok a
  | none => .error err

/-- Reads a message of a code, and nothing behind it. -/
def decode (code : ℕ) (data : List ℕ) : Except DecodeError (Message P) :=
  let x := decodeBytes data
  if code = preprepareCode then
    orError ((x.bind (Preprepare.ofItem C)).map .preprepare) .failedDecodePreprepare
  else if code = prepareCode then
    orError ((x.bind Prepare.ofItem).map .prepare) .failedDecodeCommit
  else if code = commitCode then
    orError ((x.bind Commit.ofItem).map .commit) .failedDecodeCommit
  else if code = roundChangeCode then
    orError ((x.bind (RoundChange.ofItem C)).map .roundChange) .failedDecodeRoundChange
  else .error .invalidMessage

end Decode

end Node

end Wormholes.Consensus.Qbft
