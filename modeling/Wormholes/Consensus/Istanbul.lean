import Wormholes.Chain.Machine

/-!
# Consensus.Istanbul — headers, their verification, preparation and block rewards

`consensus/istanbul/backend/engine.go` over the engine of `consensus/istanbul/ibft/engine`. A
header's extra data carries the validator list, the proposer's seal, the committed seals and the
accounts the block mints official NFTs for. Verification takes the validator set from the header it
verifies; preparation takes it, and the beneficiaries, from the parent's pools.

The hash of a header and signature recovery are parameters. `Header.rest` stands for the fields
that are hashed and that no function below reads. Extra data is held decoded: an error is the text
of the failed decoding. The choice of the `qbft` engine for a configured block number is left out.
-/

namespace Wormholes.Consensus

open Lib Common Core

/-- The decoded extra data of a header. -/
structure IstanbulExtra where
  validators : List Address
  proposerSeal : List ℕ
  committedSeal : List (List ℕ)
  beneficiaryAddr : List Address
deriving DecidableEq

structure Header where
  parentHash : List ℕ
  uncleHash : List ℕ
  coinbase : Address
  difficulty : ℕ
  number : ℕ
  time : ℕ
  mixDigest : List ℕ
  nonce : List ℕ
  extra : Except String IstanbulExtra
  rest : List ℕ

/-- Signature recovery, the hash of a header's encoding and the hash of no uncles. -/
structure Hashes extends Crypto where
  rlpHash : Header → List ℕ
  nilUncleHash : List ℕ

/-- What verification reads of the chain and the engine's configuration. -/
structure Engine where
  getHeader : List ℕ → ℕ → Option Header
  genesis : Header
  blockPeriod : ℕ
  allowedFutureBlockTime : ℕ

/-- `types.IstanbulDigest`. -/
def istanbulDigest : List ℕ :=
  hex2Bytes "63746963616c2062797a616e74696e65206661756c7420746f6c6572616e6365".toList

/-- `ibfttypes.MsgCommit`. -/
def msgCommit : ℕ := 2

namespace Header

/-- `types.IstanbulFilteredHeader`: no committed seals and, unless kept, no proposer seal. -/
def filtered (h : Header) (extra : IstanbulExtra) (keepSeal : Bool) : Header :=
  let extra : IstanbulExtra :=
    { extra with proposerSeal := if keepSeal then extra.proposerSeal else [], committedSeal := [] }
  { h with extra := .ok extra }

variable (K : Hashes)

/-- `Header.Hash`. Extra data that does not decode as Istanbul's is hashed as it is. -/
def hash (h : Header) : List ℕ :=
  if h.mixDigest = istanbulDigest then
    match h.extra with
    | .ok extra => K.rlpHash (h.filtered extra true)
    | .error _ => K.rlpHash h
  else K.rlpHash h

/-- `istanbul.GetSignatureAddress`. -/
def getSignatureAddress (data sig : List ℕ) : Except String Address :=
  K.sigToPub (K.keccak256 (data.map Char.ofNat)) sig

/-- The account that sealed a header as its proposer. -/
def author (h : Header) : Res Address :=
  match h.extra with
  | .error msg => .err msg
  | .ok extra =>
    match getSignatureAddress K (K.rlpHash (h.filtered extra false)) extra.proposerSeal with
    | .ok a => .ok a
    | .error msg => .err msg

/-- `PrepareCommittedSeal`. -/
def prepareCommittedSeal (hash : List ℕ) : List ℕ := hash ++ [msgCommit]

/-- The accounts of a list of seals of one message. -/
def sealers (data : List ℕ) : List (List ℕ) → Res (List Address)
  | [] => .ok []
  | sig :: sigs =>
    match getSignatureAddress K data sig with
    | .error _ => .err "invalid signature"
    | .ok a => sealers data sigs >>= fun as => .ok (a :: as)

/-- The accounts that committed to a header. -/
def signers (h : Header) : Res (List Address) :=
  match h.extra with
  | .error msg => .err msg
  | .ok extra => sealers K (prepareCommittedSeal (h.hash K)) extra.committedSeal

end Header

/-! ## Verification -/

/-- `F` of a validator set: a third of it, rounded up, less one. -/
def faulty (validators : List Address) : ℤ := ((validators.length + 2) / 3 : ℕ) - 1

/-- Whether a core still counts by the older formula: `Ceil2Nby3Block` is not configured, or the core
has a round state whose sequence is below it. -/
def beforeCeil2Nby3 (ceil2Nby3Block sequence : Option ℕ) : Bool :=
  match ceil2Nby3Block with
  | none => true
  | some block =>
    match sequence with
    | none => false
    | some sequence => sequence < block

/-- `QuorumSize`, of the `ibft` and of the `qbft` core. -/
def quorumSize (ceil2Nby3Block sequence : Option ℕ) (validators : List Address) : ℤ :=
  if beforeCeil2Nby3 ceil2Nby3Block sequence then 2 * faulty validators + 1
  else ((2 * validators.length + 2) / 3 : ℕ)

/-- The number of listed accounts when each can be removed from the set, else the error. -/
def countSeals : List Address → List Address → Res ℕ
  | _, [] => .ok 0
  | validators, a :: committers =>
    if a ∈ validators then countSeals (validators.erase a) committers >>= fun n => .ok (n + 1)
    else .err "invalid committed seals"

variable (K : Hashes) (E : Engine)

def verifySigner (h : Header) (validators : List Address) : Res Unit := do
  Res.require (h.number % 2 ^ 64 ≠ 0) "unknown block"
  let signer ← h.author K
  Res.require (signer ∈ validators) "unauthorized"

def verifyCommittedSeals (h : Header) (validators : List Address) : Res Unit :=
  if h.number % 2 ^ 64 = 0 then .ok ()
  else
    match h.extra with
    | .error msg => .err msg
    | .ok extra => do
      Res.require (extra.committedSeal ≠ []) "zero committed seals"
      let committers ← h.signers K
      let validSeal ← countSeals validators committers
      Res.require ((validSeal : ℤ) > faulty validators) "invalid committed seals"

/-- The checks against the parent, which is the last of a batch or looked up. -/
def verifyCascadingFields (h : Header) (validators : List Address) (parents : List Header) :
    Res Unit :=
  let number := h.number % 2 ^ 64
  if number = 0 then .ok ()
  else
    match if parents ≠ [] then parents.getLast? else E.getHeader h.parentHash (number - 1) with
    | none => .err "unknown ancestor"
    | some parent => do
      Res.require (parent.number % 2 ^ 64 = number - 1 ∧ parent.hash K = h.parentHash)
        "unknown ancestor"
      Res.require ((parent.time + E.blockPeriod) % 2 ^ 64 ≤ h.time) "invalid timestamp"
      verifySigner K h validators
      verifyCommittedSeals K h validators

/-- The engine's `verifyHeader` at clock `now`. -/
def engineVerifyHeader (now : ℕ) (h : Header) (parents : List Header) (validators : List Address) :
    Res Unit := do
  Res.require (h.time ≤ now + E.allowedFutureBlockTime) "block in the future"
  Res.require (h.extra.isOk = true) "invalid extra data format"
  Res.require (h.nonce = List.replicate 8 0 ∨ h.nonce = List.replicate 8 255) "invalid nonce"
  Res.require (h.mixDigest = istanbulDigest) "invalid Istanbul mix digest"
  Res.require (h.uncleHash = K.nilUncleHash) "non empty uncle hash"
  Res.require (h.difficulty = 1) "invalid difficulty"
  verifyCascadingFields K E h validators parents

/-- `Backend.verifyHeader`. -/
def verifyHeader (now : ℕ) (h : Header) (parents : List Header) : Res Unit :=
  if h.number = 0 then engineVerifyHeader K E now E.genesis [] []
  else
    match h.extra with
    | .error msg => .err msg
    | .ok extra => engineVerifyHeader K E now h parents extra.validators

/-! ## Selection, preparation and rewards -/

/-- A hash as a number. -/
def hashBig (hash : List ℕ) : ℕ := ofDigitsBE 256 hash

/-- `Random11ValidatorFromPool`: `out` is a possible choice. -/
def Random11ValidatorFromPool (miners : List ActiveMiner) (hash : List ℕ) (out : List Staked) :
    Prop :=
  ∃ validators,
    SelectedBy (ActiveMinerList.staked miners) (ActiveMinerList.convertToBigInt miners) 11
      (hashBig hash) validators ∧
    out = validators.foldl
      (fun l a => StakedList.add l a (StakedList.stakeBalance (ActiveMinerList.staked miners) a)) []

/-- The accounts of a stake list, as numbers. -/
def stakedAddrs (l : List Staked) : List ℕ := l.map fun v => v.addr.toNat

/-- The accounts a block on top of a parent is prepared to reward: four stakers, six of the eleven
validators and the coinbase. -/
def Beneficiaries (stakePool : List Staked) (miners : List ActiveMiner) (hash : List ℕ)
    (coinbase : Address) (out : List Address) : Prop :=
  ∃ stakers eleven validators,
    SelectedBy stakePool (stakedAddrs stakePool) 4 (hashBig hash) stakers ∧
      Random11ValidatorFromPool miners hash eleven ∧
        SelectedBy eleven (stakedAddrs eleven) 6 (hashBig hash) validators ∧
          out = stakers ++ validators ++ [coinbase]

/-- `Prepare`: the consensus fields of a header whose parent is the current block. -/
def Prepare (now : ℕ) (stakePool : List Staked) (miners : List ActiveMiner) (parent h h' : Header) :
    Prop :=
  E.getHeader h.parentHash ((h.number + 2 ^ 64 - 1) % 2 ^ 64) = some parent ∧
    ∃ eleven beneficiaryAddr,
      Random11ValidatorFromPool miners (parent.hash K) eleven ∧
        Beneficiaries stakePool miners (parent.hash K) h.coinbase beneficiaryAddr ∧
          h' =
            { h with
              nonce := List.replicate 8 0
              mixDigest := istanbulDigest
              difficulty := 1
              extra := .ok
                { validators := eleven.map (·.addr), proposerSeal := [], committedSeal := []
                  beneficiaryAddr := beneficiaryAddr }
              time := max ((parent.time + E.blockPeriod) % 2 ^ 64) now }

/-- `Finalize`'s writes: the official NFTs of the block's beneficiaries. -/
def finalize (H : Hasher) (s : StateDB) (h : Header) : Option StateDB :=
  match h.extra with
  | .error _ => some s
  | .ok extra => s.createNFTByOfficial16 H extra.beneficiaryAddr h.number

end Wormholes.Consensus
