import Wormholes.Consensus.Istanbul
import Wormholes.Laws.Types.Stake
import Wormholes.Laws.Chain.Steps
import Wormholes.Laws.State.Minted

/-!
# Laws.Consensus.Istanbul — who can seal a header and who is rewarded by it

Verification checks a header's seals against the validator list inside that header. So a header is
accepted with sealers from outside the parent's selection exactly when its own list leaves that
selection. The beneficiaries are not checked at all: a block mints for the header's list, as far as
the pools have addresses to mint.
-/

namespace Wormholes.Consensus

open Lib Common Core StateDB

variable {validators : List Address} {extra : IstanbulExtra} {H : Hasher} {s t : StateDB}
variable {parent : Header} {committers : List Address} {eleven : List Staked}

/-! ## The outcome of verification -/

/-- The checks of a header that do not look at its parent or its seals. -/
structure Standalone (K : Hashes) (E : Engine) (now : ℕ) (h : Header) : Prop where
  time : h.time ≤ now + E.allowedFutureBlockTime
  nonce : h.nonce = List.replicate 8 0 ∨ h.nonce = List.replicate 8 255
  mixDigest : h.mixDigest = istanbulDigest
  uncleHash : h.uncleHash = K.nilUncleHash
  difficulty : h.difficulty = 1

/-- The seals of a header against a validator list. -/
structure SealedBy (K : Hashes) (h : Header) (extra : IstanbulExtra) (validators : List Address)
    (signer : Address) (committers : List Address) : Prop where
  author : h.author K = .ok signer
  signer_mem : signer ∈ validators
  committed : extra.committedSeal ≠ []
  signers : h.signers K = .ok committers
  counted : ∃ n, countSeals validators committers = .ok n ∧ (n : ℤ) > faulty validators

variable {K : Hashes} {E : Engine} {now : ℕ} {h : Header} {parents : List Header}

theorem engineVerifyHeader_eq_ok (hextra : h.extra = .ok extra) :
    engineVerifyHeader K E now h parents validators = .ok () ↔
      Standalone K E now h ∧ verifyCascadingFields K E h validators parents = .ok () := by
  simp only [engineVerifyHeader, Res.bind_eq_ok, Res.require_eq_ok, exists_const]
  constructor
  · rintro ⟨htime, -, hnonce, hmix, huncle, hdiff, hcascade⟩
    exact ⟨⟨htime, hnonce, hmix, huncle, hdiff⟩, hcascade⟩
  · rintro ⟨⟨htime, hnonce, hmix, huncle, hdiff⟩, hcascade⟩
    refine ⟨htime, ?_, hnonce, hmix, huncle, hdiff, hcascade⟩
    rw [hextra]
    rfl

theorem verifySeals_eq_ok (hextra : h.extra = .ok extra) (hnumber : h.number % 2 ^ 64 ≠ 0) :
    (verifySigner K h validators = .ok () ∧ verifyCommittedSeals K h validators = .ok ()) ↔
      ∃ signer committers, SealedBy K h extra validators signer committers := by
  simp only [verifySigner, verifyCommittedSeals, hextra, if_neg hnumber, Res.bind_eq_ok,
    Res.require_eq_ok]
  constructor
  · rintro ⟨⟨-, -, signer, hauthor, hmem⟩, -, hcommitted, committers, hsigners, n, hcount, hn⟩
    exact ⟨signer, committers, hauthor, hmem, hcommitted, hsigners, n, hcount, hn⟩
  · rintro ⟨signer, committers, hauthor, hmem, hcommitted, hsigners, n, hcount, hn⟩
    exact ⟨⟨(), hnumber, signer, hauthor, hmem⟩, (), hcommitted, committers, hsigners, n, hcount, hn⟩

/-- An accepted header is sealed by accounts of its own validator list. -/
theorem verifyHeader_sealed (haccepted : verifyHeader K E now h parents = .ok ())
    (hnumber : h.number % 2 ^ 64 ≠ 0) :
    ∃ extra signer committers, h.extra = .ok extra ∧
      SealedBy K h extra extra.validators signer committers := by
  have hne : h.number ≠ 0 := fun h0 => hnumber (by simp [h0])
  rw [verifyHeader, if_neg hne] at haccepted
  split at haccepted
  · cases haccepted
  next extra hextra =>
    have hcascade := ((engineVerifyHeader_eq_ok hextra).mp haccepted).2
    simp only [verifyCascadingFields, if_neg hnumber] at hcascade
    split at hcascade
    · cases hcascade
    next parent hparent =>
      simp only [Res.bind_eq_ok, Res.require_eq_ok] at hcascade
      obtain ⟨-, -, -, -, ⟨⟩, hsigner, hseals⟩ := hcascade
      obtain ⟨signer, committers, hsealed⟩ :=
        (verifySeals_eq_ok hextra hnumber).mp ⟨hsigner, hseals⟩
      exact ⟨extra, signer, committers, hextra, hsealed⟩

/-- A header whose number has no low part is accepted whatever its seals are. -/
theorem verifyHeader_unsealed (hextra : h.extra = .ok extra) (hne : h.number ≠ 0)
    (hnumber : h.number % 2 ^ 64 = 0) (hstand : Standalone K E now h) :
    verifyHeader K E now h parents = .ok () := by
  rw [verifyHeader, if_neg hne, hextra]
  refine (engineVerifyHeader_eq_ok hextra).mpr ⟨hstand, ?_⟩
  rw [verifyCascadingFields, if_pos hnumber]

/-- A header on top of a known parent that is sealed by its own list is accepted. -/
theorem verifyHeader_of_sealed {signer : Address} (hextra : h.extra = .ok extra)
    (hnumber : h.number % 2 ^ 64 ≠ 0) (hstand : Standalone K E now h)
    (hknown : E.getHeader h.parentHash (h.number % 2 ^ 64 - 1) = some parent)
    (hparent : parent.number % 2 ^ 64 = h.number % 2 ^ 64 - 1 ∧ parent.hash K = h.parentHash)
    (htime : (parent.time + E.blockPeriod) % 2 ^ 64 ≤ h.time)
    (hsealed : SealedBy K h extra extra.validators signer committers) :
    verifyHeader K E now h [] = .ok () := by
  have hne : h.number ≠ 0 := fun h0 => hnumber (by simp [h0])
  obtain ⟨hsigner, hseals⟩ := (verifySeals_eq_ok hextra hnumber).mpr ⟨signer, committers, hsealed⟩
  rw [verifyHeader, if_neg hne, hextra]
  refine (engineVerifyHeader_eq_ok hextra).mpr ⟨hstand, ?_⟩
  simp only [verifyCascadingFields, if_neg hnumber, ne_eq, not_true_eq_false, if_false, hknown,
    Res.bind_eq_ok, Res.require_eq_ok]
  exact ⟨(), hparent, (), htime, (), hsigner, hseals⟩

/-! ## Counting seals -/

theorem countSeals_mem {n : ℕ} (hcount : countSeals validators committers = .ok n) :
    ∀ a ∈ committers, a ∈ validators := by
  induction committers generalizing validators n with
  | nil => exact fun a ha => absurd ha List.not_mem_nil
  | cons b committers ih =>
    rw [countSeals] at hcount
    split at hcount
    next hb =>
      obtain ⟨m, hm, -⟩ := Res.bind_eq_ok.mp hcount
      intro a ha
      rcases List.mem_cons.mp ha with rfl | ha
      · exact hb
      · exact List.mem_of_mem_erase (ih hm a ha)
    · cases hcount

theorem countSeals_self (validators : List Address) :
    countSeals validators validators = .ok validators.length := by
  induction validators with
  | nil => rfl
  | cons a validators ih =>
    rw [countSeals, if_pos List.mem_cons_self, List.erase_cons_head, ih]
    rfl

theorem faulty_lt_length (h : validators ≠ []) : (validators.length : ℤ) > faulty validators := by
  have hpos := List.length_pos_iff.mpr h
  rw [faulty]
  omega

/-! ## Making a header that verification accepts -/

/-- Every account can sign every digest. -/
def Hashes.CanSign (K : Hashes) : Prop := ∀ digest a, ∃ sig, K.sigToPub digest sig = .ok a

theorem sealers_of_canSign (hsign : K.CanSign) (data : List ℕ) (validators : List Address) :
    ∃ sigs, Header.sealers K data sigs = .ok validators ∧ (sigs = [] → validators = []) := by
  induction validators with
  | nil => exact ⟨[], rfl, fun _ => rfl⟩
  | cons a validators ih =>
    obtain ⟨sigs, hsigs, -⟩ := ih
    obtain ⟨sig, hsig⟩ := hsign (K.keccak256 (data.map Char.ofNat)) a
    refine ⟨sig :: sigs, ?_, fun h => absurd h (List.cons_ne_nil _ _)⟩
    rw [Header.sealers, Header.getSignatureAddress, hsig]
    simp only [hsigs]
    rfl

/-- The header on top of `parent` that carries `extra` and passes the standalone checks. -/
def Header.above (K : Hashes) (E : Engine) (parent : Header) (extra : IstanbulExtra) : Header where
  parentHash := parent.hash K
  uncleHash := K.nilUncleHash
  coinbase := 0
  difficulty := 1
  number := parent.number + 1
  time := (parent.time + E.blockPeriod) % 2 ^ 64
  mixDigest := istanbulDigest
  nonce := List.replicate 8 0
  extra := .ok extra
  rest := []

theorem standalone_above
    (hclock : (parent.time + E.blockPeriod) % 2 ^ 64 ≤ now + E.allowedFutureBlockTime) :
    Standalone K E now (.above K E parent extra) :=
  ⟨hclock, Or.inl rfl, rfl, rfl, rfl⟩

/-- Whoever signs, some header on top of a parent with given validators and beneficiaries is sealed
by one account and committed to by others. -/
theorem exists_sealed_above (hsign : K.CanSign) (parent : Header) (signer : Address)
    (validators committers beneficiaryAddr : List Address) :
    ∃ extra : IstanbulExtra, extra.validators = validators ∧
      extra.beneficiaryAddr = beneficiaryAddr ∧
      (Header.above K E parent extra).author K = .ok signer ∧
      (Header.above K E parent extra).signers K = .ok committers ∧
      (extra.committedSeal = [] → committers = []) := by
  -- the proposer's seal covers the header without seals, the committed seals the one with it
  let bare : IstanbulExtra := ⟨validators, [], [], beneficiaryAddr⟩
  obtain ⟨sig, hsig⟩ := hsign
    (K.keccak256 ((K.rlpHash (Header.above K E parent bare)).map Char.ofNat)) signer
  let proposed : IstanbulExtra := { bare with proposerSeal := sig }
  obtain ⟨sigs, hsigs, hnil⟩ := sealers_of_canSign hsign
    (Header.prepareCommittedSeal (K.rlpHash (Header.above K E parent proposed))) committers
  refine ⟨{ proposed with committedSeal := sigs }, rfl, rfl, ?_, hsigs, hnil⟩
  have hseal : Header.getSignatureAddress K (K.rlpHash (Header.above K E parent bare)) sig =
      .ok signer := hsig
  have hfiltered : (Header.above K E parent { proposed with committedSeal := sigs }).filtered
      { proposed with committedSeal := sigs } false = Header.above K E parent bare := rfl
  unfold Header.author
  simp only [Header.above, Header.filtered] at hfiltered hseal ⊢
  simp only [Bool.false_eq_true, if_false] at hseal ⊢
  rw [hseal]

/-! ## The selection -/

variable {miners : List ActiveMiner} {hash : List ℕ}

theorem Random11ValidatorFromPool.length_le (h : Random11ValidatorFromPool miners hash eleven) :
    eleven.length ≤ 11 := by
  obtain ⟨validators, hsel, rfl⟩ := h
  have hlen := (StakedList.map_addr_foldl_add
    (StakedList.stakeBalance (ActiveMinerList.staked miners)) validators []).1
  have hle := hsel.length_le
  simp only [List.length_nil] at hlen
  omega

/-- Every selected validator is an active miner. -/
theorem Random11ValidatorFromPool.subset (h : Random11ValidatorFromPool miners hash eleven) :
    ∀ a ∈ eleven.map Staked.addr, a ∈ miners.map ActiveMiner.address := by
  obtain ⟨validators, hsel, rfl⟩ := h
  intro a ha
  rcases (StakedList.map_addr_foldl_add _ validators []).2 a ha with hnil | hmem
  · cases hnil
  · obtain ⟨n, hn, rfl⟩ := List.mem_map.mp (hsel.subset a hmem)
    obtain ⟨m, hm, rfl⟩ := List.mem_map.mp hn
    have heq : bigToAddress m.address.toNat = m.address := by simp [bigToAddress]
    rw [heq]
    exact List.mem_map_of_mem hm

theorem Beneficiaries.length_le {stakePool : List Staked} {coinbase : Address} {out : List Address}
    (h : Beneficiaries stakePool miners hash coinbase out) : out.length ≤ 11 := by
  obtain ⟨stakers, eleven, validators, hstakers, -, hvalidators, rfl⟩ := h
  have h4 := hstakers.length_le
  have h6 := hvalidators.length_le
  simp only [List.length_append, List.length_singleton]
  omega

/-- A list of at most eleven accounts leaves one out. -/
theorem exists_notMem {l : List Address} (h : l.length ≤ 11) : ∃ a, a ∉ l := by
  by_contra hall
  have hsub : ((List.range 12).map bigToAddress).Subperm l :=
    List.subperm_of_subset (by decide) fun a _ => not_not.mp (not_exists.mp hall a)
  have := hsub.length_le
  simp at this
  omega

/-! ## Who seals an accepted header -/

/-- The headers on top of a parent that name a validator list and are accepted have their seals
from the selected validators exactly when that list has only selected ones, and the number of
those headers does not vanish as a machine word. -/
theorem accepted_sealers_selected_iff (K : Hashes) (E : Engine) (now : ℕ) (parent : Header)
    {miners : List ActiveMiner} {eleven : List Staked} (hsign : K.CanSign)
    (hknown : E.getHeader (parent.hash K) (parent.number % 2 ^ 64) = some parent)
    (hclock : (parent.time + E.blockPeriod) % 2 ^ 64 ≤ now + E.allowedFutureBlockTime)
    (hselected : Random11ValidatorFromPool miners (parent.hash K) eleven)
    (validators : List Address) :
    (∀ (h : Header) (extra : IstanbulExtra) (parents : List Header),
        h.parentHash = parent.hash K → h.number = parent.number + 1 → h.extra = .ok extra →
        extra.validators = validators → verifyHeader K E now h parents = .ok () →
        (∀ signer, h.author K = .ok signer → signer ∈ eleven.map Staked.addr) ∧
          ∀ committers, h.signers K = .ok committers →
            ∀ a ∈ committers, a ∈ eleven.map Staked.addr) ↔
      (parent.number + 1) % 2 ^ 64 ≠ 0 ∧ ∀ v ∈ validators, v ∈ eleven.map Staked.addr := by
  constructor
  · intro hall
    have hnumber : (parent.number + 1) % 2 ^ 64 ≠ 0 := by
      intro h0
      obtain ⟨a, ha⟩ := exists_notMem (l := eleven.map Staked.addr)
        (by simpa using hselected.length_le)
      obtain ⟨extra, hval, -, hauthor, -, -⟩ :=
        exists_sealed_above (E := E) hsign parent a validators [] []
      have haccepted : verifyHeader K E now (.above K E parent extra) [] = .ok () :=
        verifyHeader_unsealed rfl (Nat.succ_ne_zero _) h0 (standalone_above hclock)
      exact ha ((hall _ extra [] rfl rfl rfl hval haccepted).1 a hauthor)
    refine ⟨hnumber, fun v hv => ?_⟩
    obtain ⟨extra, hval, -, hauthor, hsigners, hnil⟩ :=
      exists_sealed_above (E := E) hsign parent v validators validators []
    have hne : validators ≠ [] := List.ne_nil_of_mem hv
    have hlow : (parent.number + 1) % 2 ^ 64 - 1 = parent.number % 2 ^ 64 := by omega
    have hsealed : SealedBy K (.above K E parent extra) extra extra.validators v validators := by
      refine ⟨hauthor, hval ▸ hv, fun h => hne (hnil h), hsigners, validators.length, ?_, ?_⟩
      · rw [hval, countSeals_self]
      · rw [hval]
        exact faulty_lt_length hne
    have hlookup : E.getHeader (parent.hash K) ((parent.number + 1) % 2 ^ 64 - 1) = some parent := by
      rw [hlow, hknown]
    have haccepted : verifyHeader K E now (.above K E parent extra) [] = .ok () :=
      verifyHeader_of_sealed rfl hnumber (standalone_above hclock) hlookup ⟨hlow.symm, rfl⟩
        (Nat.le_refl _) hsealed
    exact (hall _ extra [] rfl rfl rfl hval haccepted).1 v hauthor
  · rintro ⟨hnumber, hsub⟩ h extra parents - hnum hextra rfl haccepted
    obtain ⟨extra', signer, committers, hextra', hsealed⟩ :=
      verifyHeader_sealed haccepted (hnum ▸ hnumber)
    obtain rfl : extra = extra' := Except.ok.inj (hextra.symm.trans hextra')
    obtain ⟨n, hcount, -⟩ := hsealed.counted
    refine ⟨fun a ha => ?_, fun as has a ha => ?_⟩
    · obtain rfl : a = signer := Res.ok.inj (ha.symm.trans hsealed.author)
      exact hsub a hsealed.signer_mem
    · obtain rfl : as = committers := Res.ok.inj (has.symm.trans hsealed.signers)
      exact hsub a (countSeals_mem hcount a ha)

/-- A signature is the signer's address, and all headers have one hash. -/
def plainHashes : Hashes where
  keccak256 := fun _ => []
  sigToPub := fun _ sig => .ok (bytesToAddress sig)
  rlpHash := fun _ => [7]
  nilUncleHash := []

theorem plainHashes_canSign : plainHashes.CanSign := by
  intro digest a
  refine ⟨toDigitsBE 256 20 a.toNat, congrArg Except.ok ?_⟩
  have hlt : a.toNat < 256 ^ 20 := lt_of_lt_of_eq a.isLt (by norm_num)
  rw [bytesToAddress, ofDigitsBE_toDigitsBE, Nat.mod_eq_of_lt hlt, BitVec.ofNat_toNat,
    BitVec.setWidth_eq]

/-- A genesis header without validators. -/
def rootHeader : Header where
  parentHash := []
  uncleHash := []
  coinbase := 0
  difficulty := 1
  number := 0
  time := 0
  mixDigest := istanbulDigest
  nonce := List.replicate 8 0
  extra := .ok ⟨[], [], [], []⟩
  rest := []

/-- A chain of that header only, with a block every five seconds. -/
def rootEngine : Engine where
  getHeader := fun hash number => if hash = [7] ∧ number = 0 then some rootHeader else none
  genesis := rootHeader
  blockPeriod := 5
  allowedFutureBlockTime := 5

/-- One active miner. -/
def oneMiner : List ActiveMiner := [⟨0xa1, 100000, 0⟩]

/-- The only miner is selected. -/
theorem oneMiner_selected (hash : List ℕ) :
    Random11ValidatorFromPool oneMiner hash [⟨0xa1, 100000⟩] :=
  ⟨[0xa1], selectedBy_of_length_le (hashBig hash) (by decide) (by decide) (by decide), by decide⟩

/-- The header on top of the genesis header that an account proposes and alone commits to. -/
def soleHeader (a : ℕ) (beneficiaryAddr : List Address) : Header :=
  .above plainHashes rootEngine rootHeader ⟨[bigToAddress a], [a], [[a]], beneficiaryAddr⟩

/-- The header of the one miner of the pool, which lists and is sealed by that miner. -/
theorem accepted_sealers_selected_oneMiner :
    verifyHeader plainHashes rootEngine 0 (soleHeader 0xa1 []) [] = .ok () ∧
      (soleHeader 0xa1 []).author plainHashes = .ok 0xa1 ∧ (0xa1 : Address) ∈ [(0xa1 : Address)] := by
  have haccepted : verifyHeader plainHashes rootEngine 0 (soleHeader 0xa1 []) [] = .ok () := by
    decide +kernel
  have hlisted : (rootHeader.number + 1) % 2 ^ 64 ≠ 0 ∧
      ∀ v ∈ [(0xa1 : Address)], v ∈ [(⟨0xa1, 100000⟩ : Staked)].map Staked.addr :=
    ⟨by decide, fun v hv => hv⟩
  have hauthor : (soleHeader 0xa1 []).author plainHashes = .ok 0xa1 := by decide +kernel
  have hsealers := (accepted_sealers_selected_iff plainHashes rootEngine 0 rootHeader
    plainHashes_canSign rfl (by decide +kernel) (oneMiner_selected _) [0xa1]).mpr
    hlisted (soleHeader 0xa1 []) _ [] rfl rfl rfl rfl haccepted
  exact ⟨haccepted, hauthor, hsealers.1 0xa1 hauthor⟩

/-- An account that is no miner proposes and commits to a header of its own. -/
theorem accepted_sealer_unselected :
    verifyHeader plainHashes rootEngine 0 (soleHeader 0xbd []) [] = .ok () ∧
      (soleHeader 0xbd []).author plainHashes = .ok 0xbd ∧
        ∀ eleven, Random11ValidatorFromPool oneMiner (rootHeader.hash plainHashes) eleven →
          (0xbd : Address) ∉ eleven.map Staked.addr := by
  refine ⟨by decide +kernel, by decide +kernel, fun eleven heleven hmem => ?_⟩
  have hminer := heleven.subset _ hmem
  revert hminer
  decide +kernel

/-! ## Who is rewarded -/

/-- The leaves a block's finalisation mints: what the pools give next, one for each beneficiary of its
header as long as there are any. -/
def mintedLeaves (s : StateDB) (h : Header) : List Address :=
  match h.extra with
  | .error _ => []
  | .ok extra => upcoming h.number extra.beneficiaryAddr.length s.pools

/-- How many of a list of owners there are addresses for. -/
def supplied (p : Pools) (blocknumber : ℕ) (owners : List Address) : List Address :=
  owners.take (upcoming blocknumber owners.length p).length

/-- The leaves a block will mint are nobody's, and none comes twice. -/
structure MintsVacant (s : StateDB) (h : Header) : Prop where
  nodup : (mintedLeaves s h).Nodup
  vacant : ∀ a ∈ mintedLeaves s h, Vacant s a

/-- After a block the minted leaves belong to its header's list, as far as there are addresses, and no
other leaf has changed hands. -/
theorem leafOwner_finalize (hextra : h.extra = .ok extra) (hvacant : MintsVacant s h)
    (hfinal : finalize H s h = some t) :
    (mintedLeaves s h).map t.leafOwner = supplied s.pools h.number extra.beneficiaryAddr ∧
      ∀ x ∉ mintedLeaves s h, t.leafOwner x = s.leafOwner x := by
  obtain ⟨hnodup, hvacant⟩ := hvacant
  simp only [finalize, hextra] at hfinal
  simp only [mintedLeaves, hextra] at hnodup hvacant ⊢
  exact createNFTByOfficial16_leafOwner hnodup hvacant hfinal

/-- An accepted block mints at leaves that are nobody's. In the state it leaves these leaves belong to
exactly the prepared beneficiaries, hence are at most eleven, if and only if the header lists them: up to
order, and as far as there are addresses to mint. No other leaf changes hands. -/
theorem minted_to_beneficiaries_iff (K : Hashes) (E : Engine) (now : ℕ) (h parent : Header)
    (parents : List Header) (stakePool : List Staked) (miners : List ActiveMiner) (s t : StateDB)
    (hnumber : h.number ≠ 0) (haccepted : verifyHeader K E now h parents = .ok ())
    (hvacant : MintsVacant s h) (hfinal : finalize K.toHasher s h = some t) :
    ∃ extra, h.extra = .ok extra ∧
      ((∃ prepared, Beneficiaries stakePool miners (parent.hash K) h.coinbase prepared ∧
          ((mintedLeaves s h).map t.leafOwner).Perm (supplied s.pools h.number prepared) ∧
            (mintedLeaves s h).length ≤ 11) ↔
        ∃ prepared, Beneficiaries stakePool miners (parent.hash K) h.coinbase prepared ∧
          (supplied s.pools h.number extra.beneficiaryAddr).Perm
            (supplied s.pools h.number prepared)) ∧
      ∀ x ∉ mintedLeaves s h, t.leafOwner x = s.leafOwner x := by
  rw [verifyHeader, if_neg hnumber] at haccepted
  split at haccepted
  · cases haccepted
  next extra hextra =>
    obtain ⟨howners, hothers⟩ := leafOwner_finalize hextra hvacant hfinal
    refine ⟨extra, hextra, ⟨?_, ?_⟩, hothers⟩
    · rintro ⟨prepared, hprepared, hperm, -⟩
      exact ⟨prepared, hprepared, howners ▸ hperm⟩
    · rintro ⟨prepared, hprepared, hperm⟩
      refine ⟨prepared, hprepared, howners ▸ hperm, ?_⟩
      calc (mintedLeaves s h).length
          = ((mintedLeaves s h).map t.leafOwner).length := (List.length_map _).symm
        _ = (supplied s.pools h.number prepared).length := by rw [howners, hperm.length_eq]
        _ ≤ prepared.length := List.length_take_le' _ _
        _ ≤ 11 := hprepared.length_le

/-- What the first block on top of the genesis header starts with. -/
def firstState : StateDB := (Genesis.small []).chain.db

/-- In a state without accounts every leaf is nobody's. -/
theorem vacant_firstState (a : Address) : Vacant firstState a := by
  have hnone : forestOf firstState = fun _ => none := by
    funext n
    unfold forestOf
    split
    · rfl
    · rfl
  refine ⟨rfl, ?_⟩
  have howner : ∀ o, Lib.Forest.ownerAt 16 40 (forestOf firstState) a.toNat ≠ some o := by
    intro o ho
    obtain ⟨k, hk⟩ := Lib.Forest.ownerAt_eq_some_iff.mp ho
    have := hk.covers
    rw [hnone] at this
    cases this
  unfold leafOwner
  rw [Option.eq_none_iff_forall_ne_some.mpr howner]
  rfl

/-- The header that `Prepare` makes for the one miner: the two leaves its block mints at belong to the
miner and to the coinbase. -/
theorem minted_to_beneficiaries_prepared :
    verifyHeader plainHashes rootEngine 0 (soleHeader 0xa1 [0xa1, 0]) [] = .ok () ∧
      ∃ t, finalize plainHashes.toHasher firstState (soleHeader 0xa1 [0xa1, 0]) = some t ∧
        (mintedLeaves firstState (soleHeader 0xa1 [0xa1, 0])).map t.leafOwner = [0xa1, 0] ∧
        (mintedLeaves firstState (soleHeader 0xa1 [0xa1, 0])).length ≤ 11 := by
  have haccepted : verifyHeader plainHashes rootEngine 0 (soleHeader 0xa1 [0xa1, 0]) [] = .ok () := by
    decide +kernel
  have hprepared : Beneficiaries [] oneMiner (rootHeader.hash plainHashes) 0 [0xa1, 0] :=
    ⟨[], [⟨0xa1, 100000⟩], [0xa1],
      selectedBy_of_length_le _ (by decide) (by decide) (by decide), oneMiner_selected _,
      selectedBy_of_length_le _ (by decide) (by decide) (by decide), rfl⟩
  obtain ⟨t, ht, howners⟩ := Option.map_eq_some_iff.mp (show (finalize plainHashes.toHasher firstState
    (soleHeader 0xa1 [0xa1, 0])).map (fun t =>
      (mintedLeaves firstState (soleHeader 0xa1 [0xa1, 0])).map t.leafOwner) = some [0xa1, 0] from by
    decide +kernel)
  obtain ⟨extra, hextra, hiff, -⟩ := minted_to_beneficiaries_iff plainHashes rootEngine 0
    (soleHeader 0xa1 [0xa1, 0]) rootHeader [] [] oneMiner firstState t (by decide) haccepted
    ⟨by decide +kernel, fun a _ => vacant_firstState a⟩ ht
  obtain rfl := Except.ok.inj hextra
  obtain ⟨prepared, -, -, hlen⟩ := hiff.mpr ⟨[0xa1, 0], hprepared, List.Perm.refl _⟩
  exact ⟨haccepted, t, ht, howners, hlen⟩

/-- An accepted header lists one account twelve times, and after its block twelve leaves that were nobody's
are that account's. -/
theorem minted_twelve :
    verifyHeader plainHashes rootEngine 0 (soleHeader 0xa1 (List.replicate 12 0xbd)) [] = .ok () ∧
      MintsVacant firstState (soleHeader 0xa1 (List.replicate 12 0xbd)) ∧
      ∃ t, finalize plainHashes.toHasher firstState (soleHeader 0xa1 (List.replicate 12 0xbd)) = some t ∧
        (mintedLeaves firstState (soleHeader 0xa1 (List.replicate 12 0xbd))).map t.leafOwner =
          List.replicate 12 0xbd := by
  have hvacant : MintsVacant firstState (soleHeader 0xa1 (List.replicate 12 0xbd)) :=
    ⟨by decide +kernel, fun a _ => vacant_firstState a⟩
  obtain ⟨t, ht⟩ := Option.isSome_iff_exists.mp (show (finalize plainHashes.toHasher firstState
    (soleHeader 0xa1 (List.replicate 12 0xbd))).isSome = true from by decide +kernel)
  refine ⟨by decide +kernel, hvacant, t, ht, ?_⟩
  rw [(leafOwner_finalize rfl hvacant ht).1]
  decide +kernel

end Wormholes.Consensus
