import Mathlib.Data.Finset.Dedup
import Wormholes.Consensus.Commit
import Wormholes.Laws.Consensus.Quorum

/-!
# Laws.Consensus.Commit — when a committed block can be imported

A core counts COMMIT messages by their senders and never looks at their seals, and it accepts a
proposal whatever validators its extra data lists. Verification recovers every seal, and takes the
validator list from the header. `committed_block_importable_iff` says what the counted seals and the
list must be for the assembled block to be accepted; `byzantine_seal_unimportable` is a quorum of
COMMIT messages with one Byzantine seal.
-/

namespace Wormholes.Consensus

open Core Ibft Ibft.Node

variable {K : Hashes} {E : Engine} {now : ℕ} {h : Header}
variable {validators order : List Address} {parents : List Header}

/-! ## What an accepted proposal has passed -/

/-- The outcomes of header verification with which a proposal is accepted. -/
def Passes (x : Res Unit) : Prop := x = .ok () ∨ x = .err emptyCommittedSeals

theorem passes_require {c : Prop} [Decidable c] {msg : String} {f : Unit → Res Unit}
    (hmsg : msg ≠ emptyCommittedSeals) (hpass : Passes (Res.require c msg >>= f)) :
    c ∧ Passes (f ()) := by
  unfold Res.require at hpass
  split at hpass
  next hc => exact ⟨hc, hpass⟩
  · rcases hpass with hok | herr
    · cases hok
    · exact absurd (Res.err.inj herr) hmsg

/-- The checks of a header against its parent. -/
structure OnParent (K : Hashes) (E : Engine) (h parent : Header) : Prop where
  number : parent.number % 2 ^ 64 = h.number % 2 ^ 64 - 1
  hash : parent.hash K = h.parentHash
  time : (parent.time + E.blockPeriod) % 2 ^ 64 ≤ h.time

theorem passes_cascading (hnumber : h.number % 2 ^ 64 ≠ 0)
    (hpass : Passes (verifyCascadingFields K E h validators [])) :
    ∃ parent, E.getHeader h.parentHash (h.number % 2 ^ 64 - 1) = some parent ∧
      OnParent K E h parent := by
  simp only [verifyCascadingFields, if_neg hnumber, ne_eq, not_true_eq_false, if_false] at hpass
  cases hparent : E.getHeader h.parentHash (h.number % 2 ^ 64 - 1) with
  | none =>
    rw [hparent] at hpass
    rcases hpass with hok | herr
    · cases hok
    · exact absurd (Res.err.inj herr) (by decide)
  | some parent =>
    rw [hparent] at hpass
    obtain ⟨⟨hnum, hhash⟩, hpass⟩ := passes_require (by decide) hpass
    obtain ⟨htime, -⟩ := passes_require (by decide) hpass
    exact ⟨parent, rfl, hnum, hhash, htime⟩

/-- A proposal `Backend.Verify` accepts has decoded extra data, passes the checks of its own fields
and, unless its number has no low part, stands on a known parent. -/
theorem verifyProposal_eq_ok {bad txs : Bool} {uncleHash : List ℕ}
    (haccepted : verifyProposal K E now bad txs uncleHash validators h = .ok) :
    Standalone K E now h ∧ h.extra.isOk = true ∧
      (h.number % 2 ^ 64 ≠ 0 →
        ∃ parent, E.getHeader h.parentHash (h.number % 2 ^ 64 - 1) = some parent ∧
          OnParent K E h parent) := by
  have hpass : Passes (engineVerifyHeader K E now h [] validators) := by
    rw [verifyProposal] at haccepted
    split at haccepted
    · cases haccepted
    · split at haccepted
      · cases haccepted
      · split at haccepted
        · cases haccepted
        · cases hres : engineVerifyHeader K E now h [] validators with
          | ok u => exact .inl rfl
          | panic =>
            rw [hres] at haccepted
            cases haccepted
          | err msg =>
            simp only [hres] at haccepted
            by_cases hmsg : msg = emptyCommittedSeals
            · exact .inr (congrArg Res.err hmsg)
            · rw [if_neg hmsg] at haccepted
              split at haccepted
              · cases haccepted
              · cases haccepted
  rw [engineVerifyHeader] at hpass
  obtain ⟨htime, hpass⟩ := passes_require (by decide) hpass
  obtain ⟨hextra, hpass⟩ := passes_require (by decide) hpass
  obtain ⟨hnonce, hpass⟩ := passes_require (by decide) hpass
  obtain ⟨hmix, hpass⟩ := passes_require (by decide) hpass
  obtain ⟨huncle, hpass⟩ := passes_require (by decide) hpass
  obtain ⟨hdiff, hpass⟩ := passes_require (by decide) hpass
  refine ⟨⟨htime, hnonce, hmix, huncle, hdiff⟩, hextra, ?_⟩
  intro hnumber
  exact passes_cascading hnumber hpass

/-! ## What verification reads of an assembled block -/

section Assembled

variable {e : IstanbulExtra} {seals : List (List ℕ)}

theorem author_withSeals (hextra : h.extra = .ok e) :
    (h.withSeals e seals).author K = h.author K := by
  rw [Header.author, Header.author, hextra]
  rfl

theorem hash_withSeals (hextra : h.extra = .ok e) (hmix : h.mixDigest = istanbulDigest) :
    (h.withSeals e seals).hash K = h.hash K := by
  have hmix' : (h.withSeals e seals).mixDigest = istanbulDigest := hmix
  rw [Header.hash, Header.hash, if_pos hmix, if_pos hmix', hextra]
  rfl

theorem signers_withSeals (hextra : h.extra = .ok e) (hmix : h.mixDigest = istanbulDigest) :
    (h.withSeals e seals).signers K =
      Header.sealers K (Header.prepareCommittedSeal (h.hash K)) seals := by
  rw [Header.signers, hash_withSeals hextra hmix]
  rfl

/-- A header on a known parent is accepted exactly when its own list has sealed it. -/
theorem verifyHeader_onParent_iff {parent : Header} (hextra : h.extra = .ok e)
    (hnumber : h.number % 2 ^ 64 ≠ 0) (hstand : Standalone K E now h)
    (hknown : (if parents ≠ [] then parents.getLast?
      else E.getHeader h.parentHash (h.number % 2 ^ 64 - 1)) = some parent)
    (hparent : OnParent K E h parent) :
    verifyHeader K E now h parents = .ok () ↔
      ∃ signer committers, SealedBy K h e e.validators signer committers := by
  have hne : h.number ≠ 0 := by
    intro h0
    rw [h0] at hnumber
    exact hnumber rfl
  rw [verifyHeader, if_neg hne, hextra]
  simp only []
  rw [engineVerifyHeader_eq_ok hextra, ← verifySeals_eq_ok hextra hnumber]
  simp only [verifyCascadingFields, if_neg hnumber, hknown, Res.bind_eq_ok, Res.require_eq_ok]
  constructor
  · intro hboth
    obtain ⟨-, -, -, -, -, u, hsigner, hseals⟩ := hboth
    cases u
    exact ⟨hsigner, hseals⟩
  · intro hboth
    exact ⟨hstand, (), ⟨hparent.number, hparent.hash⟩, (), hparent.time, (), hboth.1, hboth.2⟩

/-- The account a seal of some data recovers to; only read where recovery succeeds. -/
def recovered (K : Hashes) (data sig : List ℕ) : Address :=
  match Header.getSignatureAddress K data sig with
  | .ok a => a
  | .error _ => 0

theorem recovered_eq {data sig : List ℕ} {a : Address}
    (ha : Header.getSignatureAddress K data sig = .ok a) : recovered K data sig = a := by
  rw [recovered, ha]

/-- Seals are recovered one by one. -/
theorem sealers_map_eq_ok (data : List ℕ) (g : Address → List ℕ) (order committers : List Address) :
    Header.sealers K data (order.map g) = .ok committers ↔
      (∀ a ∈ order, Header.getSignatureAddress K data (g a) = .ok (recovered K data (g a))) ∧
        committers = order.map fun a => recovered K data (g a) := by
  induction order generalizing committers with
  | nil =>
    constructor
    · intro heq
      cases heq
      exact ⟨by simp, rfl⟩
    · intro hboth
      rw [hboth.2]
      rfl
  | cons b order ih =>
    rw [List.map_cons, Header.sealers]
    cases hb : Header.getSignatureAddress K data (g b) with
    | error msg =>
      constructor
      · intro heq
        cases heq
      · intro hboth
        have hok := hboth.1 b List.mem_cons_self
        rw [hb] at hok
        cases hok
    | ok a =>
      have ha := recovered_eq hb
      simp only [Res.bind_eq_ok, ih, List.forall_mem_cons, List.map_cons, ha, hb, true_and]
      constructor
      · intro hex
        obtain ⟨cs, ⟨hall, hcs⟩, heq⟩ := hex
        exact ⟨hall, by rw [← Res.ok.inj heq, hcs]⟩
      · intro hboth
        exact ⟨_, ⟨hboth.1, rfl⟩, by rw [hboth.2]⟩

end Assembled

/-! ## The counted seals and the proposal's own list -/

variable {P : Type}

/-- The seals of the counted COMMIT messages, as they are copied, recover over the proposal's hash to
accounts on the list in the proposal, a place of the list for each and more than `F` of them; and the
proposal's signer is on that list. -/
def SealsListed (K : Hashes) (c : Node.Core P) (h : Header) (e : IstanbulExtra) : Prop :=
  (∃ signer, h.author K = .ok signer ∧ signer ∈ e.validators) ∧
    faulty e.validators < c.current.commits.card ∧
      ∃ f : Address → Address,
        (∀ a ∈ c.current.commits,
          Header.getSignatureAddress K (Header.prepareCommittedSeal (h.hash K))
            (copySeal (c.committedSeals a)) = .ok (f a)) ∧
          (c.current.commits.toList.map f).Subperm e.validators

theorem length_copySeal (committedSeal : List ℕ) :
    (copySeal committedSeal).length = istanbulExtraSeal := by
  simp [copySeal, istanbulExtraSeal]

/-- A block is assembled as soon as one COMMIT is counted. -/
theorem assemble_eq_ok {c : Node.Core P} {e : IstanbulExtra} (hextra : h.extra = .ok e)
    (hne : order ≠ []) : c.assemble h order = .ok (h.withSeals e (c.collectSeals order)) := by
  have hcollected : ¬ (c.collectSeals order = [] ∨
      ∃ sig ∈ c.collectSeals order, sig.length ≠ istanbulExtraSeal) := by
    intro hbad
    rcases hbad with hnil | ⟨sig, hsig, hlen⟩
    · exact hne (List.map_eq_nil_iff.mp hnil)
    · obtain ⟨a, -, ha⟩ := List.mem_map.mp hsig
      rw [← ha] at hlen
      exact hlen (length_copySeal _)
  rw [Node.Core.assemble, Header.writeCommittedSeals, if_neg hcollected, hextra]

/-- The assembled block is sealed by the proposal's own list exactly when the counted seals are
those of accounts on it. -/
theorem sealedBy_assembled_iff {c : Node.Core P} {e : IstanbulExtra} (hextra : h.extra = .ok e)
    (hmix : h.mixDigest = istanbulDigest) (hne : order ≠ []) (hnodup : order.Nodup)
    (horder : order.toFinset = c.current.commits) :
    (∃ signer committers, SealedBy K (h.withSeals e (c.collectSeals order))
        { e with committedSeal := c.collectSeals order } e.validators signer committers) ↔
      SealsListed K c h e := by
  have hmem : ∀ a, a ∈ order ↔ a ∈ c.current.commits := by
    intro a
    rw [← horder, List.mem_toFinset]
  have hperm : order.Perm c.current.commits.toList := by
    rw [← horder]
    exact (List.toFinset_toList hnodup).symm
  have hlength : order.length = c.current.commits.card := by
    rw [← horder, List.toFinset_card_of_nodup hnodup]
  have hsigners : (h.withSeals e (c.collectSeals order)).signers K =
      Header.sealers K (Header.prepareCommittedSeal (h.hash K)) (c.collectSeals order) :=
    signers_withSeals hextra hmix
  constructor
  · intro hex
    obtain ⟨signer, committers, hsealed⟩ := hex
    have hauthor := hsealed.author
    rw [author_withSeals hextra] at hauthor
    have hrecovered := hsealed.signers
    rw [hsigners, Node.Core.collectSeals, sealers_map_eq_ok] at hrecovered
    obtain ⟨hall, hcommitters⟩ := hrecovered
    obtain ⟨n, hcount, hmore⟩ := hsealed.counted
    obtain ⟨hsub, hn⟩ := countSeals_eq_ok_iff.mp hcount
    refine ⟨⟨signer, hauthor, hsealed.signer_mem⟩, ?_, fun a => recovered K
      (Header.prepareCommittedSeal (h.hash K)) (copySeal (c.committedSeals a)), ?_, ?_⟩
    · rw [← hlength]
      rw [hn, hcommitters, List.length_map] at hmore
      exact hmore
    · intro a ha
      exact hall a ((hmem a).mpr ha)
    · rw [hcommitters] at hsub
      exact ((hperm.map _).subperm_right).mp hsub
  · intro hlisted
    obtain ⟨⟨signer, hauthor, hsigner⟩, hmore, f, hall, hsub⟩ := hlisted
    refine ⟨signer, order.map f, ?_, hsigner, ?_, ?_, order.length, ?_, ?_⟩
    · rw [author_withSeals hextra]
      exact hauthor
    · intro hnil
      exact hne (List.map_eq_nil_iff.mp hnil)
    · rw [hsigners, Node.Core.collectSeals, sealers_map_eq_ok]
      have hf : ∀ a ∈ order, recovered K (Header.prepareCommittedSeal (h.hash K))
          (copySeal (c.committedSeals a)) = f a := by
        intro a ha
        exact recovered_eq (hall a ((hmem a).mp ha))
      constructor
      · intro a ha
        rw [hf a ha]
        exact hall a ((hmem a).mp ha)
      · exact List.map_congr_left fun a ha => (hf a ha).symm
    · apply countSeals_eq_ok_iff.mpr
      exact ⟨((hperm.map f).subperm_right).mpr hsub, (List.length_map f).symm⟩
    · rw [hlength]
      exact hmore

/-- Verification of the block assembled from a proposal with the right fields on a known parent. -/
theorem verifyHeader_assembled_iff {c : Node.Core P} {e : IstanbulExtra} {now₀ : ℕ}
    (hextra : h.extra = .ok e) (hstand : Standalone K E now₀ h) (hparent : h.number % 2 ^ 64 ≠ 0 →
      ∃ parent, E.getHeader h.parentHash (h.number % 2 ^ 64 - 1) = some parent ∧
        OnParent K E h parent) (hne : order ≠ []) (hnodup : order.Nodup)
    (horder : order.toFinset = c.current.commits) (htime : h.time ≤ now + E.allowedFutureBlockTime)
    (hparents : parents ≠ [] →
      parents.getLast? = E.getHeader h.parentHash (h.number % 2 ^ 64 - 1)) :
    verifyHeader K E now (h.withSeals e (c.collectSeals order)) parents = .ok () ↔
      (h.number = 0 → engineVerifyHeader K E now E.genesis [] [] = .ok ()) ∧
        (h.number % 2 ^ 64 ≠ 0 → SealsListed K c h e) := by
  have hseals := sealedBy_assembled_iff (K := K) hextra hstand.mixDigest hne hnodup horder
  generalize hblock : h.withSeals e (c.collectSeals order) = block at hseals ⊢
  have hfields : { h with extra := block.extra } = block := by
    rw [← hblock]
    rfl
  have hstand' : Standalone K E now block := by
    rw [← hfields]
    exact ⟨htime, hstand.nonce, hstand.mixDigest, hstand.uncleHash, hstand.difficulty⟩
  have hextra' : block.extra = .ok { e with committedSeal := c.collectSeals order } := by
    rw [← hblock]
    rfl
  have hnum : block.number = h.number := by rw [← hblock]; rfl
  by_cases hzero : h.number = 0
  · rw [verifyHeader, if_pos (hnum.trans hzero)]
    constructor
    · intro hgenesis
      refine ⟨fun _ => hgenesis, ?_⟩
      intro hnumber
      rw [hzero] at hnumber
      exact absurd rfl hnumber
    · intro hboth
      exact hboth.1 hzero
  · by_cases hnumber : h.number % 2 ^ 64 = 0
    · have hok : verifyHeader K E now block parents = .ok () := by
        apply verifyHeader_unsealed hextra' _ _ hstand'
        · rwa [hnum]
        · rwa [hnum]
      exact iff_of_true hok ⟨fun h0 => absurd h0 hzero, fun hn => absurd hnumber hn⟩
    · obtain ⟨parent, hknown, hon⟩ := hparent hnumber
      have hknown' : (if parents ≠ [] then parents.getLast?
          else E.getHeader block.parentHash (block.number % 2 ^ 64 - 1)) = some parent := by
        rw [← hfields]
        by_cases hnil : parents ≠ []
        · rw [if_pos hnil, hparents hnil, hknown]
        · rw [if_neg hnil, hknown]
      have hon' : OnParent K E block parent := by
        rw [← hfields]
        exact ⟨hon.number, hon.hash, hon.time⟩
      have hnumber' : block.number % 2 ^ 64 ≠ 0 := by rwa [hnum]
      rw [verifyHeader_onParent_iff hextra' hnumber' hstand' hknown' hon', hseals]
      constructor
      · intro hlisted
        exact ⟨fun h0 => absurd h0 hzero, fun _ => hlisted⟩
      · intro hboth
        exact hboth.2 hnumber

/-- The message set holds the message that was just accepted. -/
theorem mem_commits_acceptCommit (c : Node.Core P) {src : Address} (committedSeal : List ℕ)
    (hsrc : (ValidatorSet.getByAddress c.valSet src).isSome = true) :
    src ∈ (c.acceptCommit src committedSeal).current.commits := by
  rw [Node.Core.acceptCommit, if_pos hsrc]
  exact Finset.mem_insert_self src _

/-- **When a committed block can be imported.** Let the COMMIT of a validator make a core commit a
proposal that `Backend.Verify` accepted. In whatever order the seals are collected, a block is
assembled, and a node with the same parent chain accepts it, once its time has come, exactly when the
counted seals are those of accounts on the proposal's own validator list, which also has the proposal's
signer. Blocks whose number has no low part are not checked, and for number zero the genesis block is
checked instead. -/
theorem committed_block_importable_iff (K : Hashes) (E : Engine) (G : Config Header)
    (B : Backend Header) (c : Node.Core Header) (commit : Subject) (src : Address)
    (committedSeal : List ℕ) (hsrc : (ValidatorSet.getByAddress c.valSet src).isSome = true) :
    ∀ h e, (c.handleCommit G B commit src committedSeal).committed = some h → h.extra = .ok e →
      (∃ now bad txs uncleHash validators,
        verifyProposal K E now bad txs uncleHash validators h = .ok) →
      ∀ order : List Address, order.Nodup →
        order.toFinset = (c.acceptCommit src committedSeal).current.commits →
        ∃ block, (c.acceptCommit src committedSeal).assemble h order = .ok block ∧
          ∀ now parents, h.time ≤ now + E.allowedFutureBlockTime →
            (parents ≠ [] →
              parents.getLast? = E.getHeader h.parentHash (h.number % 2 ^ 64 - 1)) →
            (verifyHeader K E now block parents = .ok () ↔
              (h.number = 0 → engineVerifyHeader K E now E.genesis [] [] = .ok ()) ∧
                (h.number % 2 ^ 64 ≠ 0 →
                  SealsListed K (c.acceptCommit src committedSeal) h e)) := by
  intro h e _ hextra haccepted order hnodup horder
  obtain ⟨now₀, bad, txs, uncleHash, validators, haccepted⟩ := haccepted
  obtain ⟨hstand, -, hparent⟩ := verifyProposal_eq_ok haccepted
  have hne : order ≠ [] := by
    intro hnil
    have hmem := mem_commits_acceptCommit c committedSeal hsrc
    rw [← horder, hnil] at hmem
    simp at hmem
  refine ⟨_, assemble_eq_ok hextra hne, ?_⟩
  intro now parents htime hparents
  exact verifyHeader_assembled_iff hextra hstand hparent hne hnodup horder htime hparents

/-! ### One seal of four -/

/-- The first byte of a signature is the signer; a zero byte is no signature. All headers have one
hash. -/
def firstByteHashes : Hashes where
  keccak256 := fun _ => []
  sigToPub := fun _ sig =>
    if sig.headD 0 = 0 then .error "recovery failed" else .ok (BitVec.ofNat 160 (sig.headD 0))
  rlpHash := fun _ => [7]
  nilUncleHash := []

/-- The proposal of the first of four validators, with a validator list. -/
def fourProposal (validators : List Address) : Header :=
  .above firstByteHashes rootEngine rootHeader ⟨validators, [1], [], []⟩

theorem hash_firstByte (h : Header) : h.hash firstByteHashes = [7] := by
  rw [Header.hash]
  split
  · cases h.extra with
    | ok e => rfl
    | error msg => rfl
  · rfl

def fourConfig : Config Header where
  policy := .roundRobin
  ceil2Nby3Block := none
  number := Header.number
  hash := fun h => hashBig (h.hash firstByteHashes)
  hash_ne_zero := by
    intro h
    rw [hash_firstByte]
    decide

/-- A node of the four validators that verifies proposals on top of the genesis header. -/
def fourBackend : Backend Header where
  lastProposal := rootHeader
  lastProposer := 0
  validators := fun _ => [1, 2, 3, 4]
  parentValidators := fun _ => [1, 2, 3, 4]
  getProposer := fun _ => 0
  hasPropsal := fun _ _ => false
  hasBadProposal := fun _ => false
  verify := verifyProposal firstByteHashes rootEngine 0 false true [] [1, 2, 3, 4]
  commit := fun _ => true

/-- The subject of every vote for the proposal. -/
def fourSubject : Subject := ⟨⟨1, 0⟩, 7⟩

/-- The third validator's core with a proposal and the COMMIT messages of the first two. -/
def fourCore (validators : List Address) : Node.Core Header :=
  let message := fun src payload sig =>
    (⟨.message ⟨src, payload, sig⟩, fourBackend⟩ : Node.Event Header)
  ((fourConfig.init fourBackend 3).run fourConfig
    [message 1 (.preprepare ⟨⟨1, 0⟩, fourProposal validators⟩) [],
      message 1 (.commit fourSubject) [1], message 2 (.commit fourSubject) [2]]).core

theorem fourCore_commits :
    ((fourCore [1, 2, 3, 4]).acceptCommit 3 [3]).current.commits = {1, 2, 3} := by decide +kernel

theorem fourCore_sealsListed :
    SealsListed firstByteHashes ((fourCore [1, 2, 3, 4]).acceptCommit 3 [3])
      (fourProposal [1, 2, 3, 4]) ⟨[1, 2, 3, 4], [1], [], []⟩ := by
  refine ⟨⟨1, by decide +kernel, by decide⟩, ?_, fun a => a, ?_, ?_⟩
  · rw [fourCore_commits]
    decide
  · intro a ha
    rw [fourCore_commits] at ha
    simp only [Finset.mem_insert, Finset.mem_singleton] at ha
    rcases ha with ha | ha | ha
    · rw [ha]
      decide +kernel
    · rw [ha]
      decide +kernel
    · rw [ha]
      decide +kernel
  · rw [List.map_id', fourCore_commits]
    apply List.Nodup.subperm (Finset.nodup_toList _)
    intro a ha
    simp only [Finset.mem_toList, Finset.mem_insert, Finset.mem_singleton] at ha
    rcases ha with ha | ha | ha
    · rw [ha]
      decide
    · rw [ha]
      decide
    · rw [ha]
      decide

/-- Three honest COMMIT messages for a proposal that lists the validators give a block that is
accepted. -/
theorem committed_block_importable_four :
    ∃ block, ((fourCore [1, 2, 3, 4]).acceptCommit 3 [3]).assemble (fourProposal [1, 2, 3, 4])
        [1, 2, 3] = .ok block ∧
      verifyHeader firstByteHashes rootEngine 0 block [] = .ok () := by
  obtain ⟨block, hblock, hiff⟩ := committed_block_importable_iff firstByteHashes rootEngine
    fourConfig fourBackend (fourCore [1, 2, 3, 4]) fourSubject 3 [3] (by decide +kernel)
    (fourProposal [1, 2, 3, 4]) ⟨[1, 2, 3, 4], [1], [], []⟩ (by decide +kernel) rfl
    ⟨0, false, true, [], [1, 2, 3, 4], by decide +kernel⟩ [1, 2, 3]
    (by decide +kernel) (by decide +kernel)
  refine ⟨block, hblock, (hiff 0 [] (by decide +kernel) (fun hne => absurd rfl hne)).mpr ⟨?_, ?_⟩⟩
  · intro hzero
    exact absurd hzero (by decide +kernel)
  · intro _
    exact fourCore_sealsListed

/-- The first two validators seal the proposal they commit to, the fourth, the one Byzantine validator,
sends zeros: the core commits and the assembled block is rejected. So is the block of a proposal that
lists a stranger as the only validator, whose seals are all right. -/
theorem byzantine_seal_unimportable :
    ((fourCore [1, 2, 3, 4]).handleCommit fourConfig fourBackend fourSubject 4 [0]).committed =
        some (fourProposal [1, 2, 3, 4]) ∧
      (∃ block, ((fourCore [1, 2, 3, 4]).acceptCommit 4 [0]).assemble (fourProposal [1, 2, 3, 4])
          [1, 2, 4] = .ok block ∧
        verifyHeader firstByteHashes rootEngine 0 block [] = .err "invalid signature") ∧
      ((fourCore [5]).handleCommit fourConfig fourBackend fourSubject 3 [3]).committed =
        some (fourProposal [5]) ∧
      ∃ block, ((fourCore [5]).acceptCommit 3 [3]).assemble (fourProposal [5]) [1, 2, 3] =
          .ok block ∧
        verifyHeader firstByteHashes rootEngine 0 block [] = .err "unauthorized" := by
  refine ⟨by decide +kernel, ⟨_, assemble_eq_ok rfl (List.cons_ne_nil _ _), by decide +kernel⟩,
    by decide +kernel, ⟨_, assemble_eq_ok rfl (List.cons_ne_nil _ _), by decide +kernel⟩⟩

end Wormholes.Consensus
