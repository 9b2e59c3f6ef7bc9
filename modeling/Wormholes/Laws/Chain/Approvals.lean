import Wormholes.Laws.State.Approvals
import Wormholes.Laws.Chain.Accounts
import Wormholes.Laws.Chain.Trades

/-!
# Laws.Chain.Approvals — approvals and the present owner of a leaf

`Register` runs a chain and writes down who approved whom at which address; what a reverted frame
approved is struck out. `approved_by_present_owner`: in every state that a run reaches, whoever
`IsApprovedOne` names for a leaf was approved by the leaf's present owner, if no NFT is handed over
while an address inside it, its own apart, carries an approval. The condition is needed:
`ChangeNFTOwner` clears the approved address of the account at the address it is called with, and
`opNApprove` writes to the account of the leaf it names, be it inside a merged NFT
(`inner_approval_survives`).
-/

namespace Wormholes

open Lib Lib.Forest Common Core StateDB

variable {K : Crypto}
variable {H : Hasher} {A N : Address} {level : ℕ} {e : Event} {c : Chain}

/-! ## Operations -/

namespace StateDB

variable {s t : StateDB}

theorem finalise_follows (s : StateDB) : Follows s s.finalise :=
  follows_of_erased (nftAt_finalise s)

theorem reload_follows (s : StateDB) : Follows s s.reload :=
  follows_of_parts (nftAt_reload s)

theorem Steps.follows_balance (h : Steps BalanceOnly s t) : Follows s t :=
  h.follows fun hP => by
    obtain ⟨b, rfl⟩ := hP
    rfl

theorem Steps.follows_code (h : Steps CodeOnly s t) : Follows s t :=
  h.follows fun hP => by
    obtain ⟨n, c, st, rfl⟩ := hP
    rfl

theorem Steps.follows_exchanger {fee : ℕ} (h : Steps (ExchangerOnly fee) s t) : Follows s t :=
  h.follows fun hP => by
    obtain ⟨b, x, flag, block, rate, name, url, rfl, -⟩ := hP
    rfl

theorem Steps.follows_pledging (h : Steps PledgingOnly s t) : Follows s t :=
  h.follows fun hP => by
    obtain ⟨b, p, rfl⟩ := hP
    rfl

theorem Steps.follows_approveAll (h : Steps ApproveAllOnly s t) : Follows s t :=
  h.follows fun hP => by
    obtain ⟨l, rfl⟩ := hP
    rfl

theorem Steps.follows_payment (h : Steps PaymentOnly s t) : Follows s t :=
  h.follows fun hP => by
    obtain ⟨b, v, rfl⟩ := hP
    rfl

theorem Steps.follows_untouched (h : Steps (fun _ _ _ => False) s t) : Follows s t :=
  h.follows fun hP => hP.elim

theorem createAccount_follows (s : StateDB) (A : Address) : Follows s (s.createAccount A) := by
  refine follows_of_erased fun a => ?_
  rw [nftAt_createAccount]
  by_cases ha : a = A
  · rw [ha, Function.update_self]
    exact Or.inr rfl
  · rw [Function.update_of_ne ha]
    exact Or.inl rfl

theorem SameNFTs.clear (h : SameNFTs s t) (howner : getNFTOwner16 H s A ≠ 0)
    (hclear : ClearInside H s A N level) : ClearInside H t A N level := by
  unfold ClearInside handed approvedAt at hclear ⊢
  rw [h.splitStore_eq howner, h.parts]
  exact hclear

end StateDB

/-! ## Payloads -/

namespace Core

variable {G : Address → Address → Address → Prop} {db t : StateDB} {blocknumber value : ℕ}
  {caller addr : Address} {w : WormholesTx}

/-- Every NFT recorded around an address is the account's. -/
def Sole (s : StateDB) (A owner : Address) : Prop :=
  ∀ l < 7, (nftAt s (blockAddr l A)).mergeLevel = l → (nftAt s (blockAddr l A)).owner ≠ 0 →
    (nftAt s (blockAddr l A)).owner = owner

instance (s : StateDB) (A owner : Address) : Decidable (Sole s A owner) :=
  inferInstanceAs (Decidable (∀ l < 7, _ → _ → _))

/-- What a payload must meet to keep approvals with the present owners: it approves where every NFT
is the caller's, and it hands over an NFT that is clear. -/
structure PayloadClear (K : Crypto) (db : StateDB) (caller addr : Address) (w : WormholesTx) :
    Prop where
  approves : ∀ A level, w.type = 2 → getNftAddressAndLevel w.nftAddress = .ok (A, level) →
    Sole db A caller
  hands : ∀ A level N, handedOver caller addr w = some (A, level, N) →
    ClearInside K.toHasher (db.opened [A]) A N level

theorem Sole.granted {s : StateDB} {owner p : Address} (h : Sole s A owner) (hG : G owner A p) :
    ∀ l holder, l ≤ 6 → Covers 16 (forestOf s) A.toNat l holder → G holder A p := by
  intro l holder hl hcovers
  obtain ⟨hlevel, howner, hne⟩ := covers_iff.mp hcovers
  have hsole := h l (by omega) hlevel (howner ▸ hne)
  rw [← howner, hsole]
  exact hG

theorem sale_clear {paid : StateDB} (hpaid : Steps PaymentOnly db paid)
    (howner : getNFTOwner16 H db A ≠ 0) (hclear : ClearInside H (db.opened [A]) A N level) :
    ClearInside H (paid.getOrNewStateObject A).1 A N level := by
  have hsame : SameNFTs db paid := hpaid.sameNFTs fun hP => by
    obtain ⟨b, v, rfl⟩ := hP
    rfl
  refine (hsame.getOrNew A).clear ?_ hclear
  rw [(getOrNewStateObject_sameNFTs db A).owner_eq howner]
  exact howner

/-- A new user NFT is the only address of its block. -/
theorem mintSale_clear (hlevel : (nftAt db A).mergeLevel = 0) : ClearInside H db A N 0 := by
  have hzero : (handed H db A 0).1 = 0 := by
    unfold handed
    split
    · rfl
    · exact hlevel
  unfold ClearInside
  dsimp only
  intro _ a ha hin
  split at hin
  · rw [hzero, blockAddr_zero] at hin
    exact absurd hin ha
  · rw [hlevel, blockAddr_zero] at hin
    exact absurd hin ha

theorem settleMintSale_vouched (hG : BlockWise G) {buyer seller exchanger exclusive : Address}
    {royalty : ℕ} {metaURL : GoString}
    (h : settleMintSale H db buyer seller exchanger exclusive royalty metaURL value = some t)
    (hs : Vouched G db) : Vouched G t := by
  obtain ⟨paid, hpaid, hchange⟩ := settleMintSale_inv h
  have hminted := hs.follows hG (createNFTByUser_follows exclusive seller royalty metaURL)
  have hpayment := mintPaid_steps hpaid
  have hvouched := hminted.follows hG hpayment.follows_payment
  have hlevel : (nftAt (paid.getOrNewStateObject (bigToAddress db.pools.mintDeep.userMint)).1
      (bigToAddress db.pools.mintDeep.userMint)).mergeLevel = 0 := by
    have hparts : nftAt paid = nftAt (db.createNFTByUser exclusive seller royalty metaURL).1 :=
      (hpayment.sameNFTs fun hP => by
        obtain ⟨b, v, rfl⟩ := hP
        rfl).parts
    rw [nftAt_getOrNewStateObject, hparts]
    show (nftAt (db.written (bigToAddress db.pools.mintDeep.userMint) _) _).mergeLevel = 0
    rw [nftAt_written, Function.update_self]
    rfl
  obtain ⟨hleveled, horigin⟩ :=
    changeNFTOwner_follows (mintSale_clear hlevel) hchange hvouched.leveled
  exact hvouched.origin hG hleveled horigin

/-- A payload keeps approvals with the present owners. -/
theorem Handled.vouched (hG : BlockWise G) (hclear : PayloadClear K db caller addr w)
    (hgrant : ∀ A level, w.type = 2 → getNftAddressAndLevel w.nftAddress = .ok (A, level) →
      G caller A addr)
    (h : Handled K db blocknumber caller addr w value t) (hs : Vouched G db) : Vouched G t := by
  cases h with
  | userMint => exact hs.follows hG (createNFTByUser_follows _ _ _ _)
  | @transfer A level _ htype hnft _ h =>
    have hhands := hclear.hands A level addr (by simp [handedOver, htype, hnft])
    rw [← getOrNew_ensured] at hhands
    have hensured := hs.follows hG (Steps.follows_untouched (ensure_steps db A))
    obtain ⟨hleveled, horigin⟩ := changeNFTOwner_follows hhands h hensured.leveled
    exact hensured.origin hG hleveled horigin
  | @approve A level htype hnft _ =>
    exact changeNFTApproveAddress_vouched hG
      ((hclear.approves A level htype hnft).granted (hgrant A level htype hnft)) hs
  | unapprove => exact cancelNFTApproveAddress_vouched hG _ _ hs
  | approveAll => exact hs.follows hG (changeApproveAddress_steps _ _ _).follows_approveAll
  | unapproveAll => exact hs.follows hG (cancelApproveAddress_steps _ _ _).follows_approveAll
  | exchange _ _ _ _ h => exact hs.follows hG (exchangeNFTToCurrency_follows h)
  | nothing => exact hs
  | pledge => exact hs.follows hG (pledgeToken_steps _ _ _).follows_pledging
  | unpledge _ _ h => exact hs.follows hG (cancelPledgedToken_steps h).follows_pledging
  | openExchanger => exact hs.follows hG (openExchanger_steps _ _ _ _ _ _ _).follows_exchanger
  | closeExchanger _ h => exact hs.follows hG (closeExchanger_steps h).follows_exchanger
  | inject => exact hs.follows hG (injectOfficialNFT_steps _ _).follows_untouched
  | sale hmoved _ _ howner _ _ h =>
    obtain ⟨paid, hpaid, hchange⟩ := settleSale_inv h
    have hpayment := paid_steps hpaid
    have hvouched := hs.follows hG hpayment.follows_payment
    have hhands := sale_clear hpayment howner (hclear.hands _ _ _ hmoved)
    obtain ⟨hleveled, horigin⟩ := changeNFTOwner_follows hhands hchange hvouched.leveled
    exact hvouched.origin hG hleveled horigin
  | mintSale _ _ _ h => exact settleMintSale_vouched hG h hs
  | addStake _ _ h => exact hs.follows hG (addExchangerToken_steps h).follows_exchanger
  | subStake _ _ h => exact hs.follows hG (subExchangerToken_steps h).follows_exchanger
  | vote => exact hs.follows hG (voteOfficialNFT_steps _ _).follows_untouched
  | online =>
    exact (hs.follows hG (transfer_steps _ _ _ _).follows_balance).follows hG
      (addOrUpdateActiveMiner_steps _ _ _ _).follows_untouched

end Core

/-! ## Registers -/

/-- One approval: who gave it, at which address and to whom. -/
structure Grant where
  owner : Address
  nft : Address
  approved : Address
deriving DecidableEq

/-- A chain with the approvals that were made, and those made before each of its snapshots. -/
structure Register where
  chain : Chain
  grants : List Grant
  saved : List (ℕ × List Grant)

namespace Register

def start (g : Genesis) : Register := ⟨g.chain, [], []⟩

/-- The approval an operation makes: an `opNApprove` of the owner, or a type 2 that goes through. -/
def made (K : Crypto) (c : Chain) : Event → List Grant
  | .nApprove caller toAddr nftAddr =>
    if caller = getNFTOwner16 K.toHasher c.db nftAddr then [⟨caller, nftAddr, toAddr⟩] else []
  | .call caller addr (.wormholes w) value =>
    if w.type = 2 ∧ (value = 0 ∨ c.db.canTransfer caller value = true) then
      match handleNFT K c.db.snapshot c.number caller addr w value,
          getNftAddressAndLevel w.nftAddress with
      | .ok _, .ok (nftAddress, _) => [⟨caller, nftAddress, addr⟩]
      | _, _ => []
    else []
  | _ => []

/-- The register after an operation that leaves the chain `c`. A revert strikes out what was
approved since the snapshot. -/
def after (K : Crypto) (r : Register) (c : Chain) : Event → Register
  | .revert id =>
    let kept := r.saved.dropWhile fun q => decide (q.1 > id)
    ⟨c, (kept.head?.map Prod.snd).getD [], kept.tail⟩
  | .finalise => ⟨c, r.grants, []⟩
  | .finalizeBlock _ => ⟨c, r.grants, []⟩
  | e =>
    ⟨c, r.grants ++ made K r.chain e,
      if c.saved.length = r.chain.saved.length then r.saved
      else (r.chain.db.nextRevisionId, r.grants) :: r.saved⟩

def step (K : Crypto) (e : Event) (r : Register) : Option Register :=
  (Chain.step K e r.chain).map fun c => r.after K c e

/-- Some approval of the list is the owner's, at an address of the same block of seven digits. -/
def Granted (grants : List Grant) (owner a approved : Address) : Prop :=
  ∃ g ∈ grants, g.owner = owner ∧ g.approved = approved ∧ blockAddr 7 g.nft = blockAddr 7 a

theorem granted_blockWise (grants : List Grant) : BlockWise (Granted grants) := by
  intro owner a b approved hblock h
  obtain ⟨g, hg, howner, happroved, hnft⟩ := h
  exact ⟨g, hg, howner, happroved, hnft.trans hblock⟩

theorem Granted.append {grants : List Grant} (more : List Grant) {owner a approved : Address}
    (h : Granted grants owner a approved) : Granted (grants ++ more) owner a approved := by
  obtain ⟨g, hg, hrest⟩ := h
  exact ⟨g, List.mem_append_left more hg, hrest⟩

/-- What keeps approvals with the present owners of leaves. An operation that approves does so where
every NFT around the address is its caller's; one that hands over an NFT hands over no address that
carries an approval, the NFT's own apart. -/
def KeepsApprovals (K : Crypto) (r : Register) : Event → Prop
  | .nApprove caller _ nftAddr =>
    caller = getNFTOwner16 K.toHasher r.chain.db nftAddr → Sole r.chain.db nftAddr caller
  | .nTransferFrom caller fromAddr toAddr nftAddr =>
    ∀ t, opNTransferFrom K r.chain.db caller fromAddr toAddr nftAddr = .ok t →
      ClearInside K.toHasher (r.chain.db.opened [nftAddr]) nftAddr toAddr 0
  | .call caller addr (.wormholes w) value =>
    value = 0 ∨ r.chain.db.canTransfer caller value = true →
      ∀ t, handleNFT K r.chain.db.snapshot r.chain.number caller addr w value = .ok t →
        PayloadClear K r.chain.db.snapshot caller addr w
  | _ => True

/-- In the current state and in that of every snapshot, the owners of the NFTs around an approved
address approved it. -/
structure Ok (r : Register) : Prop where
  saved : r.chain.SavedOk
  now : Vouched (Granted r.grants) r.chain.db
  before : List.Forall₂ (fun p q => p.1 = q.1 ∧ Vouched (Granted q.2) p.2) r.chain.saved r.saved

variable {r r' : Register} {G : Address → Address → Address → Prop}

/-- An operation other than the opcodes that approve and transfer. -/
theorem effect_vouched (hG : BlockWise G) {n : ℕ} {s t : StateDB} (h : Effect K n e s t)
    (hfrom : ∀ caller fromAddr toAddr nftAddr, e ≠ .nTransferFrom caller fromAddr toAddr nftAddr)
    (happrove : ∀ caller toAddr nftAddr, e ≠ .nApprove caller toAddr nftAddr)
    (hpayload : ∀ caller addr w value, e = .call caller addr (.wormholes w) value →
      handleNFT K s n caller addr w value = .ok t → PayloadClear K s caller addr w ∧
        ∀ A level, w.type = 2 → getNftAddressAndLevel w.nftAddress = .ok (A, level) →
          G caller A addr) (hs : Vouched G s) : Vouched G t := by
  cases h with
  | skip => exact hs
  | transfer => exact hs.follows hG (transfer_steps _ _ _ _).follows_balance
  | payload h =>
    obtain ⟨hclear, hgrant⟩ := hpayload _ _ _ _ rfl h
    exact (handleNFT_inv h).vouched hG hclear hgrant hs
  | nonce => exact hs.follows hG (setNonce_steps _ _ _).follows_code
  | @created caller addr value _ _ =>
    exact ((hs.follows hG (createAccount_follows s addr)).follows hG
      (setNonce_steps _ _ _).follows_code).follows hG (transfer_steps _ _ _ _).follows_balance
  | touch => exact hs.follows hG (addBalance_steps _ _ _).follows_balance
  | sstore => exact hs.follows hG (setState_steps _ _ _ _).follows_code
  | setCode => exact hs.follows hG (setCode_steps _ _ _).follows_code
  | selfDestruct =>
    refine hs.follows hG ((opSuicide_steps _ _ _).follows fun hP => ?_)
    rcases hP with ⟨b, rfl⟩ | rfl
    · rfl
    · rfl
  | nTransferFrom => exact absurd rfl (hfrom _ _ _ _)
  | nApprove => exact absurd rfl (happrove _ _ _)
  | nApproveAll => exact hs.follows hG (changeApproveAddress_steps _ _ _).follows_approveAll
  | nUnapproveAll => exact hs.follows hG (cancelApproveAddress_steps _ _ _).follows_approveAll
  | nMint => exact hs.follows hG (createNFTByUser_follows _ _ _ _)
  | buyGas => exact hs.follows hG (subBalance_steps _ _ _).follows_balance
  | setNonce => exact hs.follows hG (setNonce_steps _ _ _).follows_code
  | credit => exact hs.follows hG (addBalance_steps _ _ _).follows_balance

theorem vouched_of_equiv {s t : StateDB} (hequiv : t.accounts.Equiv s.accounts) (hs : Vouched G s)
    (hG : BlockWise G) : Vouched G t :=
  hs.follows hG (follows_of_parts (nftAt_of_equiv hequiv))

/-- Lists that agree in their ids lose the same entries. -/
theorem forall₂_dropWhile {α β : Type} {R : ℕ × α → ℕ × β → Prop}
    (hR : ∀ {p q}, R p q → p.1 = q.1) (id : ℕ) {l : List (ℕ × α)} {l' : List (ℕ × β)}
    (h : List.Forall₂ R l l') :
    List.Forall₂ R (l.dropWhile fun p => decide (p.1 > id))
      (l'.dropWhile fun q => decide (q.1 > id)) := by
  induction h with
  | nil => exact .nil
  | @cons p q l l' hpq hrest ih =>
    rw [List.dropWhile_cons, List.dropWhile_cons, hR hpq]
    split
    · exact ih
    · exact .cons hpq hrest

/-- Within a block and without a revert, the register takes up what was approved. -/
theorem after_inner (hrevert : ∀ id, e ≠ .revert id) (hfinalise : e ≠ .finalise)
    (hblock : ∀ bs, e ≠ .finalizeBlock bs) :
    r.after K c e = ⟨c, r.grants ++ made K r.chain e,
      if c.saved.length = r.chain.saved.length then r.saved
      else (r.chain.db.nextRevisionId, r.grants) :: r.saved⟩ := by
  cases e with
  | revert id => exact absurd rfl (hrevert id)
  | finalise => exact absurd rfl hfinalise
  | finalizeBlock bs => exact absurd rfl (hblock bs)
  | _ => rfl

/-- A new state, with the snapshots as they were. -/
theorem Ok.stay (hr : r.Ok) {more : List Grant} (hsaved : c.SavedOk)
    (hsame : c.saved = r.chain.saved) (hnow : Vouched (Granted (r.grants ++ more)) c.db) :
    Ok ⟨c, r.grants ++ more, if c.saved.length = r.chain.saved.length then r.saved
      else (r.chain.db.nextRevisionId, r.grants) :: r.saved⟩ := by
  refine ⟨hsaved, hnow, ?_⟩
  rw [hsame, if_pos rfl]
  exact hr.before

/-- A new state after a snapshot. -/
theorem Ok.enter (hr : r.Ok) {more : List Grant} {s : StateDB} (hsaved : c.SavedOk)
    (hpushed : c.saved = (r.chain.db.nextRevisionId, s) :: r.chain.saved)
    (hs : Vouched (Granted r.grants) s) (hnow : Vouched (Granted (r.grants ++ more)) c.db) :
    Ok ⟨c, r.grants ++ more, if c.saved.length = r.chain.saved.length then r.saved
      else (r.chain.db.nextRevisionId, r.grants) :: r.saved⟩ := by
  refine ⟨hsaved, hnow, ?_⟩
  have hlonger : c.saved.length ≠ r.chain.saved.length := by
    rw [hpushed, List.length_cons]
    omega
  rw [if_neg hlonger, hpushed]
  exact .cons ⟨rfl, hs⟩ hr.before

theorem Ok.more (hr : r.Ok) (more : List Grant) : Vouched (Granted (r.grants ++ more)) r.chain.db :=
  hr.now.mono fun _ _ _ h => h.append more

theorem step_nTransferFrom {caller fromAddr toAddr nftAddr : Address} (hr : r.Ok)
    (hclear : KeepsApprovals K r (.nTransferFrom caller fromAddr toAddr nftAddr))
    (h : step K (.nTransferFrom caller fromAddr toAddr nftAddr) r = some r') : r'.Ok := by
  obtain ⟨c, hc, rfl⟩ := Option.map_eq_some_iff.mp h
  have hsaved := Chain.step_savedOk hc hr.saved
  have hres : r.chain.ofRes (opNTransferFrom K r.chain.db caller fromAddr toAddr nftAddr) = some c :=
    hc
  cases hop : opNTransferFrom K r.chain.db caller fromAddr toAddr nftAddr with
  | panic =>
    rw [hop] at hres
    cases hres
  | err msg =>
    rw [hop] at hres
    cases hres
    exact hr.stay hsaved rfl (hr.more _)
  | ok t =>
    have hchange : changeNFTOwner K.toHasher r.chain.db nftAddr toAddr 0 = some t := by
      unfold opNTransferFrom at hop
      dsimp only at hop
      split at hop
      · exact Res.ofOption_eq_ok.mp hop
      · cases hop
    rw [hop] at hres
    cases hres
    refine hr.stay hsaved rfl ?_
    obtain ⟨hleveled, horigin⟩ := changeNFTOwner_follows (hclear t hop) hchange hr.now.leveled
    exact (hr.more _).origin (granted_blockWise _) hleveled horigin

theorem step_nApprove {caller toAddr nftAddr : Address} (hr : r.Ok)
    (hsole : KeepsApprovals K r (.nApprove caller toAddr nftAddr))
    (h : step K (.nApprove caller toAddr nftAddr) r = some r') : r'.Ok := by
  obtain ⟨c, hc, rfl⟩ := Option.map_eq_some_iff.mp h
  have hsaved := Chain.step_savedOk hc hr.saved
  have hres : r.chain.ofRes (opNApprove K r.chain.db caller toAddr nftAddr) = some c := hc
  by_cases howner : caller = getNFTOwner16 K.toHasher r.chain.db nftAddr
  · rw [opNApprove, if_pos howner] at hres
    cases hres
    refine hr.stay hsaved rfl (changeNFTApproveAddress_vouched (granted_blockWise _) ?_ (hr.more _))
    refine (hsole howner).granted ⟨⟨caller, nftAddr, toAddr⟩, ?_, rfl, rfl, rfl⟩
    rw [made, if_pos howner]
    exact List.mem_append_right _ List.mem_cons_self
  · rw [opNApprove, if_neg howner] at hres
    cases hres
    exact hr.stay hsaved rfl (hr.more _)

theorem step_revert {id : ℕ} (hr : r.Ok) (h : step K (.revert id) r = some r') : r'.Ok := by
  obtain ⟨c, hc, rfl⟩ := Option.map_eq_some_iff.mp h
  have hsaved := Chain.step_savedOk hc hr.saved
  obtain ⟨db, hdb, rfl⟩ := Option.map_eq_some_iff.mp hc
  obtain ⟨p, ps, hdrop, -, hequiv, -, -, -⟩ := Tracked.revert hr.saved hdb
  have hkept := forall₂_dropWhile (fun hpq => hpq.1) id hr.before
  rw [hdrop] at hkept
  obtain ⟨q, qs, ⟨-, hvouched⟩, hrest, hq⟩ := List.forall₂_cons_left_iff.mp hkept
  refine ⟨hsaved, ?_, ?_⟩
  · show Vouched (Granted (((r.saved.dropWhile _).head?.map Prod.snd).getD [])) db
    rw [hq]
    exact vouched_of_equiv hequiv hvouched (granted_blockWise _)
  · show List.Forall₂ _ (r.chain.saved.dropWhile _).tail (r.saved.dropWhile _).tail
    rw [hdrop, hq]
    exact hrest

/-- A call that enters its frame had the funds. -/
theorem funds_of_entered {caller addr : Address} {input : CallInput} {value : ℕ} {db : StateDB}
    (h : Chain.step K (.call caller addr input value) c = some (c.entered db)) :
    value = 0 ∨ c.db.canTransfer caller value = true := by
  by_contra hcon
  push Not at hcon
  simp only [Chain.step] at h
  rw [if_pos ⟨hcon.1, hcon.2⟩] at h
  have hlength := congrArg (fun x : Chain => x.saved.length) (Option.some.inj h)
  simp [Chain.entered] at hlength

theorem payload_granted {caller addr : Address} {w : WormholesTx} {value : ℕ} {t : StateDB}
    (hfunds : value = 0 ∨ r.chain.db.canTransfer caller value = true)
    (h : handleNFT K r.chain.db.snapshot r.chain.number caller addr w value = .ok t)
    (htype : w.type = 2) (hnft : getNftAddressAndLevel w.nftAddress = .ok (A, level)) :
    Granted (r.grants ++ made K r.chain (.call caller addr (.wormholes w) value)) caller A
      addr := by
  refine ⟨⟨caller, A, addr⟩, List.mem_append_right _ ?_, rfl, rfl, rfl⟩
  rw [made, if_pos ⟨htype, hfunds⟩, h, hnft]
  exact List.mem_cons_self

theorem step_inner (hr : r.Ok) (hkeeps : KeepsApprovals K r e) (hrevert : ∀ id, e ≠ .revert id)
    (hfinalise : e ≠ .finalise) (hblock : ∀ bs, e ≠ .finalizeBlock bs)
    (hfrom : ∀ caller fromAddr toAddr nftAddr, e ≠ .nTransferFrom caller fromAddr toAddr nftAddr)
    (happrove : ∀ caller toAddr nftAddr, e ≠ .nApprove caller toAddr nftAddr)
    (h : step K e r = some r') : r'.Ok := by
  obtain ⟨c, hc, rfl⟩ := Option.map_eq_some_iff.mp h
  have hsaved := Chain.step_savedOk hc hr.saved
  rw [after_inner hrevert hfinalise hblock]
  have hmore := hr.more (made K r.chain e)
  have hG := granted_blockWise (r.grants ++ made K r.chain e)
  cases Chain.step_inv hc with
  | skip => exact hr.stay hsaved rfl hmore
  | stay hcall heffect =>
    refine hr.stay hsaved rfl (effect_vouched hG heffect hfrom happrove ?_ hmore)
    intro caller addr w value he
    subst he
    cases hcall
  | enter heffect =>
    have hsnapshot := hmore.follows hG (follows_of_parts (t := r.chain.db.snapshot) rfl)
    refine hr.enter hsaved rfl hr.now (effect_vouched hG heffect hfrom happrove ?_ hsnapshot)
    intro caller addr w value he hpayload
    subst he
    have hfunds := funds_of_entered hc
    exact ⟨hkeeps hfunds _ hpayload, fun A level => payload_granted hfunds hpayload⟩
  | @create caller addr value n db heffect =>
    have hnonce := (setNonce_steps r.chain.db caller n).follows_code
    have hid := (setNonce_steps r.chain.db caller n).journaled.nextId
    have hsnapshot := (hmore.follows hG hnonce).follows hG
      (follows_of_parts (t := (r.chain.db.setNonce caller n).snapshot) rfl)
    refine hr.enter hsaved ?_
      (hr.now.follows (granted_blockWise _) hnonce)
      (effect_vouched hG heffect hfrom happrove ?_ hsnapshot)
    · show ((r.chain.db.setNonce caller n).nextRevisionId, _) :: r.chain.saved = _
      rw [hid]
      rfl
    · intro caller addr w value he
      cases he
  | revert => exact absurd rfl (hrevert _)
  | finalise => exact absurd rfl hfinalise
  | block => exact absurd rfl (hblock _)

/-- Every step that keeps approvals keeps the register true of the state: who is approved there was
approved by an owner the register names. -/
theorem Ok.step (hr : r.Ok) (hkeeps : KeepsApprovals K r e) (h : Register.step K e r = some r') :
    r'.Ok := by
  cases e with
  | revert id => exact step_revert hr h
  | nTransferFrom caller fromAddr toAddr nftAddr => exact step_nTransferFrom hr hkeeps h
  | nApprove caller toAddr nftAddr => exact step_nApprove hr hkeeps h
  | finalise =>
    obtain ⟨c, hc, rfl⟩ := Option.map_eq_some_iff.mp h
    cases hc
    exact ⟨trivial, hr.now.follows (granted_blockWise _) (finalise_follows _), .nil⟩
  | finalizeBlock bs =>
    obtain ⟨c, hc, rfl⟩ := Option.map_eq_some_iff.mp h
    obtain ⟨db, hdb, rfl⟩ := Chain.step_finalizeBlock_inv hc
    have hG := granted_blockWise r.grants
    have hminted := (hr.now.follows hG (createNFTByOfficial16_follows hdb)).follows hG
      (finalise_follows db)
    refine ⟨trivial, ?_, .nil⟩
    refine Vouched.follows hG ?_ (reload_follows _)
    exact hminted.follows hG (follows_of_parts rfl)
  | _ =>
    refine step_inner hr hkeeps ?_ ?_ ?_ ?_ ?_ h
    all_goals
      intros
      exact fun he => by cases he

theorem ok_start (g : Genesis) : (start g).Ok := by
  refine ⟨trivial, ⟨fun a => ?_, fun a l owner happroved => ?_⟩, .nil⟩
  · have hblank : nftAt (start g).chain.db a = .blank := Chain.nftAt_genesis g a
    rw [hblank]
    exact Nat.zero_le _
  · have hblank : nftAt (start g).chain.db a = .blank := Chain.nftAt_genesis g a
    rw [approvedAt, hblank] at happroved
    exact absurd rfl happroved

end Register

/-- Whoever is approved for a leaf was approved by the leaf's present owner, at the leaf or at
another address of its block. -/
theorem approved_by_present_owner {g : Genesis} {es : List Event} {r : Register}
    (hrun : Run (Register.step K) (Register.KeepsApprovals K) (.start g) es r) {x p : Address}
    (hp : p ≠ 0) (happroved : isApprovedOne r.chain.db x p = true)
    (howned : getNFTOwner16 K.toHasher r.chain.db x ≠ 0) :
    ∃ given ∈ r.grants, given.owner = getNFTOwner16 K.toHasher r.chain.db x ∧ given.approved = p ∧
      blockAddr 7 given.nft = blockAddr 7 x := by
  have hok : r.Ok :=
    hrun.invariant (Register.ok_start g) fun hr hkeeps hstep => hr.step hkeeps hstep
  exact hok.now.approved_of_owner hp happroved howned

/-- An account is minted the first leaf, approves another for it and gives it away; the new owner
approves a third one. -/
theorem approved_by_present_owner_handed : ∃ r : Register,
    Run (Register.step .trivial) (Register.KeepsApprovals .trivial) (.start (.small []))
      ((([] ++ [Event.finalizeBlock [0xc0]]) ++ [.nApprove 0xc0 0xe0 firstLeaf]) ++
        [.nTransferFrom 0xc0 0xc0 0xd0 firstLeaf] ++ [.nApprove 0xd0 0xe1 firstLeaf]) r ∧
    isApprovedOne r.chain.db firstLeaf 0xe1 = true ∧
    ∃ given ∈ r.grants, given.owner = getNFTOwner16 Crypto.trivial.toHasher r.chain.db firstLeaf ∧
      given.approved = 0xe1 ∧ blockAddr 7 given.nft = blockAddr 7 firstLeaf := by
  have hall : ((Register.step .trivial (.finalizeBlock [0xc0]) (.start (.small []))).bind fun r₁ =>
      (Register.step .trivial (.nApprove 0xc0 0xe0 firstLeaf) r₁).bind fun r₂ =>
      (Register.step .trivial (.nTransferFrom 0xc0 0xc0 0xd0 firstLeaf) r₂).bind fun r₃ =>
      (Register.step .trivial (.nApprove 0xd0 0xe1 firstLeaf) r₃).map fun r₄ =>
        (decide (Sole r₁.chain.db firstLeaf 0xc0),
          (nftAt (r₂.chain.db.opened [firstLeaf]) firstLeaf).mergeLevel,
          decide (Sole r₃.chain.db firstLeaf 0xd0), isApprovedOne r₄.chain.db firstLeaf 0xe1,
          getNFTOwner16 Crypto.trivial.toHasher r₄.chain.db firstLeaf)) =
        some (true, 0, true, true, 0xd0) := by
    decide +kernel
  obtain ⟨r₁, h₁, hall⟩ := Option.bind_eq_some_iff.mp hall
  obtain ⟨r₂, h₂, hall⟩ := Option.bind_eq_some_iff.mp hall
  obtain ⟨r₃, h₃, hall⟩ := Option.bind_eq_some_iff.mp hall
  obtain ⟨r₄, h₄, hall⟩ := Option.map_eq_some_iff.mp hall
  simp only [Prod.mk.injEq, decide_eq_true_eq] at hall
  obtain ⟨hsole, hlevel, hsole', happroved, howner⟩ := hall
  have hok₁ : Register.KeepsApprovals .trivial (.start (.small [])) (.finalizeBlock [0xc0]) :=
    trivial
  have hok₂ : Register.KeepsApprovals .trivial r₁ (.nApprove 0xc0 0xe0 firstLeaf) := fun _ => hsole
  have hok₃ : Register.KeepsApprovals .trivial r₂ (.nTransferFrom 0xc0 0xc0 0xd0 firstLeaf) :=
    fun _ _ => mintSale_clear hlevel
  have hok₄ : Register.KeepsApprovals .trivial r₃ (.nApprove 0xd0 0xe1 firstLeaf) := fun _ => hsole'
  have hrun := ((((Run.nil _).snoc hok₁ h₁).snoc hok₂ h₂).snoc hok₃ h₃).snoc hok₄ h₄
  refine ⟨r₄, hrun, happroved, ?_⟩
  refine approved_by_present_owner hrun (by decide) happroved ?_
  rw [howner]
  decide

/-- Sixteen leaves merge. Their owner approves an account for the second leaf and gives the merged
NFT away: the account stays approved, and the new owner approved nobody. -/
theorem inner_approval_survives :
    ∃ (g : Genesis) (es : List Event) (e : Event) (r r' : Register) (x : Address),
      Run (Register.step .trivial) (fun _ _ => True) (.start g) es r ∧
      Register.step .trivial e r = some r' ∧
      getNFTOwner16 Crypto.trivial.toHasher r.chain.db x = 0xc0 ∧
      getNFTOwner16 Crypto.trivial.toHasher r'.chain.db x = 0xd0 ∧
      isApprovedOne r'.chain.db x 0xe0 = true ∧ r'.grants = [⟨0xc0, x, 0xe0⟩] := by
  have hall : ((runAll (Register.step .trivial) [.finalizeBlock (List.replicate 16 0xc0),
      .nApprove 0xc0 0xe0 (firstLeaf + 1)] (.start (.small []))).bind fun r =>
      (Register.step .trivial (.call 0xc0 0xd0 (.wormholes { WormholesTx.bare 1 with
        nftAddress := "0x800000000000000000000000000000000000000".toList }) 0) r).map fun r' =>
        (getNFTOwner16 Crypto.trivial.toHasher r.chain.db (firstLeaf + 1),
          getNFTOwner16 Crypto.trivial.toHasher r'.chain.db (firstLeaf + 1),
          isApprovedOne r'.chain.db (firstLeaf + 1) 0xe0, r'.grants)) =
        some (0xc0, 0xd0, true, [⟨0xc0, firstLeaf + 1, 0xe0⟩]) := by
    decide +kernel
  obtain ⟨r, hr, hall⟩ := Option.bind_eq_some_iff.mp hall
  obtain ⟨r', hr', hall⟩ := Option.map_eq_some_iff.mp hall
  simp only [Prod.mk.injEq] at hall
  exact ⟨_, _, _, r, r', _, Run.of_runAll (fun _ _ _ => trivial) hr, hr', hall⟩

end Wormholes
