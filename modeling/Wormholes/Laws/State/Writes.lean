import Wormholes.Laws.State.Split

/-!
# Laws.State.Writes — what single writes do to NFT parts

Laws of the writes that a change of owner, an exchange and a mint are made of, in terms of the NFT
parts they leave.
-/

namespace Wormholes

open Lib Lib.Forest Common

namespace StateDB

variable {H : Hasher} {s t u : StateDB}

/-- The tree of `t` is the tree of `s`: the same NFT parts, and no account less. -/
structure SameNFTs (s t : StateDB) : Prop where
  parts : nftAt t = nftAt s
  grows : ∀ b, (s.accounts b).isSome → (t.accounts b).isSome

theorem SameNFTs.refl (s : StateDB) : SameNFTs s s := ⟨rfl, fun _ h => h⟩

theorem SameNFTs.forestOf_eq (h : SameNFTs s t) : forestOf t = forestOf s := by
  unfold forestOf
  rw [h.parts]

/-- What leaves NFT parts alone leaves the tree alone. -/
theorem Steps.sameNFTs {P : Address → StateObject → StateObject → Prop} (h : Steps P s t)
    (hP : ∀ {a o o'}, P a o o' → o'.nft = o.nft) : SameNFTs s t :=
  ⟨funext fun a => h.view_eq hP a, fun _ hb => h.exist hb⟩

theorem getOrNewStateObject_sameNFTs (s : StateDB) (a : Address) :
    SameNFTs s (s.getOrNewStateObject a).1 :=
  (getOrNewStateObject_steps s a (P := fun _ _ _ => False)).sameNFTs fun h => h.elim

theorem nftAt_changeObjectOwner {A N : Address} {o : StateObject} (ho : s.accounts A = some o) :
    nftAt (s.changeObjectOwner A o N) = Function.update (nftAt s) A
      (if o.nft.owner = N then o.nft else { o.nft with owner := N, nftApproveAddressList := 0 }) := by
  have hnft : nftAt s A = o.nft := view_of_some _ ho
  unfold changeObjectOwner
  split
  · rw [← hnft, Function.update_eq_self]
  · funext b
    by_cases hb : b = A
    · subst hb
      rw [Function.update_self, nftAt, view_change_self]
    · rw [Function.update_of_ne hb, nftAt, view_change_of_ne _ _ _ _ hb,
        view_change_of_ne _ _ _ _ hb, ← nftAt]

theorem getOrNewStateObject_of_some {a : Address} {o : StateObject} (h : s.accounts a = some o) :
    s.getOrNewStateObject a = (s, o) := by
  rw [getOrNewStateObject, show s.getStateObject a = some o from h]

theorem nftAt_createAccount (a : Address) :
    nftAt (s.createAccount a) = Function.update (nftAt s) a .blank := by
  funext b
  by_cases hb : b = a
  · subst hb
    obtain ⟨x, hx⟩ := createAccount_found s b
    rw [Function.update_self, nftAt, view_of_some _ hx]
    rfl
  · rw [Function.update_of_ne hb]
    exact (createAccount_steps s a (P := fun c _ _ => c = a) fun _ => rfl).view_eq_at
      fun h => absurd h hb

/-- The state with the account at an address written anew with an NFT part. -/
def written (s : StateDB) (a : Address) (i : AccountNFT) : StateDB := (s.createAccount a).putNFTInfo a i

theorem nftAt_written (a : Address) (i : AccountNFT) :
    nftAt (s.written a i) = Function.update (nftAt s) a i := by
  rw [written, nftAt_putNFTInfo, nftAt_createAccount, Function.update_idem]

/-- The NFT part of an official mint. -/
def mintInfo (Q : Address) (info : InjectedInfo) : AccountNFT :=
  { AccountNFT.blank with
    owner := Q, creator := hexToAddress info.creator, royalty := info.royalty,
    metaURL := info.metalUrl }

end StateDB

end Wormholes
