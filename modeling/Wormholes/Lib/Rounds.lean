import Wormholes.Lib.Quorum

/-!
# Lib.Rounds — agreement of a vote in rounds

Voters agree on a value for each slot. A slot is voted on in rounds: a voter prepares a value, commits
to a value that a quorum prepared in the round, and announces a later round with the last round it
committed in and the value. A value may be prepared in a later round only with a justification: the
announcements of a quorum, and the value a quorum prepared in a round that none of them exceeds.

A log has the notes of all voters, the newest first, and is `Orderly` when every note of a voter that
is not faulty followed the rules at its time. `Orderly.commits_agree`: an orderly log commits a
quorum to one value of a slot at most, in whatever rounds. Nothing here names a program.
-/

namespace Wormholes.Lib

variable {V S D : Type}
variable {value value' : D} {r : ℕ}

/-- What a voter says about a slot. -/
inductive Note (S D : Type) where
  | prepare (slot : S) (round : ℕ) (value : D)
  | commit (slot : S) (round : ℕ) (value : D)
  /-- The voter goes to a round, with the last round in which it committed to a value. -/
  | change (slot : S) (round : ℕ) (last : Option (ℕ × D))

def Note.slot : Note S D → S
  | .prepare slot _ _ => slot
  | .commit slot _ _ => slot
  | .change slot _ _ => slot

def Note.round : Note S D → ℕ
  | .prepare _ round _ => round
  | .commit _ round _ => round
  | .change _ round _ => round

/-- The notes of all voters, the newest first. -/
abbrev Log (V S D : Type) := List (V × Note S D)

/-- Enough members satisfy the property, the faulty among them aside. -/
def Many (members faulty : Finset V) (quorum : ℕ) (p : V → Prop) : Prop :=
  ∃ Q ⊆ members, quorum ≤ Q.card ∧ ∀ v ∈ Q, v ∉ faulty → p v

section Many

variable {members faulty : Finset V} {quorum : ℕ} {p q : V → Prop}

theorem Many.mono (h : Many members faulty quorum p) (hpq : ∀ v, p v → q v) :
    Many members faulty quorum q := by
  obtain ⟨Q, hsub, hcard, hall⟩ := h
  exact ⟨Q, hsub, hcard, fun v hv hgood => hpq v (hall v hv hgood)⟩

/-- Two properties of many have a voter that is not faulty in common. -/
theorem Many.exists_both [DecidableEq V] (hquorum : members.card + faulty.card < 2 * quorum)
    (h : Many members faulty quorum p) (h' : Many members faulty quorum q) :
    ∃ v, v ∉ faulty ∧ p v ∧ q v := by
  obtain ⟨Q, hsub, hcard, hall⟩ := h
  obtain ⟨Q', hsub', hcard', hall'⟩ := h'
  have hcards : members.card + faulty.card < Q.card + Q'.card := by omega
  obtain ⟨v, hv, hv', hgood⟩ := exists_mem_inter_notMem hsub hsub' hcards
  exact ⟨v, hgood, hall v hv hgood, hall' v hv' hgood⟩

end Many

variable (members faulty : Finset V) (quorum : ℕ)

/-- A value may be prepared in a round: many announced the round, or a later one, without a last
value; or many announced it with last rounds up to one in which many prepared the value. -/
def Justified (log : Log V S D) (slot : S) (round : ℕ) (value : D) : Prop :=
  Many members faulty quorum (fun v => ∃ r ≥ round, (v, Note.change slot r none) ∈ log) ∨
    ∃ last,
      Many members faulty quorum (fun v => ∃ r ≥ round, ∃ prep,
        (v, Note.change slot r prep) ∈ log ∧ ∀ l d, prep = some (l, d) → l ≤ last) ∧
      Many members faulty quorum fun v => (v, Note.prepare slot last value) ∈ log

/-- A voter may say the note after the log. -/
def Admissible (log : Log V S D) (v : V) : Note S D → Prop
  | .prepare slot round value =>
    (∀ value', (v, .prepare slot round value') ∉ log) ∧
      (round ≠ 0 → Justified members faulty quorum log slot round value)
  | .commit slot round value =>
    Many members faulty quorum (fun u => (u, Note.prepare slot round value) ∈ log) ∧
      ∀ r prep, (v, .change slot r prep) ∈ log → r ≤ round
  | .change slot round last =>
    ∀ r value, (v, .commit slot r value) ∈ log → r < round → ∃ l d, last = some (l, d) ∧ r ≤ l

/-- Every note of a voter that is not faulty was admissible at its time. -/
inductive Orderly : Log V S D → Prop
  | nil : Orderly []
  | cons {log : Log V S D} {v : V} {n : Note S D} (h : Orderly log)
      (hnote : v ∉ faulty → Admissible members faulty quorum log v n) : Orderly ((v, n) :: log)

namespace Orderly

variable {members faulty quorum} {log : Log V S D} {v : V} {slot : S}
variable {round : ℕ}

section

variable (h : Orderly members faulty quorum log)
include h

/-- One admissible note of a voter, or none, follows an orderly log. -/
theorem append {notes : List (Note S D)}
    (hlen : notes.length ≤ 1)
    (hnotes : ∀ n ∈ notes, Admissible members faulty quorum log v n) :
    Orderly members faulty quorum (notes.map (Prod.mk v) ++ log) := by
  cases notes with
  | nil => exact h
  | cons n notes =>
    cases notes with
    | nil => exact .cons h fun _ => hnotes n List.mem_cons_self
    | cons n' notes => exact absurd hlen (by simp)

/-- A voter prepares one value of a round. -/
theorem once (hgood : v ∉ faulty) (hv : (v, .prepare slot round value) ∈ log)
    (hv' : (v, .prepare slot round value') ∈ log) : value = value' := by
  induction h with
  | nil => cases hv
  | cons h hnote ih =>
    rcases List.mem_cons.mp hv with heq | hold
    · rcases List.mem_cons.mp hv' with heq' | hold'
      · cases heq
        cases heq'
        rfl
      · cases heq
        exact absurd hold' ((hnote hgood).1 value')
    · rcases List.mem_cons.mp hv' with heq' | hold'
      · cases heq'
        exact absurd hold ((hnote hgood).1 value)
      · exact ih hold hold'

/-- A voter commits to what many prepared. -/
theorem prepared_of_commit (hgood : v ∉ faulty) (hv : (v, .commit slot round value) ∈ log) :
    Many members faulty quorum fun u => (u, Note.prepare slot round value) ∈ log := by
  induction h with
  | nil => cases hv
  | cons h hnote ih =>
    rcases List.mem_cons.mp hv with heq | hold
    · cases heq
      exact (hnote hgood).1.mono fun u hu => List.mem_cons_of_mem _ hu
    · exact (ih hold).mono fun u hu => List.mem_cons_of_mem _ hu

/-- A commitment is in the announcement of every later round. -/
theorem carried (hgood : v ∉ faulty) {last : Option (ℕ × D)}
    (hcommit : (v, .commit slot round value) ∈ log) (hchange : (v, .change slot r last) ∈ log)
    (hlt : round < r) :
    ∃ l d, last = some (l, d) ∧ round ≤ l := by
  induction h with
  | nil => cases hcommit
  | cons h hnote ih =>
    rcases List.mem_cons.mp hcommit with heq | hcommit'
    · rcases List.mem_cons.mp hchange with heq' | hchange'
      · cases heq
        cases heq'
      · cases heq
        have hle := (hnote hgood).2 r last hchange'
        omega
    · rcases List.mem_cons.mp hchange with heq' | hchange'
      · cases heq'
        exact hnote hgood round value hcommit' hlt
      · exact ih hcommit' hchange'

end

section Agreement

variable [DecidableEq V] (hquorum : members.card + faulty.card < 2 * quorum)
include hquorum

section

variable (h : Orderly members faulty quorum log)
include h

/-- What many prepared in a round is one value. -/
theorem prepared_unique
    (hv : Many members faulty quorum fun u => (u, Note.prepare slot round value) ∈ log)
    (hv' : Many members faulty quorum fun u => (u, Note.prepare slot round value') ∈ log) :
    value = value' := by
  obtain ⟨u, hgood, hu, hu'⟩ := hv.exists_both hquorum hv'
  exact h.once hgood hu hu'

variable (hmany : Many members faulty quorum fun u => (u, Note.commit slot round value) ∈ log)
include hmany

/-- Once many commit to a value in a round, what is justified in a later round is that value, if what
is prepared in later rounds is. -/
theorem justified_later {older : Log V S D} (hsub : older ⊆ log) (hlt : round < r)
    (hlater : ∀ {u last}, u ∉ faulty → round < last → (u, .prepare slot last value') ∈ older →
      value' = value) (hjust : Justified members faulty quorum older slot r value') :
    value' = value := by
  rcases hjust with hnil | ⟨last, hlast, hprepared⟩
  · -- a voter that committed would have announced its value
    obtain ⟨u, hu, ⟨r', hr', hchange⟩, hcommit⟩ := hnil.exists_both hquorum hmany
    obtain ⟨l, d, hsome, -⟩ := h.carried hu hcommit (hsub hchange) (by omega)
    cases hsome
  · obtain ⟨u, hu, ⟨r', hr', prep, hchange, hle⟩, hcommit⟩ := hlast.exists_both hquorum hmany
    obtain ⟨l, d, hsome, hl⟩ := h.carried hu hcommit (hsub hchange) (by omega)
    have hlast := hle l d hsome
    rcases (hl.trans hlast).eq_or_lt with heq | hlt'
    · -- the value was prepared in the round of the commitment itself
      rw [← heq] at hprepared
      have hprepared := hprepared.mono fun u hu => hsub hu
      exact h.prepared_unique hquorum hprepared (h.prepared_of_commit hu hcommit)
    · obtain ⟨u', hu', hprepare, -⟩ := hprepared.exists_both hquorum hprepared
      exact hlater hu' hlt' hprepare

/-- Once many commit to a value in a round, sooner or later, every later round prepares that value.
The induction is on the part of the log up to the prepared value. -/
theorem prepare_later {older : Log V S D} (holder : Orderly members faulty quorum older)
    (hsub : older ⊆ log)
    (hgood : v ∉ faulty) (hlt : round < r) (hv : (v, .prepare slot r value') ∈ older) :
    value' = value := by
  induction holder generalizing v r value' with
  | nil => cases hv
  | @cons older u n holder hnote ih =>
    have hsub' : older ⊆ log := fun x hx => hsub (List.mem_cons_of_mem _ hx)
    rcases List.mem_cons.mp hv with heq | hold
    · cases heq
      have hround : r ≠ 0 := by omega
      exact h.justified_later hquorum hmany hsub' hlt (ih hsub') ((hnote hgood).2 hround)
    · exact ih hsub' hgood hlt hold

/-- Once many commit to a value in a round, every later round justifies that value only. -/
theorem justified_eq (hlt : round < r) (hjust : Justified members faulty quorum log slot r value') :
    value' = value :=
  h.justified_later hquorum hmany (List.Subset.refl log) hlt
    (h.prepare_later hquorum hmany h (List.Subset.refl log)) hjust

/-- **Agreement.** Many commit to one value of a slot at most, in whatever rounds. -/
theorem commits_agree {round' : ℕ}
    (hmany' : Many members faulty quorum fun u => (u, Note.commit slot round' value') ∈ log) :
    value = value' := by
  obtain ⟨u, hu, hcommit, -⟩ := hmany.exists_both hquorum hmany
  obtain ⟨u', hu', hcommit', -⟩ := hmany'.exists_both hquorum hmany'
  have hprepared := h.prepared_of_commit hu hcommit
  have hprepared' := h.prepared_of_commit hu' hcommit'
  obtain ⟨x, hx, hprepare, -⟩ := hprepared.exists_both hquorum hprepared
  obtain ⟨x', hx', hprepare', -⟩ := hprepared'.exists_both hquorum hprepared'
  rcases lt_trichotomy round round' with hlt | heq | hlt
  · exact (h.prepare_later hquorum hmany h (fun _ hy => hy) hx' hlt hprepare').symm
  · rw [← heq] at hprepared'
    exact h.prepared_unique hquorum hprepared hprepared'
  · exact h.prepare_later hquorum hmany' h (fun _ hy => hy) hx hlt hprepare

end

end Agreement

end Orderly

end Wormholes.Lib
