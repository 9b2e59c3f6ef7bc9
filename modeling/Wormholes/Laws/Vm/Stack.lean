import Mathlib.Logic.Relation
import Wormholes.Laws.Chain.Steps
import Wormholes.Laws.Vm.Memory
import Wormholes.Vm.Interpreter

/-!
# Laws.Vm.Stack — the declared stack bounds against the real ones

The interpreter checks the bounds an opcode's table entry declares; the opcode pops what its code
pops. `touched` and `pushed` are the real numbers, tied to the code by `execute_underflow_iff` and
`height_execute`. They fit the declared ones for every opcode but `NISAPPROVEDFORALL`, which
declares one item and pops two.
-/

namespace Wormholes.Vm

open Lib

/-- How many items an opcode's code pops or peeks. -/
def OpCode.touched : OpCode → ℕ
  | .stop | .push _ => 0
  | .pop | .mload | .nBalanceOf | .nOwnerOf | .nGetApproved | .nTokenURI | .nName | .nSymbol
  | .nCreator | .nIsExist | .nRoyaltyRatio => 1
  | .mstore | .mstore8 | .nApprove | .nSetApprovalForAll | .nIsApprovedForAll => 2
  | .nTransferFrom | .nMint => 3

/-- How many items an opcode's code leaves in place of those. -/
def OpCode.pushed : OpCode → ℕ
  | .stop | .pop | .mstore | .mstore8 | .nTransferFrom | .nApprove | .nSetApprovalForAll => 0
  | .push _ | .mload | .nBalanceOf | .nOwnerOf | .nGetApproved | .nIsApprovedForAll | .nTokenURI
  | .nMint | .nName | .nSymbol | .nCreator | .nIsExist | .nRoyaltyRatio => 1

/-! ## Opcodes -/

/-- A reason to stop other than an empty stack. -/
def NotStarved (e : Stop) : Prop := e ≠ .panic .stackUnderflow

/-- The computation does not find the stack empty. -/
abbrev Fed {α : Type} (x : Except Stop α) (Q : α → Prop) : Prop := Ensures NotStarved x Q

theorem Fed.of_accesses {α : Type} {x : Except Stop α} {Q : α → Prop} (h : Accesses x Q) : Fed x Q := by
  refine h.weaken ?_
  rintro _ ⟨p, rfl | rfl | rfl, rfl⟩ <;> exact fun hne => Stop.noConfusion hne (by simp)

/-- What an opcode that touches `pops` items and leaves `pushes` does to a stack `st`. -/
structure Balanced (pops pushes : ℕ) (st : Stack) (r : Except Stop Frame) : Prop where
  starved : st.length < pops → r = fault .stackUnderflow
  fed : pops ≤ st.length → Fed r fun g => g.stack.length + pops = st.length + pushes

theorem fed_withRes (f : Frame) (r : Res StateDB) :
    Fed (f.withRes r) fun g => g.stack.length = f.stack.length := by
  unfold Frame.withRes
  split <;> simp [fault, NotStarved]

/-- A pop, then the rest of the opcode on the stack it leaves. -/
theorem Balanced.pop {pops pushes : ℕ} {st : Stack} {k : Word × Stack → Except Stop Frame}
    (h : ∀ w st', st = w :: st' → Balanced pops pushes st' (k (w, st'))) :
    Balanced (pops + 1) pushes st (Stack.pop st >>= k) := by
  cases st with
  | nil => exact ⟨fun _ => rfl, fun hlen => absurd hlen (by simp)⟩
  | cons w st' =>
    have hrest := h w st' rfl
    refine ⟨fun hlen => hrest.starved ?_, fun hlen => (hrest.fed ?_).mono fun g hg => ?_⟩
    · simpa using hlen
    · simpa using hlen
    · simp only [List.length_cons]
      omega

/-- The end of an opcode, which pops nothing more. -/
theorem Balanced.done {pushes : ℕ} {st : Stack} {r : Except Stop Frame}
    (h : Fed r fun g => g.stack.length = st.length + pushes) : Balanced 0 pushes st r :=
  ⟨fun hlen => absurd hlen (Nat.not_lt_zero _), fun _ => h⟩

variable (K : Crypto) (c : Contract) (f : Frame)

theorem balanced_overwriteTop (read : StateDB → Address → Word) :
    Balanced 1 1 f.stack (overwriteTop read f) :=
  .pop fun _ _ _ => .done (by simp)

theorem balanced_overwriteTopText (read : StateDB → Address → GoString) :
    Balanced 1 1 f.stack (overwriteTopText read f) :=
  .pop fun _ _ _ => .done (Ensures.bind (Fed.of_accesses (accesses_storeText _ _)) fun _ _ => by simp)

theorem balanced_opNMint : Balanced 3 1 f.stack (opNMint c f) := by
  refine .pop fun _ _ _ => .pop fun _ _ _ => .pop fun _ st _ => .done ?_
  dsimp only
  split
  · refine Ensures.bind (Fed.of_accesses (accesses_readText f.memory _)) fun uri _ => ?_
    simp
  · simp [NotStarved]

/-- Every opcode touches and leaves what `touched` and `pushed` say. -/
theorem balanced_execute (op : OpCode) : Balanced op.touched op.pushed f.stack (execute K c op f) := by
  cases op with
  | stop => exact .done (by simp [execute, NotStarved])
  | push n => exact .done (by simp [execute, opPush, OpCode.pushed])
  | pop => exact .pop fun _ _ _ => .done (by simp [OpCode.pushed])
  | mload =>
    refine .pop fun _ _ _ => .done ?_
    refine Ensures.bind (Fed.of_accesses (accesses_getPtr f.memory _ 32)) fun bs _ => ?_
    simp [OpCode.pushed]
  | mstore =>
    refine .pop fun _ _ _ => .pop fun _ _ _ => .done ?_
    exact Ensures.bind (Fed.of_accesses (accesses_write f.memory _ _ _)) fun _ _ => by
      simp [OpCode.pushed]
  | mstore8 =>
    refine .pop fun _ _ _ => .pop fun _ _ _ => .done ?_
    dsimp only
    split <;> simp [fault, NotStarved, OpCode.pushed]
  | nTransferFrom =>
    exact .pop fun _ _ _ => .pop fun _ _ _ => .pop fun _ _ _ => .done (fed_withRes _ _)
  | nApprove => exact .pop fun _ _ _ => .pop fun _ _ _ => .done (fed_withRes _ _)
  | nSetApprovalForAll => exact .pop fun _ _ _ => .pop fun _ _ _ => .done (by simp [OpCode.pushed])
  | nIsApprovedForAll => exact .pop fun _ _ _ => .pop fun _ _ _ => .done (by simp [OpCode.pushed])
  | nMint => exact balanced_opNMint c f
  | nTokenURI => exact balanced_overwriteTopText f _
  | nName => exact balanced_overwriteTopText f _
  | nSymbol => exact balanced_overwriteTopText f _
  | nBalanceOf =>
    unfold execute opNBalanceOf
    exact balanced_overwriteTop f _
  | nOwnerOf =>
    unfold execute opNOwnerOf
    exact balanced_overwriteTop f _
  | nGetApproved =>
    unfold execute opNGetApproved
    exact balanced_overwriteTop f _
  | nCreator =>
    unfold execute opNCreator
    exact balanced_overwriteTop f _
  | nIsExist =>
    unfold execute opNIsExist
    exact balanced_overwriteTop f _
  | nRoyaltyRatio =>
    unfold execute opNRoyaltyRatio
    exact balanced_overwriteTop f _

variable {K c f}

/-- An opcode underflows the stack exactly when it holds fewer items than the code touches. -/
theorem execute_underflow_iff {op : OpCode} :
    execute K c op f = fault .stackUnderflow ↔ f.stack.length < op.touched := by
  refine ⟨fun h => ?_, (balanced_execute K c f op).starved⟩
  by_contra hlen
  exact ((balanced_execute K c f op).fed (Nat.le_of_not_lt hlen)).ne_error (fun hne => hne rfl) h

theorem height_execute {op : OpCode} {g : Frame} (h : execute K c op f = .ok g) :
    g.stack.length + op.touched = f.stack.length + op.pushed := by
  have hlen : op.touched ≤ f.stack.length := by
    by_contra hlt
    have hfault := (execute_underflow_iff (K := K) (c := c)).mpr (Nat.lt_of_not_le hlt)
    rw [h] at hfault
    cases hfault
  exact ((balanced_execute K c f op).fed hlen).of_ok h

/-! ## Turns of the loop -/

variable {readOnly : Bool} {op : OpCode} {g : Frame}

theorem useGas_eq_ok {amount : ℕ} :
    useGas f amount = .ok g ↔ amount ≤ f.gas ∧ g = { f with gas := f.gas - amount } := by
  unfold useGas
  split
  next hlt => exact ⟨fun h => (by cases h), fun h => absurd h.1 (Nat.not_le.mpr hlt)⟩
  next hle =>
    refine ⟨fun h => ⟨Nat.le_of_not_lt hle, ?_⟩, fun h => ?_⟩
    · cases h
      rfl
    · rw [h.2]

/-- Growing the memory touches nothing else but the gas. -/
theorem expand_frame {memSize : ℕ} (h : expand f memSize = .ok g) :
    g.stack = f.stack ∧ g.pc = f.pc ∧ g.db = f.db := by
  simp only [expand] at h
  split at h
  next => cases h
  next =>
    split at h
    next => cases h
    next =>
      obtain ⟨f', hgas, h⟩ := bind_eq_ok.mp h
      obtain ⟨m, -, h⟩ := bind_eq_ok.mp h
      obtain ⟨-, rfl⟩ := useGas_eq_ok.mp hgas
      cases h
      exact ⟨rfl, rfl, rfl⟩

/-- What a turn has checked and paid when it comes to executing `op`. -/
structure Prepared (readOnly : Bool) (c : Contract) (f : Frame) (op : OpCode) (g : Frame) : Prop where
  fetched : getOp c f.pc = some op
  min : (jumpTable op).minStack ≤ f.stack.length
  max : f.stack.length ≤ (jumpTable op).maxStack
  allowed : (readOnly && (jumpTable op).writes) = false
  gas : (jumpTable op).constantGas ≤ f.gas
  grown :
    match (jumpTable op).memorySize with
    | none => g = { f with gas := f.gas - (jumpTable op).constantGas }
    | some length => ∃ memSize, calcMemSize64WithUint (f.stack.back 0) length = some memSize ∧
        expand { f with gas := f.gas - (jumpTable op).constantGas } memSize = .ok g

theorem prepare_eq_ok (h : prepare readOnly c f = .ok (op, g)) : Prepared readOnly c f op g := by
  unfold prepare at h
  split at h
  next => cases h
  next op' hop =>
    dsimp only at h
    split at h
    next => cases h
    next hmin =>
      split at h
      next => cases h
      next hmax =>
        split at h
        next => cases h
        next hallowed =>
          obtain ⟨f', hused, h⟩ := bind_eq_ok.mp h
          obtain ⟨hgas, rfl⟩ := useGas_eq_ok.mp hused
          have hallowed := Bool.eq_false_of_not_eq_true hallowed
          split at h
          next hnone =>
            cases h
            refine ⟨hop, Nat.le_of_not_lt hmin, Nat.le_of_not_lt hmax, hallowed, hgas, ?_⟩
            rw [hnone]
          next length hsome =>
            split at h
            next => cases h
            next memSize hsize =>
              obtain ⟨g', hexp, h⟩ := bind_eq_ok.mp h
              cases h
              refine ⟨hop, Nat.le_of_not_lt hmin, Nat.le_of_not_lt hmax, hallowed, hgas, ?_⟩
              rw [hsome]
              exact ⟨memSize, hsize, hexp⟩

theorem Prepared.frame (h : Prepared readOnly c f op g) :
    g.stack = f.stack ∧ g.pc = f.pc ∧ g.db = f.db := by
  have hgrown := h.grown
  split at hgrown
  next =>
    subst hgrown
    exact ⟨rfl, rfl, rfl⟩
  next =>
    obtain ⟨_, _, hexp⟩ := hgrown
    have hframe := expand_frame hexp
    exact hframe

theorem fed_useGas (f : Frame) (amount : ℕ) : Fed (useGas f amount) fun _ => True := by
  unfold useGas
  split <;> simp [NotStarved]

theorem fed_expand (f : Frame) (memSize : ℕ) : Fed (expand f memSize) fun _ => True := by
  unfold expand
  dsimp only
  split
  · simp [NotStarved]
  · split
    · simp [NotStarved]
    · refine (fed_useGas _ _).bind fun f' _ => ?_
      exact Ensures.bind (Fed.of_accesses (accesses_resize _ _)) fun _ _ => trivial

/-- The checks and charges of a turn report errors and do not touch the stack. -/
theorem fed_prepare (readOnly : Bool) (c : Contract) (f : Frame) :
    Fed (prepare readOnly c f) fun _ => True := by
  unfold prepare
  split
  · simp [NotStarved]
  · dsimp only
    split
    · simp [NotStarved]
    · split
      · simp [NotStarved]
      · split
        · simp [NotStarved]
        · refine (fed_useGas _ _).bind fun f' _ => ?_
          split
          · trivial
          · split
            · simp [NotStarved]
            · exact (fed_expand _ _).bind fun _ _ => trivial

/-- The frame `g` comes after `f` in a run of the loop. -/
def Reaches (K : Crypto) (readOnly : Bool) (c : Contract) : Frame → Frame → Prop :=
  Relation.ReflTransGen fun f g => step K readOnly c f = .ok g

theorem reaches_of_runFor {n : ℕ} (h : runFor K readOnly c n f = .ok g) :
    Reaches K readOnly c f g := by
  induction n generalizing f with
  | zero =>
    cases h
    exact .refl
  | succ n ih =>
    obtain ⟨f', hstep, hrest⟩ := bind_eq_ok.mp h
    exact .head hstep (ih hrest)

/-! ## The declared bounds -/

/-- Every opcode but one declares what it touches. -/
theorem touched_le_minStack (h : op ≠ .nIsApprovedForAll) :
    op.touched ≤ (jumpTable op).minStack := by
  cases op <;> first | exact Nat.zero_le _ | decide | exact absurd rfl h

/-- Only a push leaves more than it touches, and it declares so. -/
theorem pushed_le_touched_or : op.pushed ≤ op.touched ∨
    op.pushed = 1 ∧ op.touched = 0 ∧ (jumpTable op).maxStack = 1023 := by
  cases op <;> first | exact .inl (by decide) | exact .inr ⟨rfl, rfl, rfl⟩

theorem minStack_nIsApprovedForAll : (jumpTable .nIsApprovedForAll).minStack = 1 := rfl

/-- A turn keeps the stack within its limit. -/
theorem length_step (hlen : f.stack.length ≤ stackLimit) (h : step K readOnly c f = .ok g) :
    g.stack.length ≤ stackLimit := by
  obtain ⟨⟨op, f'⟩, hprep, h⟩ := bind_eq_ok.mp h
  obtain ⟨g', hexec, h⟩ := bind_eq_ok.mp h
  cases h
  have hp := prepare_eq_ok hprep
  have hheight := height_execute hexec
  rw [hp.frame.1] at hheight
  have hmax := hp.max
  unfold stackLimit at hlen ⊢
  rcases (pushed_le_touched_or : op.pushed ≤ op.touched ∨ _) with hle | ⟨hpush, htouch, hlimit⟩
  · dsimp only
    omega
  · dsimp only
    omega

theorem length_of_reaches {gas : ℕ} {db : StateDB} (h : Reaches K readOnly c (.start gas db) f) :
    f.stack.length ≤ stackLimit := by
  induction h with
  | refl => exact Nat.zero_le _
  | tail _ hstep ih => exact length_step ih hstep

/-- An opcode that executes underflows exactly when it is the misdeclared one and meets a single
item. -/
theorem touched_le_iff (h : Prepared readOnly c f op g) :
    op.touched ≤ g.stack.length ↔ ¬ (op = .nIsApprovedForAll ∧ f.stack.length = 1) := by
  have hmin := h.min
  rw [h.frame.1]
  by_cases hop : op = .nIsApprovedForAll
  · subst hop
    rw [minStack_nIsApprovedForAll] at hmin
    have htouched : OpCode.nIsApprovedForAll.touched = 2 := rfl
    rw [htouched]
    simp only [true_and]
    omega
  · have hle := touched_le_minStack hop
    simp only [hop, false_and, not_false_eq_true, iff_true]
    omega

/-! ## Runs -/

/-- In frame `f`, the opcode that executes next finds what it pops or peeks, its Go code does not
index an empty slice, and it leaves at most 1024 items. -/
structure StackSafe (K : Crypto) (readOnly : Bool) (c : Contract) (f : Frame) : Prop where
  enough : ∀ {op g}, prepare readOnly c f = .ok (op, g) → op.touched ≤ g.stack.length
  noUnderflow : step K readOnly c f ≠ fault .stackUnderflow
  bounded : f.stack.length ≤ stackLimit ∧
    ∀ {g}, step K readOnly c f = .ok g → g.stack.length ≤ stackLimit

/-- A frame that can pay for a `NISAPPROVEDFORALL` does not come to it with a single item. -/
def TwoForApproval (c : Contract) (f : Frame) : Prop :=
  getOp c f.pc = some .nIsApprovedForAll → gasExtStep ≤ f.gas → f.stack.length ≠ 1

/-- With one item and enough gas, `NISAPPROVEDFORALL` passes every check. -/
theorem prepare_nIsApprovedForAll (hop : getOp c f.pc = some .nIsApprovedForAll)
    (hgas : gasExtStep ≤ f.gas) (hlen : f.stack.length = 1) :
    prepare readOnly c f = .ok (.nIsApprovedForAll, { f with gas := f.gas - gasExtStep }) := by
  have hmax : (jumpTable .nIsApprovedForAll).maxStack = 1024 := rfl
  have hused : useGas f (jumpTable .nIsApprovedForAll).constantGas =
      .ok { f with gas := f.gas - gasExtStep } := useGas_eq_ok.mpr ⟨hgas, rfl⟩
  have hwrites : (readOnly && (jumpTable .nIsApprovedForAll).writes) = false := Bool.and_false _
  simp only [prepare, hop, minStack_nIsApprovedForAll, hmax, hlen, hused, hwrites]
  rfl

theorem stackSafe_iff_twoForApproval (hlen : f.stack.length ≤ stackLimit) :
    StackSafe K readOnly c f ↔ TwoForApproval c f := by
  refine ⟨fun hsafe hop hgas hone => ?_, fun htwo => ?_⟩
  · have hprep : prepare readOnly c f = _ := prepare_nIsApprovedForAll hop hgas hone
    have henough := hsafe.enough hprep
    exact (touched_le_iff (prepare_eq_ok hprep)).mp henough ⟨rfl, hone⟩
  · have henough : ∀ {op g}, prepare readOnly c f = .ok (op, g) → op.touched ≤ g.stack.length := by
      intro op g hprep
      have hp := prepare_eq_ok hprep
      refine (touched_le_iff hp).mpr ?_
      rintro ⟨rfl, hone⟩
      exact htwo hp.fetched hp.gas hone
    refine ⟨henough, fun hfault => ?_, hlen, fun hstep => length_step hlen hstep⟩
    have hfed : Fed (step K readOnly c f) fun _ => True := by
      refine Ensures.bind_eq (fun e he => ?_) fun ⟨op, g⟩ hprep => ?_
      · exact fun hbad => (fed_prepare readOnly c f).ne_error (fun hne => hne hbad) he
      · have hexec := (balanced_execute K c g op).fed (henough hprep)
        exact hexec.bind fun _ _ => trivial
    exact hfed.ne_error (fun hne => hne rfl) hfault

/-- A program keeps its stack safe in every run from an empty frame exactly when no frame it
reaches executes `NISAPPROVEDFORALL` on a single item. -/
theorem stack_safe_iff (K : Crypto) (readOnly : Bool) (c : Contract) (gas : ℕ) (db : StateDB) :
    (∀ f, Reaches K readOnly c (.start gas db) f → StackSafe K readOnly c f) ↔
      ∀ f, Reaches K readOnly c (.start gas db) f → TwoForApproval c f := by
  refine forall_congr' fun f => forall_congr' fun hreach => ?_
  exact stackSafe_iff_twoForApproval (length_of_reaches hreach)

/-- `PUSH1 0; NISAPPROVEDFORALL` passes the bounds check and then pops an empty stack. -/
theorem nIsApprovedForAll_underflows :
    ∃ f, Reaches .trivial false ⟨[0x60, 0x00, 0xbc], 0⟩ (.start 100 (Genesis.small []).emptyState) f ∧
      f.stack.length = 1 ∧ step .trivial false ⟨[0x60, 0x00, 0xbc], 0⟩ f = fault .stackUnderflow :=
  ⟨_, .single rfl, rfl, rfl⟩

end Wormholes.Vm
