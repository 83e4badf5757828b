import TiiSel4Vm.Lib.Ownership
import TiiSel4Vm.Lib.Transition
import TiiSel4Vm.Rpc.Bitmap

/-!
# Lending message buffers

`rpcmsg_lend_buffer` looks for a clear bit of the buffer state and sets it in a second step.
Threads lend, hand messages on and reclaim what they hold, in any order of these steps.

* `lend_exclusive` — no buffer has two borrowers in a run in which every `set_bit` finds its bit
  clear, and the first one that does not gives a buffer its second borrower; no step touches the bit
  of another buffer;
* `lent_twice` — two threads that scan before either marks get the same buffer.
-/

namespace TiiSel4Vm.RpcQueue

open TiiSel4Vm.Transition TiiSel4Vm.Ownership

/-! ### Lending and reclaiming -/

/-- `rpcmsg_buffer_state_init`, on the array that `DECLARE_BITMAP` declares. -/
def rpcmsgBufferStateInit : Bitmap :=
  List.replicate ((rpcmsgBufferSize + nBits - 1) / nBits) 0#64

/-- The scan of `rpcmsg_lend_buffer`; `none` when all messages are in use. -/
def lendScan (state : Bitmap) : Option (Fin rpcmsgBufferSize) :=
  if h : findFirstZeroBit state rpcmsgBufferSize < rpcmsgBufferSize then
    some ⟨findFirstZeroBit state rpcmsgBufferSize, h⟩
  else none

/-- `rpcmsg_lend_buffer` when nothing happens between its two steps. -/
def rpcmsgLendBuffer (state : Bitmap) : Option (Fin rpcmsgBufferSize) × Bitmap :=
  match lendScan state with
  | none => (none, state)
  | some id => (some id, setBit id state)

/-- `rpcmsg_reclaim_buffer`. -/
def rpcmsgReclaimBuffer (state : Bitmap) (msg : Fin rpcmsgBufferSize) : Bitmap :=
  clearBit (rpcmsgMsgToId msg).toNat state

/-- The bitmap has a bit for every message. -/
def CoversBuffers (state : Bitmap) : Prop := rpcmsgBufferSize ≤ nBits * state.length

/-- The message is marked lent. -/
def Lent (state : Bitmap) (msg : Fin rpcmsgBufferSize) : Prop := (msg : ℕ) ∈ bitSet state

instance (state : Bitmap) (msg : Fin rpcmsgBufferSize) : Decidable (Lent state msg) :=
  inferInstanceAs (Decidable (testBit state msg = true))

theorem coversBuffers_init : CoversBuffers rpcmsgBufferStateInit := by
  show 32 ≤ 64 * _
  decide

theorem not_lent_init (msg : Fin rpcmsgBufferSize) : ¬ Lent rpcmsgBufferStateInit msg := by
  revert msg
  decide

theorem CoversBuffers.covers {state : Bitmap} (h : CoversBuffers state)
    (msg : Fin rpcmsgBufferSize) : Covers state msg := by
  have hlt := msg.isLt
  simp only [CoversBuffers, Covers] at h ⊢
  omega

@[simp] theorem rpcmsgMsgToId_toNat (msg : Fin rpcmsgBufferSize) :
    (rpcmsgMsgToId msg).toNat = msg := by
  have hlt : (msg : ℕ) < 32 := msg.isLt
  rw [rpcmsgMsgToId, BitVec.toNat_ofNat]
  omega

theorem lent_setBit {state : Bitmap} (h : CoversBuffers state) {id msg : Fin rpcmsgBufferSize} :
    Lent (setBit id state) msg ↔ msg = id ∨ Lent state msg := by
  rw [Lent, bitSet_setBit (h.covers id), Set.mem_insert_iff, Fin.val_inj]
  rfl

theorem lent_reclaim {state : Bitmap} (h : CoversBuffers state) {id msg : Fin rpcmsgBufferSize} :
    Lent (rpcmsgReclaimBuffer state id) msg ↔ Lent state msg ∧ msg ≠ id := by
  rw [Lent, rpcmsgReclaimBuffer, rpcmsgMsgToId_toNat, bitSet_clearBit (h.covers id),
    Set.mem_sdiff, Set.mem_singleton_iff, Fin.val_inj]
  rfl

theorem CoversBuffers.setBit {state : Bitmap} (h : CoversBuffers state) (id : ℕ) :
    CoversBuffers (setBit id state) := by
  rw [CoversBuffers, length_setBit]
  exact h

theorem CoversBuffers.reclaim {state : Bitmap} (h : CoversBuffers state)
    (msg : Fin rpcmsgBufferSize) : CoversBuffers (rpcmsgReclaimBuffer state msg) := by
  rw [CoversBuffers, rpcmsgReclaimBuffer, length_clearBit]
  exact h

/-- What the scan finds was free when it looked. -/
theorem not_lent_of_lendScan {state : Bitmap} (h : CoversBuffers state)
    {id : Fin rpcmsgBufferSize} (hid : lendScan state = some id) : ¬ Lent state id := by
  unfold lendScan at hid
  split at hid
  · rename_i hlt
    cases hid
    exact (findFirstZeroBit_spec h).2.2 hlt
  · cases hid

/-- The scan fails only when every message is lent. -/
theorem lent_of_lendScan_none {state : Bitmap} (h : CoversBuffers state)
    (hnone : lendScan state = none) (msg : Fin rpcmsgBufferSize) : Lent state msg := by
  unfold lendScan at hnone
  split at hnone
  · cases hnone
  · rename_i hge
    exact (findFirstZeroBit_spec h).2.1 msg (lt_of_lt_of_le msg.isLt (Nat.le_of_not_lt hge))

/-! ### Borrowers -/

/-- A thread around `rpcmsg_lend_buffer`. -/
inductive LendPc where
  | idle
  /-- `find_first_zero_bit` returned `id`; before the `set_bit` -/
  | marking (id : Fin rpcmsgBufferSize)
  deriving DecidableEq

/-- The buffer state and the threads that lend from it. -/
structure Lending (τ : Type) where
  state : Bitmap
  pc : τ → LendPc
  /-- the messages lent to a thread and not yet reclaimed -/
  held : τ → List (Fin rpcmsgBufferSize)

def Lending.initial {τ : Type} : Lending τ :=
  ⟨rpcmsgBufferStateInit, fun _ => .idle, fun _ => []⟩

inductive LendAct (τ : Type) where
  /-- call `rpcmsg_lend_buffer` and run its scan; it returns NULL if nothing is free -/
  | scan
  /-- the `set_bit`, after which the lend returns the message -/
  | mark
  /-- `rpcmsg_reclaim_buffer` on a held message -/
  | reclaim (msg : Fin rpcmsgBufferSize)
  /-- hand a held message to another thread -/
  | pass (u : τ) (msg : Fin rpcmsgBufferSize)
  deriving DecidableEq

variable {τ : Type} [DecidableEq τ]

/-- One step of thread `t`. -/
def lendStep (s : Lending τ) (t : τ) : LendAct τ → Option (Lending τ)
  | .scan =>
      if s.pc t = .idle then
        match lendScan s.state with
        | none => some s
        | some id => some { s with pc := Function.update s.pc t (.marking id) }
      else none
  | .mark =>
      match s.pc t with
      | .idle => none
      | .marking id =>
          some ⟨setBit id s.state, Function.update s.pc t .idle, take s.held t id⟩
  | .reclaim msg =>
      if s.pc t = .idle ∧ msg ∈ s.held t then
        some ⟨rpcmsgReclaimBuffer s.state msg, s.pc, drop s.held t msg⟩
      else none
  | .pass u msg =>
      if s.pc t = .idle ∧ msg ∈ s.held t then
        some ⟨s.state, s.pc, move s.held t u msg⟩
      else none

/-- Lending under any interleaving. -/
def lendLts (τ : Type) [DecidableEq τ] : Lts (Lending τ) (τ × LendAct τ) :=
  .ofFun (fun s => s = .initial) fun s l => lendStep s l.1 l.2

omit [DecidableEq τ] in
/-- If the next step is a `set_bit`, its bit is still clear. -/
def FindsClear (s : Lending τ) (l : τ × LendAct τ) : Prop :=
  match l.2, s.pc l.1 with
  | .mark, .marking id => ¬ Lent s.state id
  | _, _ => True

instance (s : Lending τ) (l : τ × LendAct τ) : Decidable (FindsClear s l) := by
  unfold FindsClear
  split <;> infer_instance

/-- Lending when every `set_bit` finds its bit clear. -/
def clearLendLts (τ : Type) [DecidableEq τ] : Lts (Lending τ) (τ × LendAct τ) :=
  (lendLts τ).restrict FindsClear

/-- The buffer whose bit the step writes. -/
def Lending.writes (s : Lending τ) (l : τ × LendAct τ) : Option (Fin rpcmsgBufferSize) :=
  match l.2, s.pc l.1 with
  | .mark, .marking id => some id
  | .reclaim msg, _ => some msg
  | _, _ => none

/-- Everything a step can do. -/
inductive LendMoves (s : Lending τ) (t : τ) : LendAct τ → Lending τ → Prop
  | noneFree (h : lendScan s.state = none) : LendMoves s t .scan s
  | found (id : Fin rpcmsgBufferSize) (h : lendScan s.state = some id) :
      LendMoves s t .scan { s with pc := Function.update s.pc t (.marking id) }
  | mark (id : Fin rpcmsgBufferSize) (h : s.pc t = .marking id) :
      LendMoves s t .mark ⟨setBit id s.state, Function.update s.pc t .idle, take s.held t id⟩
  | reclaim (msg : Fin rpcmsgBufferSize) (h : msg ∈ s.held t) :
      LendMoves s t (.reclaim msg) ⟨rpcmsgReclaimBuffer s.state msg, s.pc, drop s.held t msg⟩
  | pass (u : τ) (msg : Fin rpcmsgBufferSize) (h : msg ∈ s.held t) :
      LendMoves s t (.pass u msg) ⟨s.state, s.pc, move s.held t u msg⟩

/-- **Step inversion.** -/
theorem lendStep_moves {s s' : Lending τ} {t : τ} {act : LendAct τ}
    (h : lendStep s t act = some s') : LendMoves s t act s' := by
  cases act with
  | scan =>
      simp only [lendStep] at h
      split at h
      · split at h
        · rename_i hscan
          cases h
          exact .noneFree hscan
        · rename_i id hscan
          cases h
          exact .found id hscan
      · cases h
  | mark =>
      simp only [lendStep] at h
      split at h
      · cases h
      · rename_i id hpc
        cases h
        exact .mark id hpc
  | reclaim msg =>
      simp only [lendStep] at h
      split at h
      · rename_i hcond
        cases h
        exact .reclaim msg hcond.2
      · cases h
  | pass u msg =>
      simp only [lendStep] at h
      split at h
      · rename_i hcond
        cases h
        exact .pass u msg hcond.2
      · cases h

/-! ### The invariant -/

section Invariant

variable {ι : Type} [DecidableEq ι] {state : Bitmap} {held : ι → List (Fin rpcmsgBufferSize)}
  {t u : ι} {id : Fin rpcmsgBufferSize}

/-- A message is marked lent exactly when somebody holds it, and then only one holder does. -/
structure LendInv (state : Bitmap) (held : ι → List (Fin rpcmsgBufferSize)) : Prop where
  covers : CoversBuffers state
  lent_iff : ∀ id, Lent state id ↔ ∃ t, id ∈ held t
  exclusive : Exclusive held

omit [DecidableEq ι] in
theorem lendInv_initial : LendInv rpcmsgBufferStateInit fun _ : ι => [] where
  covers := coversBuffers_init
  lent_iff id := by
    constructor
    · intro h
      exact absurd h (not_lent_init id)
    · rintro ⟨t, ht⟩
      exact absurd ht List.not_mem_nil
  exclusive := exclusive_nil

/-- **Marking a clear bit keeps the invariant.** -/
theorem LendInv.mark (hi : LendInv state held) (hclear : ¬ Lent state id) :
    LendInv (setBit id state) (take held t id) where
  covers := hi.covers.setBit id
  lent_iff k := by
    rw [lent_setBit hi.covers, hi.lent_iff]
    constructor
    · rintro (rfl | ⟨u, hu⟩)
      · exact ⟨t, mem_take.mpr (Or.inl ⟨rfl, rfl⟩)⟩
      · exact ⟨u, mem_take.mpr (Or.inr hu)⟩
    · rintro ⟨u, hu⟩
      rcases mem_take.mp hu with ⟨_, rfl⟩ | hu'
      · exact Or.inl rfl
      · exact Or.inr ⟨u, hu'⟩
  exclusive := hi.exclusive.take_iff.mpr fun u hu => hclear ((hi.lent_iff id).mpr ⟨u, hu⟩)

/-- Reclaiming keeps the invariant. -/
theorem LendInv.reclaim (hi : LendInv state held) (hmem : id ∈ held t) :
    LendInv (rpcmsgReclaimBuffer state id) (drop held t id) where
  covers := hi.covers.reclaim id
  lent_iff k := by
    rw [lent_reclaim hi.covers, hi.lent_iff]
    constructor
    · rintro ⟨⟨u, hu⟩, hne⟩
      exact ⟨u, mem_drop_of_ne hne hu⟩
    · rintro ⟨u, hu⟩
      refine ⟨⟨u, mem_of_mem_drop hu⟩, ?_⟩
      rintro rfl
      exact hi.exclusive.not_mem_drop hmem u hu
  exclusive := hi.exclusive.drop

/-- Handing a message on keeps the invariant. -/
theorem LendInv.pass (hi : LendInv state held) (hmem : id ∈ held t) :
    LendInv state (move held t u id) where
  covers := hi.covers
  lent_iff k := by
    rw [hi.exclusive.exists_mem_move hmem]
    exact hi.lent_iff k
  exclusive := hi.exclusive.move hmem

omit [DecidableEq ι] in
/-- What one holder has leaves room for a message it does not have. -/
theorem LendInv.length_lt (hi : LendInv state held) (hid : id ∉ held t) :
    (held t).length < rpcmsgBufferSize := by
  have hdup : (id :: held t).Nodup := List.nodup_cons.mpr ⟨hid, hi.exclusive.nodup t⟩
  have hle := hdup.length_le_card
  rw [List.length_cons, Fintype.card_fin] at hle
  exact hle

end Invariant

/-- **The step lemma.** -/
theorem LendInv.step {s s' : Lending τ} {l : τ × LendAct τ} (hi : LendInv s.state s.held)
    (h : (clearLendLts τ).step s l s') : LendInv s'.state s'.held := by
  obtain ⟨t, act⟩ := l
  obtain ⟨hclear, hstep⟩ := h
  cases lendStep_moves hstep with
  | noneFree _ => exact hi
  | found id _ => exact hi
  | mark id hpc =>
      have hfree : ¬ Lent s.state id := by
        simpa only [FindsClear, hpc] using hclear
      exact hi.mark hfree
  | reclaim msg hmem => exact hi.reclaim hmem
  | pass u msg hmem => exact hi.pass hmem

theorem lendInv_of_reachable {s : Lending τ} (h : (clearLendLts τ).Reachable s) :
    LendInv s.state s.held := by
  refine h.invariant (I := fun s => LendInv s.state s.held) (fun s hs => ?_)
    fun _ _ _ _ hi hs => hi.step hs
  cases hs
  exact lendInv_initial

/-- The bitmap has a bit for every message in every run. -/
theorem coversBuffers_of_reachable {s : Lending τ} (h : (lendLts τ).Reachable s) :
    CoversBuffers s.state := by
  refine h.invariant (I := fun s => CoversBuffers s.state) (fun s hs => ?_)
    fun s l s' _ hc hs => ?_
  · cases hs
    exact coversBuffers_init
  · obtain ⟨t, act⟩ := l
    cases lendStep_moves hs with
    | noneFree _ => exact hc
    | found id _ => exact hc
    | mark id _ => exact hc.setBit id
    | reclaim msg _ => exact hc.reclaim msg
    | pass u msg _ => exact hc

/-- A step leaves the bits of the buffers it does not write. -/
theorem lent_frame {s s' : Lending τ} {l : τ × LendAct τ} (hc : CoversBuffers s.state)
    (h : (lendLts τ).step s l s') {id : Fin rpcmsgBufferSize} (hid : s.writes l ≠ some id) :
    Lent s'.state id ↔ Lent s.state id := by
  obtain ⟨t, act⟩ := l
  cases lendStep_moves h with
  | noneFree _ => rfl
  | found _ _ => rfl
  | mark k hpc =>
      have hne : id ≠ k := by
        rintro rfl
        exact hid (by simp [Lending.writes, hpc])
      simp [lent_setBit hc, hne]
  | reclaim k _ =>
      have hne : id ≠ k := by
        rintro rfl
        exact hid rfl
      simp [lent_reclaim hc, hne]
  | pass _ _ _ => rfl

/-- **Exactly when lending is exclusive.**  While every `set_bit` finds its bit clear, no message
has two borrowers; the first one that finds it set gives a message to a second borrower.  And no
step of any run changes whether another buffer is marked lent. -/
theorem lend_exclusive (τ : Type) [DecidableEq τ] :
    (∀ s, (clearLendLts τ).Reachable s → Exclusive s.held ∧
      ∀ l s', (lendLts τ).step s l s' → (Exclusive s'.held ↔ FindsClear s l)) ∧
    ∀ s, (lendLts τ).Reachable s → ∀ l s', (lendLts τ).step s l s' →
      ∀ id, s.writes l ≠ some id → (Lent s'.state id ↔ Lent s.state id) := by
  refine ⟨fun s hs => ?_, fun s hs l s' hstep id hid =>
    lent_frame (coversBuffers_of_reachable hs) hstep hid⟩
  have hi := lendInv_of_reachable hs
  refine ⟨hi.exclusive, fun l s' hstep => ⟨fun hex => ?_, fun hclear => ?_⟩⟩
  · -- a set bit means that a thread holds the message the lender now takes
    obtain ⟨t, act⟩ := l
    cases lendStep_moves hstep with
    | mark id hpc =>
        simp only [FindsClear, hpc]
        intro hlent
        obtain ⟨u, hu⟩ := (hi.lent_iff id).mp hlent
        exact hi.exclusive.take_iff.mp hex u hu
    | _ => trivial
  · exact (hi.step ⟨hclear, hstep⟩).exclusive

/-! ### Two scans before either mark -/

/-- `lend_exclusive` for two threads that lend one after the other. -/
theorem lend_exclusive_inTurn :
    Exclusive (play (guarded FindsClear fun s l => lendStep s l.1 l.2) Lending.initial
      [(false, .scan), (false, .mark), (true, .scan), (true, .mark)]).held :=
  ((lend_exclusive Bool).1 _
    (Lts.Reachable.play (fun _ _ _ hs => guarded_step hs) (.init rfl) _)).1

/-- **A buffer is lent twice.**  Two threads scan before either marks: both hold message 0. -/
theorem lent_twice :
    ∃ s : Lending Bool, (lendLts Bool).Reachable s ∧ ¬ Exclusive s.held := by
  let script : List (Bool × LendAct Bool) :=
    [(false, .scan), (true, .scan), (false, .mark), (true, .mark)]
  refine ⟨play (fun s l => lendStep s l.1 l.2) .initial script,
    Lts.Reachable.play (fun _ _ _ hs => hs) (.init rfl) script, fun hex => ?_⟩
  have hboth : ∀ t, (0 : Fin rpcmsgBufferSize) ∈
      (play (fun s l => lendStep s l.1 l.2) .initial script).held t := by
    decide +kernel
  exact absurd (hex.owner false true 0 (hboth false) (hboth true)) (by decide)

end TiiSel4Vm.RpcQueue
