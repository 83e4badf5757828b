import TiiSel4Vm.Lib.Transition
import TiiSel4Vm.Vmm.IoreqStart
import Mathlib.Data.Finset.Card
import Mathlib.Order.Interval.Finset.Nat

/-!
# Slots of native threads

`ioreq_native_slot` gives a thread its slot the first time it is called: it compares the shared
`free_native_slot` with the size of the table, reads it and writes it back one higher.  The three
accesses are steps of their own, and any number of threads call it in any order.

* `play_alone` — the accesses together are `ioreq_native_slot`;
* `slotsInv_step` — an exclusive write hands out the next slot;
* `native_slots_iff` — runs are good as long as all writes are exclusive, and no longer;
* `slot_shared` — two threads read the counter before either writes it.
-/

namespace TiiSel4Vm.NativeSlots

open TiiSel4Vm.Transition TiiSel4Vm.IoProxy

/-! ### The threads -/

/-- Where a thread is in `ioreq_native_slot`. -/
inductive NativePc where
  | idle
  /-- before `sync_sem_new` -/
  | creating
  /-- before `free_native_slot` is compared -/
  | checking
  /-- before it is read -/
  | reading
  /-- before it is written; `slot` was read -/
  | writing (slot : ℕ)
  deriving DecidableEq

/-- The counter and the threads. -/
structure Native (τ : Type) where
  freeNativeSlot : ℕ
  pc : τ → NativePc
  /-- `ioreq_native_data.slot`, in thread local storage -/
  slot : τ → ℕ
  /-- what the calls of a thread returned so far -/
  returns : τ → List ℤ

/-- Before the first call. -/
def Native.initial (τ : Type) : Native τ :=
  ⟨sel4MmioNativeBase, fun _ => .idle, fun _ => 0, fun _ => []⟩

inductive NativeAct (τ : Type) where
  /-- thread `t` calls `ioreq_native_slot` -/
  | call (t : τ)
  /-- `sync_sem_new` returns -/
  | semNew (t : τ) (err : ℤ)
  /-- thread `t` makes its next access to the counter -/
  | access (t : τ)

variable {τ : Type} [DecidableEq τ]

namespace Native

/-- A thread goes on. -/
def goto (s : Native τ) (t : τ) (pc : NativePc) : Native τ :=
  { s with pc := Function.update s.pc t pc }

/-- The call of a thread returns. -/
def ret (s : Native τ) (t : τ) (x : ℤ) : Native τ :=
  { s.goto t .idle with returns := Function.update s.returns t (s.returns t ++ [x]) }

end Native

/-- One step. -/
def nativeStep (s : Native τ) : NativeAct τ → Option (Native τ)
  | .call t =>
      if s.pc t = .idle then
        if s.slot t ≠ 0 then some (s.ret t (s.slot t)) else some (s.goto t .creating)
      else none
  | .semNew t err =>
      if s.pc t = .creating then
        if err ≠ 0 then some (s.ret t (-1)) else some (s.goto t .checking)
      else none
  | .access t =>
      match s.pc t with
      | .checking =>
          if ioacksSize ≤ s.freeNativeSlot then some (s.ret t (-1)) else some (s.goto t .reading)
      | .reading => some (s.goto t (.writing s.freeNativeSlot))
      | .writing slot =>
          some { s.ret t slot with
                  freeNativeSlot := slot + 1
                  slot := Function.update s.slot t slot }
      | _ => none

/-- The threads in any order of steps. -/
def nativeLts (τ : Type) [DecidableEq τ] : Lts (Native τ) (NativeAct τ) :=
  .ofFun (fun s => s = .initial τ) nativeStep

/-- A thread that meets no other one makes of its slot and the counter what `ioreq_native_slot` does
as a whole. -/
theorem play_alone (s : Native τ) {t : τ} (hpc : s.pc t = .idle) (err : ℤ) :
    let s' := play nativeStep s [.call t, .semNew t err, .access t, .access t, .access t]
    let r := Ioreq.ioreqNativeSlot err ⟨s.slot t, s.freeNativeSlot⟩
    s'.pc t = .idle ∧ s'.returns t = s.returns t ++ [r.1] ∧
      (⟨s'.slot t, s'.freeNativeSlot⟩ : Ioreq.NativeSlots) = r.2 := by
  by_cases hslot : s.slot t = 0
  · by_cases herr : err = 0
    · by_cases hfull : ioacksSize ≤ s.freeNativeSlot
      · simp [play, nativeStep, Native.ret, Native.goto, Ioreq.ioreqNativeSlot, hpc, hslot, herr,
          hfull]
      · simp [play, nativeStep, Native.ret, Native.goto, Ioreq.ioreqNativeSlot, hpc, hslot, herr,
          hfull]
    · simp [play, nativeStep, Native.ret, Native.goto, Ioreq.ioreqNativeSlot, hpc, hslot, herr]
  · simp [play, nativeStep, Native.ret, Native.goto, Ioreq.ioreqNativeSlot, hpc, hslot]

/-- A write is exclusive: the counter still holds what the thread read, and that is a slot of the
table. -/
def Exclusive (s : Native τ) : NativeAct τ → Prop
  | .access t =>
      match s.pc t with
      | .writing slot => s.freeNativeSlot = slot ∧ slot < ioacksSize
      | _ => True
  | _ => True

instance (s : Native τ) (act : NativeAct τ) : Decidable (Exclusive s act) := by
  unfold Exclusive
  split
  · split <;> infer_instance
  · infer_instance

/-- What a step can do. -/
inductive NativeMoves (s : Native τ) : NativeAct τ → Native τ → Prop
  | again (t : τ) : s.pc t = .idle → s.slot t ≠ 0 →
      NativeMoves s (.call t) (s.ret t (s.slot t))
  | first (t : τ) : s.pc t = .idle → s.slot t = 0 → NativeMoves s (.call t) (s.goto t .creating)
  | noSem (t : τ) (err : ℤ) : s.pc t = .creating → err ≠ 0 →
      NativeMoves s (.semNew t err) (s.ret t (-1))
  | sem (t : τ) : s.pc t = .creating → NativeMoves s (.semNew t 0) (s.goto t .checking)
  | tooMany (t : τ) : s.pc t = .checking → ioacksSize ≤ s.freeNativeSlot →
      NativeMoves s (.access t) (s.ret t (-1))
  | room (t : τ) : s.pc t = .checking → s.freeNativeSlot < ioacksSize →
      NativeMoves s (.access t) (s.goto t .reading)
  | read (t : τ) : s.pc t = .reading →
      NativeMoves s (.access t) (s.goto t (.writing s.freeNativeSlot))
  | write (t : τ) (slot : ℕ) : s.pc t = .writing slot →
      NativeMoves s (.access t)
        { s.ret t slot with
          freeNativeSlot := slot + 1
          slot := Function.update s.slot t slot }

theorem nativeStep_moves {s s' : Native τ} {act : NativeAct τ} (h : nativeStep s act = some s') :
    NativeMoves s act s' := by
  cases act with
  | call t =>
      simp only [nativeStep] at h
      split at h
      · rename_i hpc
        split at h
        · rename_i hslot
          cases h
          exact .again t hpc hslot
        · rename_i hslot
          cases h
          exact .first t hpc (not_not.mp hslot)
      · cases h
  | semNew t err =>
      simp only [nativeStep] at h
      split at h
      · rename_i hpc
        split at h
        · rename_i herr
          cases h
          exact .noSem t err hpc herr
        · rename_i herr
          cases h
          rw [not_not.mp herr]
          exact .sem t hpc
      · cases h
  | access t =>
      simp only [nativeStep] at h
      split at h
      · rename_i hpc
        split at h
        · rename_i hfull
          cases h
          exact .tooMany t hpc hfull
        · rename_i hroom
          cases h
          exact .room t hpc (Nat.lt_of_not_le hroom)
      · rename_i hpc
        cases h
        exact .read t hpc
      · rename_i slot hpc
        cases h
        exact .write t slot hpc
      · cases h

/-! ### What the calls return -/

/-- The calls of a thread returned -1 until it got its slot, and that slot from then on. -/
def Returned (slot : ℕ) (xs : List ℤ) : Prop :=
  ∃ pre post, xs = pre ++ post ∧ (∀ x ∈ pre, x = -1) ∧ ∀ x ∈ post, slot ≠ 0 ∧ x = slot

section Returned

variable {slot : ℕ} {xs : List ℤ}

/-- A thread without a slot has been refused so far. -/
theorem Returned.of_zero (h : Returned 0 xs) : ∀ x ∈ xs, x = -1 := by
  obtain ⟨pre, post, rfl, hpre, hpost⟩ := h
  intro x hx
  rcases List.mem_append.mp hx with hmem | hmem
  · exact hpre x hmem
  · exact absurd rfl (hpost x hmem).1

theorem Returned.refused (h : Returned 0 xs) : Returned 0 (xs ++ [-1]) := by
  refine ⟨xs ++ [-1], [], (List.append_nil _).symm, ?_, ?_⟩
  · intro x hx
    rcases List.mem_append.mp hx with hmem | hmem
    · exact h.of_zero x hmem
    · exact List.mem_singleton.mp hmem
  · intro x hx
    cases hx

theorem Returned.granted (h : Returned 0 xs) (hslot : slot ≠ 0) :
    Returned slot (xs ++ [(slot : ℤ)]) := by
  refine ⟨xs, [(slot : ℤ)], rfl, h.of_zero, ?_⟩
  intro x hx
  exact ⟨hslot, List.mem_singleton.mp hx⟩

theorem Returned.again (h : Returned slot xs) (hslot : slot ≠ 0) :
    Returned slot (xs ++ [(slot : ℤ)]) := by
  obtain ⟨pre, post, rfl, hpre, hpost⟩ := h
  refine ⟨pre, post ++ [(slot : ℤ)], List.append_assoc _ _ _, hpre, ?_⟩
  intro x hx
  rcases List.mem_append.mp hx with hmem | hmem
  · exact hpost x hmem
  · exact ⟨hslot, List.mem_singleton.mp hmem⟩

theorem Returned.eq_slot (h : Returned slot xs) {x : ℤ} (hx : x ∈ xs) (hle : 0 ≤ x) :
    slot ≠ 0 ∧ x = slot := by
  obtain ⟨pre, post, rfl, hpre, hpost⟩ := h
  rcases List.mem_append.mp hx with hmem | hmem
  · have hneg := hpre x hmem
    omega
  · exact hpost x hmem

/-- After a slot, the same slot. -/
theorem Returned.stable (h : Returned slot xs) {before after : List ℤ} {x : ℤ}
    (hxs : xs = before ++ x :: after) (hle : 0 ≤ x) : ∀ y ∈ after, y = x := by
  obtain ⟨pre, post, rfl, hpre, hpost⟩ := h
  have hin : x :: after <:+ post := by
    rcases List.append_eq_append_iff.mp hxs with ⟨a, -, hpost'⟩ | ⟨b, hpre', hafter⟩
    · exact ⟨a, hpost'.symm⟩
    · cases b with
      | nil => exact ⟨[], hafter⟩
      | cons y b =>
          have hy : x = y := (List.cons.inj hafter).1
          have hneg := hpre y (by rw [hpre']; simp)
          omega
  have hx := hpost x (hin.subset List.mem_cons_self)
  intro y hy
  rw [hx.2]
  exact (hpost y (hin.subset (List.mem_cons_of_mem _ hy))).2

end Returned

/-! ### The invariant -/

/-- The slots below the counter are held, each by one thread; a thread in its first call holds none;
a counter value that was read is not ahead of the counter. -/
structure SlotsInv (s : Native τ) : Prop where
  lower : sel4MmioNativeBase ≤ s.freeNativeSlot
  upper : s.freeNativeSlot ≤ ioacksSize
  held : ∀ k, sel4MmioNativeBase ≤ k → k < s.freeNativeSlot → ∃ t, s.slot t = k
  below : ∀ t, s.slot t ≠ 0 → sel4MmioNativeBase ≤ s.slot t ∧ s.slot t < s.freeNativeSlot
  distinct : ∀ t u, s.slot t ≠ 0 → s.slot t = s.slot u → t = u
  unset : ∀ t, s.pc t ≠ .idle → s.slot t = 0
  read : ∀ t slot, s.pc t = .writing slot →
    sel4MmioNativeBase ≤ slot ∧ slot ≤ s.freeNativeSlot
  returned : ∀ t, Returned (s.slot t) (s.returns t)

omit [DecidableEq τ] in
theorem slotsInv_initial : SlotsInv (Native.initial τ) where
  lower := le_refl _
  upper := Nat.le_add_right _ _
  held k hk hlt := absurd hlt (Nat.not_lt.mpr hk)
  below _ h := absurd rfl h
  distinct _ _ h := absurd rfl h
  unset _ _ := rfl
  read _ _ h := by cases h
  returned _ := ⟨[], [], rfl, by simp, by simp⟩

section Step

variable {s s' : Native τ} {t : τ}

/-- A thread without a slot goes on. -/
theorem SlotsInv.goto (h : SlotsInv s) (hslot : s.slot t = 0) {pc : NativePc}
    (hread : ∀ slot, pc = .writing slot → sel4MmioNativeBase ≤ slot ∧ slot ≤ s.freeNativeSlot) :
    SlotsInv (s.goto t pc) where
  lower := h.lower
  upper := h.upper
  held := h.held
  below := h.below
  distinct := h.distinct
  unset u hu := by
    by_cases hut : u = t
    · rw [hut]
      exact hslot
    · refine h.unset u fun hidle => hu ?_
      rw [← hidle]
      exact Function.update_of_ne hut _ _
  read u slot hu := by
    by_cases hut : u = t
    · subst hut
      have hpc : Function.update s.pc u pc u = .writing slot := hu
      rw [Function.update_self] at hpc
      exact hread slot hpc
    · have hpc : Function.update s.pc t pc u = .writing slot := hu
      rw [Function.update_of_ne hut] at hpc
      exact h.read u slot hpc
  returned := h.returned

/-- A call returns. -/
theorem SlotsInv.ret (h : SlotsInv s) {x : ℤ}
    (hx : Returned (s.slot t) (s.returns t ++ [x])) : SlotsInv (s.ret t x) where
  lower := h.lower
  upper := h.upper
  held := h.held
  below := h.below
  distinct := h.distinct
  unset u hu := by
    by_cases hut : u = t
    · refine absurd ?_ hu
      rw [hut]
      exact Function.update_self t _ s.pc
    · refine h.unset u fun hidle => hu ?_
      rw [← hidle]
      exact Function.update_of_ne hut _ _
  read u slot hu := by
    have hpc : Function.update s.pc t .idle u = .writing slot := hu
    by_cases hut : u = t
    · rw [hut, Function.update_self] at hpc
      cases hpc
    · rw [Function.update_of_ne hut] at hpc
      exact h.read u slot hpc
  returned u := by
    show Returned (s.slot u) (Function.update s.returns t (s.returns t ++ [x]) u)
    by_cases hut : u = t
    · rw [hut, Function.update_self]
      exact hx
    · rw [Function.update_of_ne hut]
      exact h.returned u

omit [DecidableEq τ] in
/-- A thread in its first call, refused. -/
theorem SlotsInv.refused (h : SlotsInv s) {pc : NativePc} (hpc : s.pc t = pc) (hne : pc ≠ .idle) :
    Returned (s.slot t) (s.returns t ++ [-1]) := by
  have hslot : s.slot t = 0 := h.unset t (by rw [hpc]; exact hne)
  have hreturned := h.returned t
  rw [hslot] at hreturned ⊢
  exact hreturned.refused

/-- A thread takes the slot at the counter. -/
theorem SlotsInv.write (h : SlotsInv s) (hpc : s.pc t = .writing s.freeNativeSlot)
    (hlt : s.freeNativeSlot < ioacksSize) :
    SlotsInv { s.ret t s.freeNativeSlot with
      freeNativeSlot := s.freeNativeSlot + 1
      slot := Function.update s.slot t s.freeNativeSlot } := by
  have hslot : s.slot t = 0 := h.unset t (by rw [hpc]; exact NativePc.noConfusion)
  have hpos : s.freeNativeSlot ≠ 0 := by
    have hlower : 16 ≤ s.freeNativeSlot := h.lower
    omega
  have hother : ∀ u, u ≠ t → Function.update s.slot t s.freeNativeSlot u = s.slot u :=
    fun u hu => Function.update_of_ne hu _ _
  have hself : Function.update s.slot t s.freeNativeSlot t = s.freeNativeSlot :=
    Function.update_self t _ s.slot
  have hret : SlotsInv (s.ret t (-1)) := h.ret (h.refused hpc NativePc.noConfusion)
  refine
    { lower := le_trans h.lower (Nat.le_succ _), upper := hlt, held := ?_, below := ?_,
      distinct := ?_, unset := ?_, read := ?_, returned := ?_ }
  · intro k hk hklt
    by_cases hnew : k = s.freeNativeSlot
    · exact ⟨t, by rw [hnew]; exact hself⟩
    · obtain ⟨u, hu⟩ := h.held k hk (by
        have hle : k ≤ s.freeNativeSlot := Nat.lt_succ_iff.mp hklt
        omega)
      have hut : u ≠ t := by
        rintro rfl
        rw [hslot] at hu
        have hbase : 16 ≤ k := hk
        omega
      exact ⟨u, by rw [← hu]; exact hother u hut⟩
  · intro u hu
    by_cases hut : u = t
    · subst hut
      show sel4MmioNativeBase ≤ Function.update s.slot u s.freeNativeSlot u ∧
        Function.update s.slot u s.freeNativeSlot u < s.freeNativeSlot + 1
      rw [hself]
      exact ⟨h.lower, Nat.lt_succ_self _⟩
    · have hold : s.slot u ≠ 0 := by
        rw [← hother u hut]
        exact hu
      show sel4MmioNativeBase ≤ Function.update s.slot t s.freeNativeSlot u ∧
        Function.update s.slot t s.freeNativeSlot u < s.freeNativeSlot + 1
      rw [hother u hut]
      exact ⟨(h.below u hold).1, Nat.lt_succ_of_lt (h.below u hold).2⟩
  · intro u w hu huw
    have huw' : Function.update s.slot t s.freeNativeSlot u
        = Function.update s.slot t s.freeNativeSlot w := huw
    have hu' : Function.update s.slot t s.freeNativeSlot u ≠ 0 := hu
    by_cases hut : u = t
    · by_cases hwt : w = t
      · rw [hut, hwt]
      · rw [hut, hself, hother w hwt] at huw'
        have hbelow := h.below w (by rw [← huw']; exact hpos)
        omega
    · by_cases hwt : w = t
      · rw [hwt, hself, hother u hut] at huw'
        have hbelow := h.below u (by rw [huw']; exact hpos)
        omega
      · rw [hother u hut] at hu'
        rw [hother u hut, hother w hwt] at huw'
        exact h.distinct u w hu' huw'
  · intro u hu
    have hunset := hret.unset u hu
    have hut : u ≠ t := by
      rintro rfl
      exact hu (Function.update_self u _ s.pc)
    show Function.update s.slot t s.freeNativeSlot u = 0
    rw [hother u hut]
    exact hunset
  · intro u slot hu
    obtain ⟨hbase, hle⟩ := hret.read u slot hu
    exact ⟨hbase, le_trans hle (Nat.le_succ _)⟩
  · intro u
    show Returned (Function.update s.slot t s.freeNativeSlot u)
      (Function.update s.returns t (s.returns t ++ [(s.freeNativeSlot : ℤ)]) u)
    by_cases hut : u = t
    · rw [hut, hself, Function.update_self]
      have hreturned := h.returned t
      rw [hslot] at hreturned
      exact hreturned.granted hpos
    · rw [hother u hut, Function.update_of_ne hut]
      exact h.returned u

/-- **Steps.**  Every step but a write that is not exclusive keeps the invariant. -/
theorem slotsInv_step {act : NativeAct τ} (h : SlotsInv s) (hexcl : Exclusive s act)
    (hmove : NativeMoves s act s') : SlotsInv s' := by
  cases hmove with
  | again t hpc hslot => exact h.ret ((h.returned t).again hslot)
  | first t hpc hslot => exact h.goto hslot fun slot hw => by cases hw
  | noSem t err hpc herr => exact h.ret (h.refused hpc NativePc.noConfusion)
  | sem t hpc =>
      exact h.goto (h.unset t (by rw [hpc]; exact NativePc.noConfusion)) fun slot hw => by cases hw
  | tooMany t hpc hfull => exact h.ret (h.refused hpc NativePc.noConfusion)
  | room t hpc hroom =>
      exact h.goto (h.unset t (by rw [hpc]; exact NativePc.noConfusion)) fun slot hw => by cases hw
  | read t hpc =>
      refine h.goto (h.unset t (by rw [hpc]; exact NativePc.noConfusion)) fun slot hw => ?_
      cases hw
      exact ⟨h.lower, le_refl _⟩
  | write t slot hpc =>
      have hexcl' : s.freeNativeSlot = slot ∧ slot < ioacksSize := by
        simpa only [Exclusive, hpc] using hexcl
      obtain ⟨rfl, hlt⟩ := hexcl'
      exact h.write hpc hlt

end Step

/-! ### Good states -/

/-- The threads that got a slot hold different slots of the native part of the table, none of them a
vCPU's; a thread's later calls return the slot an earlier one returned; at most
`SEL4_MMIO_MAX_NATIVE` threads got one. -/
structure SlotsGood (s : Native τ) : Prop where
  obtained : ∀ t, ∀ x ∈ s.returns t, 0 ≤ x → s.slot t ≠ 0 ∧ x = s.slot t
  distinct : ∀ t u, s.slot t ≠ 0 → s.slot t = s.slot u → t = u
  range : ∀ t, s.slot t ≠ 0 → sel4MmioNativeBase ≤ s.slot t ∧
    s.slot t < sel4MmioNativeBase + sel4MmioMaxNative
  notVcpu : ∀ t, s.slot t ≠ 0 → ∀ vcpu < sel4MmioMaxVcpu, s.slot t ≠ vcpu
  stable : ∀ t before x after, s.returns t = before ++ x :: after → 0 ≤ x → ∀ y ∈ after, y = x
  few : ∀ ts : Finset τ, (∀ t ∈ ts, s.slot t ≠ 0) → ts.card ≤ sel4MmioMaxNative

omit [DecidableEq τ] in
theorem SlotsInv.good {s : Native τ} (h : SlotsInv s) : SlotsGood s := by
  have hrange : ∀ t, s.slot t ≠ 0 → sel4MmioNativeBase ≤ s.slot t ∧
      s.slot t < sel4MmioNativeBase + sel4MmioMaxNative :=
    fun t ht => ⟨(h.below t ht).1, lt_of_lt_of_le (h.below t ht).2 h.upper⟩
  refine
    { obtained := fun t x hx hle => (h.returned t).eq_slot hx hle, distinct := h.distinct,
      range := hrange, notVcpu := ?_,
      stable := fun t before x after hxs hle => (h.returned t).stable hxs hle, few := ?_ }
  · intro t ht vcpu hlt heq
    exact absurd (hrange t ht).1 (Nat.not_le.mpr (heq ▸ hlt))
  · intro ts hts
    have hcard : ts.card ≤
        (Finset.Ico sel4MmioNativeBase (sel4MmioNativeBase + sel4MmioMaxNative)).card := by
      apply Finset.card_le_card_of_injOn s.slot
      · intro t ht
        exact Finset.mem_coe.mpr (Finset.mem_Ico.mpr (hrange t (hts t ht)))
      · intro t ht u _ heq
        exact h.distinct t u (hts t ht) heq
    rwa [Nat.card_Ico, Nat.add_sub_cancel_left] at hcard

/-- A write that is not exclusive gives its thread a slot that another one holds, or none of the
table. -/
theorem not_good_of_not_exclusive {s s' : Native τ} {act : NativeAct τ} (h : SlotsInv s)
    (hmove : NativeMoves s act s') (hnot : ¬ Exclusive s act) : ¬ SlotsGood s' := by
  intro hgood
  cases hmove with
  | write t slot hpc =>
      have hslot : s.slot t = 0 := h.unset t (by rw [hpc]; exact NativePc.noConfusion)
      have hself : Function.update s.slot t slot t = slot := Function.update_self t _ s.slot
      obtain ⟨hbase, hle⟩ := h.read t slot hpc
      have hne : Function.update s.slot t slot t ≠ 0 := by
        have hlower : 16 ≤ slot := hbase
        rw [hself]
        omega
      have hlt : slot < sel4MmioNativeBase + sel4MmioMaxNative := by
        have hrange := (hgood.range t hne).2
        have hrange' : Function.update s.slot t slot t < sel4MmioNativeBase + sel4MmioMaxNative :=
          hrange
        rwa [hself] at hrange'
      by_cases heq : s.freeNativeSlot = slot
      · refine hnot ?_
        simp only [Exclusive, hpc]
        exact ⟨heq, hlt⟩
      · obtain ⟨u, hu⟩ := h.held slot hbase (lt_of_le_of_ne hle (Ne.symm heq))
        have hut : u ≠ t := by
          rintro rfl
          have hlower : 16 ≤ slot := hbase
          omega
        refine hut (hgood.distinct t u hne ?_).symm
        show Function.update s.slot t slot t = Function.update s.slot t slot u
        rw [hself, Function.update_of_ne hut, hu]
  | again t _ _ => exact hnot trivial
  | first t _ _ => exact hnot trivial
  | noSem t _ _ _ => exact hnot trivial
  | sem t _ => exact hnot trivial
  | tooMany t hpc _ => exact hnot (by simp only [Exclusive, hpc])
  | room t hpc _ => exact hnot (by simp only [Exclusive, hpc])
  | read t hpc => exact hnot (by simp only [Exclusive, hpc])

/-- The threads as long as all writes are exclusive. -/
def exclusiveLts (τ : Type) [DecidableEq τ] : Lts (Native τ) (NativeAct τ) :=
  (nativeLts τ).restrict Exclusive

theorem slotsInv_of_reachable {s : Native τ} (h : (exclusiveLts τ).Reachable s) : SlotsInv s := by
  refine h.invariant ?_ ?_
  · intro s hs
    have hinit : s = .initial τ := hs
    rw [hinit]
    exact slotsInv_initial
  · intro s act s' _ hi hstep
    exact slotsInv_step hi hstep.1 (nativeStep_moves hstep.2)

/-- **Slots.**  Any number of threads in any order of steps: as long as every write is exclusive the
slots are good, and the first write that is not makes them bad. -/
theorem native_slots_iff (τ : Type) [DecidableEq τ] :
    (∀ s : Native τ, (exclusiveLts τ).Reachable s → SlotsGood s) ∧
      ∀ (s s' : Native τ) (act : NativeAct τ), (exclusiveLts τ).Reachable s →
        (nativeLts τ).step s act s' → (SlotsGood s' ↔ Exclusive s act) := by
  refine ⟨fun s h => (slotsInv_of_reachable h).good, ?_⟩
  intro s s' act h hstep
  have hinv := slotsInv_of_reachable h
  have hmove := nativeStep_moves hstep
  constructor
  · intro hgood
    by_contra hnot
    exact not_good_of_not_exclusive hinv hmove hnot hgood
  · intro hexcl
    exact (slotsInv_step hinv hexcl hmove).good

/-- A first call of thread `t` up to its read. -/
def firstCall (t : Bool) : List (NativeAct Bool) :=
  [.call t, .semNew t 0, .access t, .access t]

/-- Two threads, one after the other. -/
theorem native_slots_iff_inTurn :
    SlotsGood (play (guarded Exclusive nativeStep) (Native.initial Bool)
      (firstCall true ++ [.access true] ++ firstCall false ++ [.access false])) := by
  have hinit : (exclusiveLts Bool).Reachable (Native.initial Bool) := .init rfl
  exact (native_slots_iff Bool).1 _ (hinit.play (fun _ _ _ h => guarded_step h) _)

/-- Both threads read the counter before either writes it: both get slot 16. -/
theorem slot_shared :
    ∃ s, (nativeLts Bool).Reachable s ∧ s.returns true = [16] ∧ s.returns false = [16] ∧
      ¬ SlotsGood s := by
  have hinit : (nativeLts Bool).Reachable (Native.initial Bool) := .init rfl
  refine ⟨play nativeStep (Native.initial Bool)
    (firstCall true ++ firstCall false ++ [.access true, .access false]),
    hinit.play (fun _ _ _ h => h) _, by decide, by decide, ?_⟩
  intro hgood
  exact absurd (hgood.distinct true false (by decide) (by decide)) (by decide)

end TiiSel4Vm.NativeSlots
