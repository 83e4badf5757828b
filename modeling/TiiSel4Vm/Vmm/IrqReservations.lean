import TiiSel4Vm.Lib.Transition
import TiiSel4Vm.Vmm.Devices

/-!
# The table of IRQ reservations and its objects

`irq_reservations.c` keeps pointers to allocated lines in a list.  `irq_res_free` looks a line up,
removes an entry from the list and frees the line.  It hands `list_remove` the address of its local
pointer where a line is expected, so the entry is chosen by what lies next to that pointer on the
stack.

`list_remove` is not part of the repository; it enters as a parameter that removes the first element
its comparison accepts (`RemovesFirst`).

* `tableInv_step` — a free that meets its own key keeps the table to lines that are allocated;
* `irq_table_iff` — runs are good as long as every free meets its own key, and no longer;
* `mmioResFree_listRemove` — the list of MMIO reservations under the same `list_remove`;
* `freed_in_table` — a free that meets none leaves the freed line in the table.
-/

namespace TiiSel4Vm.IrqReservations

open TiiSel4Vm.Transition TiiSel4Vm.Devices

/-! ### The table -/

/-- The list `irqs`, the memory its entries point to and which of it is allocated. -/
structure IrqTable (β : Type) where
  irqs : List ℕ
  heap : ℕ → IrqLine β
  live : ℕ → Bool

variable {β : Type} [DecidableEq β]

/-- `irq_line_cmp`. -/
def irqLineCmp (a b : IrqLine β) : ℤ := if a.irq = b.irq ∧ a.cookie = b.cookie then 0 else 1

/-- `list_item`; `cmp` is the comparison with the data looked for. -/
def listItem (l : List ℕ) (cmp : ℕ → ℤ) : Option ℕ := l.find? fun n => cmp n = 0

/-- `irq_res_find`. -/
def irqResFind (s : IrqTable β) (ioProxy : β) (irq : BitVec 32) : Option ℕ :=
  listItem s.irqs fun n => irqLineCmp (s.heap n) ⟨irq, ioProxy⟩

/-- Memory is written. -/
def IrqTable.store (s : IrqTable β) (a : ℕ) (line : IrqLine β) : IrqTable β :=
  { s with heap := Function.update s.heap a line }

omit [DecidableEq β] in
/-- `irq_res_assign`; `calloc`, `irq_line_init` and `list_append` answer `addr`, `initErr` and
`appendErr`. -/
def irqResAssign (s : IrqTable β) (addr : Option ℕ) (initErr appendErr : ℤ) (ioProxy : β)
    (irq : BitVec 32) : ℤ × IrqTable β :=
  match addr with
  | none => (-1, s)
  | some a =>
      let s := s.store a ⟨irq, ioProxy⟩
      if initErr ≠ 0 then (initErr, s)
      else if appendErr ≠ 0 then (appendErr, s)
      else (0, { s with irqs := s.irqs ++ [a], live := Function.update s.live a true })

/-- `irq_res_free`; `nextTo` is the line that `&res` looks like with the memory after `res`. -/
def irqResFree (listRemove : (ℕ → ℤ) → List ℕ → ℤ × List ℕ) (s : IrqTable β) (nextTo : IrqLine β)
    (ioProxy : β) (irq : BitVec 32) : ℤ × IrqTable β :=
  match irqResFind s ioProxy irq with
  | none => (-1, s)
  | some res =>
      (0, { s with
            irqs := (listRemove (fun n => irqLineCmp (s.heap n) nextTo) s.irqs).2
            live := Function.update s.live res false })

/-- What `list_remove` does: the first element that the comparison accepts goes; an error if there
is none. -/
def RemovesFirst {α : Type} (listRemove : (α → ℤ) → List α → ℤ × List α) : Prop :=
  ∀ cmp l, ((∃ n ∈ l, cmp n = 0) → listRemove cmp l = (0, l.eraseP fun n => cmp n = 0)) ∧
    ((∀ n ∈ l, cmp n ≠ 0) → (listRemove cmp l).1 ≠ 0 ∧ (listRemove cmp l).2 = l)

inductive IrqAct (β : Type) where
  /-- a backend calls `irq_res_assign` -/
  | assign (ioProxy : β) (irq : BitVec 32) (addr : Option ℕ) (initErr appendErr : ℤ)
  /-- a backend calls `irq_res_free` -/
  | free (ioProxy : β) (irq : BitVec 32) (nextTo : IrqLine β)
  /-- memory that is not allocated changes -/
  | scribble (a : ℕ) (line : IrqLine β)

/-- One step.  `calloc` returns no memory that is allocated. -/
def irqStep (listRemove : (ℕ → ℤ) → List ℕ → ℤ × List ℕ) (s : IrqTable β) :
    IrqAct β → Option (IrqTable β)
  | .assign ioProxy irq addr initErr appendErr =>
      if addr.all fun a => !s.live a then
        some (irqResAssign s addr initErr appendErr ioProxy irq).2
      else none
  | .free ioProxy irq nextTo => some (irqResFree listRemove s nextTo ioProxy irq).2
  | .scribble a line => if s.live a = false then some (s.store a line) else none

/-- The table under any calls of any backends. -/
def irqLts (listRemove : (ℕ → ℤ) → List ℕ → ℤ × List ℕ) : Lts (IrqTable β) (IrqAct β) :=
  .ofFun (fun s => s.irqs = [] ∧ ∀ a, s.live a = false) (irqStep listRemove)

/-- A free of a key that is in the table finds that key in the memory after `res`. -/
def Matched (s : IrqTable β) : IrqAct β → Prop
  | .free ioProxy irq nextTo => irqResFind s ioProxy irq = none ∨ nextTo = ⟨irq, ioProxy⟩
  | _ => True

instance (s : IrqTable β) (act : IrqAct β) : Decidable (Matched s act) := by
  unfold Matched
  split <;> infer_instance

/-- The table as long as every free meets its own key. -/
def matchedLts (listRemove : (ℕ → ℤ) → List ℕ → ℤ × List ℕ) : Lts (IrqTable β) (IrqAct β) :=
  (irqLts listRemove).restrict Matched

/-! ### Looking lines up -/

/-- The comparison looks at interrupt and cookie. -/
theorem irqLineCmp_eq_zero {a b : IrqLine β} :
    irqLineCmp a b = 0 ↔ a.irq = b.irq ∧ a.cookie = b.cookie := by
  unfold irqLineCmp
  by_cases hkey : a.irq = b.irq ∧ a.cookie = b.cookie
  · rw [if_pos hkey]
    exact iff_of_true rfl hkey
  · rw [if_neg hkey]
    exact iff_of_false (by decide) hkey

theorem irqLineCmp_eq_zero_iff {a b : IrqLine β} : irqLineCmp a b = 0 ↔ a = b := by
  rw [irqLineCmp_eq_zero]
  cases a
  cases b
  rw [IrqLine.mk.injEq]

section Find

variable {s : IrqTable β} {ioProxy : β} {irq : BitVec 32} {n : ℕ}

/-- The line found is the first one of its key. -/
theorem irqResFind_eq_some (h : irqResFind s ioProxy irq = some n) :
    s.heap n = ⟨irq, ioProxy⟩ ∧ ∃ pre post, s.irqs = pre ++ n :: post ∧
      ∀ m ∈ pre, s.heap m ≠ ⟨irq, ioProxy⟩ := by
  obtain ⟨hn, pre, post, hirqs, hpre⟩ := List.find?_eq_some_iff_append.mp h
  refine ⟨irqLineCmp_eq_zero_iff.mp (by simpa using hn), pre, post, hirqs, ?_⟩
  intro m hm heq
  have hnot := hpre m hm
  simp [irqLineCmp_eq_zero_iff.mpr heq] at hnot

theorem irqResFind_eq_none_iff :
    irqResFind s ioProxy irq = none ↔ ∀ n ∈ s.irqs, s.heap n ≠ ⟨irq, ioProxy⟩ := by
  simp [irqResFind, listItem, irqLineCmp_eq_zero_iff]

end Find

section Remove

variable {listRemove : (ℕ → ℤ) → List ℕ → ℤ × List ℕ}

/-- What `list_remove` leaves, whether it finds an element or not. -/
theorem RemovesFirst.eraseP {α : Type} {listRemove : (α → ℤ) → List α → ℤ × List α}
    (hremove : RemovesFirst listRemove) (cmp : α → ℤ) (l : List α) :
    (listRemove cmp l).2 = l.eraseP fun n => cmp n = 0 := by
  by_cases hin : ∃ n ∈ l, cmp n = 0
  · rw [(hremove cmp l).1 hin]
  · have hnone : ∀ n ∈ l, cmp n ≠ 0 := fun n hn hzero => hin ⟨n, hn, hzero⟩
    rw [((hremove cmp l).2 hnone).2, List.eraseP_of_forall_not]
    intro n hn
    simpa using hnone n hn

/-- What it leaves when it is looking for `line`. -/
theorem RemovesFirst.irqs (hremove : RemovesFirst listRemove) (s : IrqTable β) (line : IrqLine β) :
    (listRemove (fun n => irqLineCmp (s.heap n) line) s.irqs).2
      = s.irqs.eraseP fun n => s.heap n = line := by
  rw [hremove.eraseP]
  simp only [irqLineCmp_eq_zero_iff]

/-- Without a line of the key `irq_res_free` returns -1 and changes nothing. -/
theorem irqResFree_none {s : IrqTable β} {nextTo : IrqLine β} {ioProxy : β} {irq : BitVec 32}
    (h : irqResFind s ioProxy irq = none) :
    irqResFree listRemove s nextTo ioProxy irq = (-1, s) := by
  simp only [irqResFree, h]

/-- With one it returns 0, frees that line and removes the first that is `nextTo`. -/
theorem irqResFree_some (hremove : RemovesFirst listRemove) {s : IrqTable β} {nextTo : IrqLine β}
    {ioProxy : β} {irq : BitVec 32} {n : ℕ} (h : irqResFind s ioProxy irq = some n) :
    irqResFree listRemove s nextTo ioProxy irq
      = (0, { s with
              irqs := s.irqs.eraseP fun m => s.heap m = nextTo
              live := Function.update s.live n false }) := by
  simp only [irqResFree, h, hremove.irqs]

end Remove

/-! ### What a call does -/

/-- A free returns 0 exactly when the table held a line of the key, and then exactly one such line
is gone from it and the others are as they were; otherwise nothing changed. -/
structure FreesOne (s : IrqTable β) (ioProxy : β) (irq : BitVec 32) (r : ℤ × IrqTable β) :
    Prop where
  ret_iff : r.1 = 0 ↔ ∃ n ∈ s.irqs, s.heap n = ⟨irq, ioProxy⟩
  removed : r.1 = 0 → ∃ pre n post, s.irqs = pre ++ n :: post ∧ s.heap n = ⟨irq, ioProxy⟩ ∧
    r.2.irqs = pre ++ post ∧ ∀ m ∈ r.2.irqs, r.2.heap m = s.heap m
  refused : r.1 ≠ 0 → r.2 = s

/-- The table holds no line that was freed, and a look-up returns none. -/
structure OnlyLive (s : IrqTable β) : Prop where
  table : ∀ n ∈ s.irqs, s.live n = true
  find : ∀ ioProxy irq n, irqResFind s ioProxy irq = some n → s.live n = true

/-- The table holds allocated lines, each once. -/
structure TableInv (s : IrqTable β) : Prop where
  live : ∀ n ∈ s.irqs, s.live n = true
  nodup : s.irqs.Nodup

theorem TableInv.onlyLive {s : IrqTable β} (h : TableInv s) : OnlyLive s where
  table := h.live
  find ioProxy irq n hn := by
    obtain ⟨-, pre, post, hirqs, -⟩ := irqResFind_eq_some hn
    exact h.live n (by rw [hirqs]; simp)

section Step

variable {listRemove : (ℕ → ℤ) → List ℕ → ℤ × List ℕ} {s : IrqTable β}

omit [DecidableEq β] in
/-- `irq_res_assign` appends a line that was not allocated, or leaves the list alone. -/
theorem irqResAssign_cases (s : IrqTable β) (addr : Option ℕ) (initErr appendErr : ℤ) (ioProxy : β)
    (irq : BitVec 32) :
    (∃ a, addr = some a ∧ irqResAssign s addr initErr appendErr ioProxy irq
      = (0, { s.store a ⟨irq, ioProxy⟩ with
              irqs := s.irqs ++ [a]
              live := Function.update s.live a true })) ∨
      ((irqResAssign s addr initErr appendErr ioProxy irq).1 ≠ 0 ∧
        (irqResAssign s addr initErr appendErr ioProxy irq).2.irqs = s.irqs ∧
        (irqResAssign s addr initErr appendErr ioProxy irq).2.live = s.live ∧
        ∀ n, addr ≠ some n →
          (irqResAssign s addr initErr appendErr ioProxy irq).2.heap n = s.heap n) := by
  cases addr with
  | none => exact .inr ⟨by simp [irqResAssign], rfl, rfl, fun _ _ => rfl⟩
  | some a =>
      have hheap : ∀ n, some a ≠ some n → Function.update s.heap a ⟨irq, ioProxy⟩ n = s.heap n :=
        fun n hn => Function.update_of_ne (fun hna => hn (congrArg some hna.symm)) _ _
      by_cases hinit : initErr = 0
      · by_cases happend : appendErr = 0
        · exact .inl ⟨a, rfl, by simp [irqResAssign, hinit, happend, IrqTable.store]⟩
        · have hfailed : irqResAssign s (some a) initErr appendErr ioProxy irq
              = (appendErr, s.store a ⟨irq, ioProxy⟩) := by
            simp [irqResAssign, hinit, happend]
          rw [hfailed]
          exact .inr ⟨happend, rfl, rfl, hheap⟩
      · have hfailed : irqResAssign s (some a) initErr appendErr ioProxy irq
            = (initErr, s.store a ⟨irq, ioProxy⟩) := by
          simp [irqResAssign, hinit]
        rw [hfailed]
        exact .inr ⟨hinit, rfl, rfl, hheap⟩

/-- A free that meets its own key removes the line it frees. -/
theorem TableInv.free_matched (h : TableInv s) (hremove : RemovesFirst listRemove) (ioProxy : β)
    (irq : BitVec 32) :
    FreesOne s ioProxy irq (irqResFree listRemove s ⟨irq, ioProxy⟩ ioProxy irq) ∧
      TableInv (irqResFree listRemove s ⟨irq, ioProxy⟩ ioProxy irq).2 := by
  cases hfind : irqResFind s ioProxy irq with
  | none =>
      rw [irqResFree_none hfind]
      have hneg : ¬ (-1 : ℤ) = 0 := by decide
      refine ⟨⟨?_, fun hzero => absurd hzero hneg, fun _ => rfl⟩, h⟩
      refine iff_of_false hneg ?_
      rintro ⟨n, hn, heq⟩
      exact irqResFind_eq_none_iff.mp hfind n hn heq
  | some n =>
      obtain ⟨hkey, pre, post, hirqs, hpre⟩ := irqResFind_eq_some hfind
      have herase : (s.irqs.eraseP fun m => s.heap m = ⟨irq, ioProxy⟩) = pre ++ post := by
        rw [hirqs, List.eraseP_append_right, List.eraseP_cons_of_pos]
        · simpa using hkey
        · intro m hm
          simpa using hpre m hm
      have hnodup := h.nodup
      rw [hirqs] at hnodup
      rw [irqResFree_some hremove hfind, herase]
      refine ⟨⟨?_, ?_, ?_⟩, ⟨?_, ?_⟩⟩
      · exact iff_of_true rfl ⟨n, by rw [hirqs]; simp, hkey⟩
      · intro _
        exact ⟨pre, n, post, hirqs, hkey, rfl, fun m _ => rfl⟩
      · intro hne
        exact absurd rfl hne
      · intro m hm
        have hmn : m ≠ n := by
          rintro rfl
          exact (List.nodup_middle.mp hnodup).notMem hm
        show Function.update s.live n false m = true
        rw [Function.update_of_ne hmn]
        refine h.live m ?_
        rw [hirqs]
        rcases List.mem_append.mp hm with hmem | hmem
        · exact List.mem_append_left _ hmem
        · exact List.mem_append_right _ (List.mem_cons_of_mem _ hmem)
      · exact (List.nodup_middle.mp hnodup).of_cons

/-- **Steps.**  Every step but a free that does not meet its key keeps the invariant. -/
theorem tableInv_step (hremove : RemovesFirst listRemove) {s' : IrqTable β} {act : IrqAct β}
    (h : TableInv s) (hmatched : Matched s act) (hstep : irqStep listRemove s act = some s') :
    TableInv s' := by
  cases act with
  | assign ioProxy irq addr initErr appendErr =>
      simp only [irqStep] at hstep
      split at hstep
      · rename_i hfresh
        cases hstep
        rcases irqResAssign_cases s addr initErr appendErr ioProxy irq with
          ⟨a, rfl, hok⟩ | ⟨-, hirqs, hlive, -⟩
        · have ha : s.live a = false := by simpa using hfresh
          have hnew : a ∉ s.irqs := by
            intro hin
            rw [h.live a hin] at ha
            cases ha
          rw [hok]
          refine ⟨?_, ?_⟩
          · intro m hm
            show Function.update s.live a true m = true
            by_cases hma : m = a
            · rw [hma, Function.update_self]
            · rw [Function.update_of_ne hma]
              rcases List.mem_append.mp hm with hmem | hmem
              · exact h.live m hmem
              · exact absurd (List.mem_singleton.mp hmem) hma
          · show (s.irqs ++ [a]).Nodup
            rw [List.nodup_append_comm]
            exact List.nodup_cons.mpr ⟨hnew, h.nodup⟩
        · refine ⟨?_, ?_⟩
          · rw [hirqs, hlive]
            exact h.live
          · rw [hirqs]
            exact h.nodup
      · cases hstep
  | free ioProxy irq nextTo =>
      simp only [irqStep] at hstep
      cases hstep
      rcases hmatched with hnone | rfl
      · rw [irqResFree_none hnone]
        exact h
      · exact (h.free_matched hremove ioProxy irq).2
  | scribble a line =>
      simp only [irqStep] at hstep
      split at hstep
      · cases hstep
        exact ⟨h.live, h.nodup⟩
      · cases hstep

/-- A free that meets another key removes another line than its own, or none. -/
theorem not_freesOne (h : TableInv s) (hremove : RemovesFirst listRemove) {ioProxy : β}
    {irq : BitVec 32} {nextTo : IrqLine β}
    (hnot : ¬ Matched s (.free ioProxy irq nextTo)) :
    ¬ FreesOne s ioProxy irq (irqResFree listRemove s nextTo ioProxy irq) := by
  have hfound : irqResFind s ioProxy irq ≠ none := fun hnone => hnot (.inl hnone)
  have hother : nextTo ≠ ⟨irq, ioProxy⟩ := fun heq => hnot (.inr heq)
  obtain ⟨n, hfind⟩ := Option.ne_none_iff_exists'.mp hfound
  rw [irqResFree_some hremove hfind]
  intro hfrees
  obtain ⟨pre, m, post, hirqs, hkey, hleft, -⟩ := hfrees.removed rfl
  have hleft' : (s.irqs.eraseP fun k => s.heap k = nextTo) = pre ++ post := hleft
  rcases List.exists_or_eq_self_of_eraseP (fun k => decide (s.heap k = nextTo)) s.irqs with
    hsame | ⟨k, pre', post', -, hk, hirqs', herase⟩
  · -- nothing was removed
    have hlen := congrArg List.length (hsame.symm.trans hleft')
    rw [hirqs] at hlen
    simp at hlen
  · -- a line of another key was removed, which is still to be there
    have hkm : k ≠ m := by
      rintro rfl
      exact hother ((of_decide_eq_true hk).symm.trans hkey)
    have hin : k ∈ pre ++ post := by
      have hmem : k ∈ pre ++ m :: post := by
        rw [← hirqs, hirqs']
        simp
      rcases List.mem_append.mp hmem with hmem' | hmem'
      · exact List.mem_append_left _ hmem'
      · rcases List.mem_cons.mp hmem' with heq | hmem''
        · exact absurd heq hkm
        · exact List.mem_append_right _ hmem''
    rw [← hleft', herase] at hin
    have hnodup := h.nodup
    rw [hirqs'] at hnodup
    exact (List.nodup_middle.mp hnodup).notMem hin

end Step

theorem tableInv_of_reachable {listRemove : (ℕ → ℤ) → List ℕ → ℤ × List ℕ}
    (hremove : RemovesFirst listRemove) {s : IrqTable β}
    (h : (matchedLts listRemove).Reachable s) : TableInv s := by
  refine h.invariant ?_ ?_
  · rintro s ⟨hirqs, -⟩
    refine ⟨?_, ?_⟩
    · rw [hirqs]
      intro n hn
      cases hn
    · rw [hirqs]
      exact List.nodup_nil
  · intro s act s' _ hi hstep
    exact tableInv_step hremove hi hstep.1 hstep.2

/-- **The table.**  Under any calls of any backends and whatever lies next to local variables: as
long as every free meets its own key the table holds live lines only, and a call of `irq_res_free`
then frees one line of its key and keeps the table so exactly when it meets its key. -/
theorem irq_table_iff {listRemove : (ℕ → ℤ) → List ℕ → ℤ × List ℕ}
    (hremove : RemovesFirst listRemove) {s : IrqTable β}
    (h : (matchedLts listRemove).Reachable s) :
    OnlyLive s ∧ ∀ (ioProxy : β) (irq : BitVec 32) (nextTo : IrqLine β),
      (FreesOne s ioProxy irq (irqResFree listRemove s nextTo ioProxy irq) ∧
        OnlyLive (irqResFree listRemove s nextTo ioProxy irq).2) ↔
      Matched s (.free ioProxy irq nextTo) := by
  have hinv := tableInv_of_reachable hremove h
  refine ⟨hinv.onlyLive, fun ioProxy irq nextTo => ⟨?_, ?_⟩⟩
  · rintro ⟨hfrees, -⟩
    by_contra hnot
    exact not_freesOne hinv hremove hnot hfrees
  · intro hmatched
    have hmeets := hinv.free_matched hremove ioProxy irq
    rcases hmatched with hnone | rfl
    · have hfree : irqResFree listRemove s nextTo ioProxy irq
          = irqResFree listRemove s ⟨irq, ioProxy⟩ ioProxy irq := by
        rw [irqResFree_none hnone, irqResFree_none hnone]
      rw [hfree]
      exact ⟨hmeets.1, hmeets.2.onlyLive⟩
    · exact ⟨hmeets.1, hmeets.2.onlyLive⟩

/-! ### The table as a list of lines -/

/-- The lines in the table. -/
def IrqTable.lines (s : IrqTable β) : List (IrqLine β) := s.irqs.map s.heap

section Lines

variable {s : IrqTable β} {d : DeviceTables β}

/-- A look-up finds the line that it finds in the list of lines. -/
theorem irqResFind_lines (hd : d.irqs = s.lines) (ioProxy : β) (irq : BitVec 32) :
    Devices.irqResFind d ioProxy irq = (irqResFind s ioProxy irq).map s.heap := by
  unfold Devices.irqResFind irqResFind listItem
  rw [hd, IrqTable.lines, List.find?_map]
  congr 2
  funext n
  have hkey : irqLineCmp (s.heap n) ⟨irq, ioProxy⟩ = 0 ↔
      (s.heap n).irq = irq ∧ (s.heap n).cookie = ioProxy := irqLineCmp_eq_zero
  exact decide_eq_decide.mpr hkey.symm

omit [DecidableEq β] in
/-- `irq_res_assign` appends its line to the list of lines, or leaves that alone. -/
theorem lines_irqResAssign (h : TableInv s) {addr : Option ℕ}
    (hfresh : ∀ a, addr = some a → s.live a = false) (initErr appendErr : ℤ) (ioProxy : β)
    (irq : BitVec 32) :
    (irqResAssign s addr initErr appendErr ioProxy irq).2.lines
      = if (irqResAssign s addr initErr appendErr ioProxy irq).1 = 0 then
          s.lines ++ [⟨irq, ioProxy⟩]
        else s.lines := by
  have hnew : ∀ n ∈ s.irqs, addr ≠ some n := by
    intro n hn haddr
    have hlive := h.live n hn
    rw [hfresh n haddr] at hlive
    cases hlive
  rcases irqResAssign_cases s addr initErr appendErr ioProxy irq with
    ⟨a, rfl, hok⟩ | ⟨hne, hirqs, -, hheap⟩
  · rw [hok, if_pos rfl]
    show (s.irqs ++ [a]).map (Function.update s.heap a ⟨irq, ioProxy⟩) = s.irqs.map s.heap ++ _
    rw [List.map_append, List.map_singleton, Function.update_self]
    congr 1
    apply List.map_congr_left
    intro n hn
    exact Function.update_of_ne (fun hna => hnew n hn (congrArg some hna.symm)) _ _
  · rw [if_neg hne]
    unfold IrqTable.lines
    rw [hirqs]
    apply List.map_congr_left
    intro n hn
    exact hheap n (hnew n hn)

/-- A free that meets its own key takes the first line of that key out of the list of lines. -/
theorem lines_irqResFree {listRemove : (ℕ → ℤ) → List ℕ → ℤ × List ℕ}
    (hremove : RemovesFirst listRemove) (s : IrqTable β) (ioProxy : β) (irq : BitVec 32) :
    (irqResFree listRemove s ⟨irq, ioProxy⟩ ioProxy irq).2.lines
      = s.lines.eraseP fun l => l = ⟨irq, ioProxy⟩ := by
  cases hfind : irqResFind s ioProxy irq with
  | none =>
      rw [irqResFree_none hfind, List.eraseP_of_forall_not]
      intro l hl
      obtain ⟨n, hn, rfl⟩ := List.mem_map.mp hl
      simpa using irqResFind_eq_none_iff.mp hfind n hn
  | some n =>
      rw [irqResFree_some hremove hfind]
      unfold IrqTable.lines
      rw [List.eraseP_map]
      rfl

end Lines

/-! ### The list of MMIO reservations -/

/-- `mmio_res_cmp`. -/
def mmioResCmp (a b : MmioReservation β) : ℤ :=
  if a.addr = b.addr ∧ a.size = b.size ∧ a.ioProxy = b.ioProxy then 0 else 1

/-- `mmio_res_free` hands `list_remove` the key it looked for, so it leaves what that leaves of the
pointers to the reservations; `res` is what the key has in the field that is not compared. -/
theorem mmioResFree_listRemove {listRemove : (ℕ → ℤ) → List ℕ → ℤ × List ℕ}
    (hremove : RemovesFirst listRemove) {d : DeviceTables β} {ptrs : List ℕ}
    {heap : ℕ → MmioReservation β} (hd : d.mmioReservations = ptrs.map heap) (x : Answers)
    (ioProxy : β) (addr size : RpcQueue.Word) (res : ℕ) :
    (mmioResFree d x ioProxy addr size).2.mmioReservations
      = (listRemove (fun n => mmioResCmp (heap n) ⟨addr, size, res, ioProxy⟩) ptrs).2.map heap := by
  have hcmp : ∀ m : MmioReservation β,
      mmioResCmp m ⟨addr, size, res, ioProxy⟩ = 0 ↔ m.Is ioProxy addr size = true := by
    intro m
    rw [MmioReservation.is_iff, mmioResCmp]
    split
    · rename_i hkey
      exact iff_of_true rfl hkey
    · rename_i hkey
      exact iff_of_false (by decide) hkey
  have hleft :
      (listRemove (fun n => mmioResCmp (heap n) ⟨addr, size, res, ioProxy⟩) ptrs).2.map heap
        = d.mmioReservations.eraseP fun m => m.Is ioProxy addr size := by
    rw [hremove.eraseP, hd, List.eraseP_map]
    simp only [hcmp, Bool.decide_eq_true]
    rfl
  rw [hleft]
  unfold mmioResFree
  cases hfind : d.mmioReservations.find? fun m => m.Is ioProxy addr size with
  | none =>
      rw [List.eraseP_of_forall_not]
      exact List.find?_eq_none.mp hfind
  | some m => rfl

/-- A `list_remove`. -/
def listRemove (cmp : ℕ → ℤ) (l : List ℕ) : ℤ × List ℕ :=
  if l.any fun n => cmp n = 0 then (0, l.eraseP fun n => cmp n = 0) else (-1, l)

theorem removesFirst_listRemove : RemovesFirst listRemove := by
  intro cmp l
  constructor
  · intro hin
    have hany : (l.any fun n => cmp n = 0) = true := by simpa using hin
    rw [listRemove, if_pos hany]
  · intro hnone
    have hany : ¬ (l.any fun n => cmp n = 0) = true := by simpa using hnone
    have hneg : (-1 : ℤ) ≠ 0 := by decide
    rw [listRemove, if_neg hany]
    exact ⟨hneg, rfl⟩

/-- Nothing is allocated. -/
def noLines : IrqTable Bool := ⟨[], fun _ => ⟨0#32, false⟩, fun _ => false⟩

/-- Backend `true` has a line for interrupt 40. -/
def oneLine : IrqTable Bool :=
  play (guarded Matched (irqStep listRemove)) noLines [.assign true 40#32 (some 0) 0 0]

theorem reachable_oneLine : (matchedLts listRemove).Reachable oneLine := by
  have hinit : (matchedLts listRemove).Reachable noLines := .init ⟨rfl, fun _ => rfl⟩
  exact hinit.play (fun _ _ _ h => guarded_step h) _

/-- So has backend `false`, after its line for interrupt 41. -/
def threeLines : IrqTable Bool :=
  play (guarded Matched (irqStep listRemove)) noLines
    [.assign false 41#32 (some 0) 0 0, .assign true 40#32 (some 1) 0 0,
      .assign false 40#32 (some 2) 0 0]

/-- The memory after `res` holds the key: one line goes, and the two of the other backend stay, in
order. -/
theorem irq_table_iff_threeLines :
    FreesOne threeLines true 40#32 (irqResFree listRemove threeLines ⟨40#32, true⟩ true 40#32) ∧
      (irqResFree listRemove threeLines ⟨40#32, true⟩ true 40#32).2.lines
        = [⟨41#32, false⟩, ⟨40#32, false⟩] := by
  have hinit : (matchedLts listRemove).Reachable noLines := .init ⟨rfl, fun _ => rfl⟩
  have hreach : (matchedLts listRemove).Reachable threeLines :=
    hinit.play (fun _ _ _ h => guarded_step h) _
  have hmatched : Matched threeLines (.free true 40#32 ⟨40#32, true⟩) := .inr rfl
  have hfrees := (irq_table_iff removesFirst_listRemove hreach).2 true 40#32 ⟨40#32, true⟩
  exact ⟨(hfrees.mpr hmatched).1, by decide⟩

/-- The memory after `res` holds zeros: the call returns 0, and the line it freed is still in the
table. -/
theorem freed_in_table :
    (matchedLts listRemove).Reachable oneLine ∧
      (irqResFree listRemove oneLine ⟨0#32, false⟩ true 40#32).1 = 0 ∧
      ¬ FreesOne oneLine true 40#32 (irqResFree listRemove oneLine ⟨0#32, false⟩ true 40#32) ∧
      ¬ OnlyLive (irqResFree listRemove oneLine ⟨0#32, false⟩ true 40#32).2 := by
  have hnot : ¬ Matched oneLine (.free true 40#32 ⟨0#32, false⟩) := by decide
  refine ⟨reachable_oneLine, by decide, ?_, ?_⟩
  · exact not_freesOne (tableInv_of_reachable removesFirst_listRemove reachable_oneLine)
      removesFirst_listRemove hnot
  · intro honly
    exact absurd (honly.table 0 (by decide)) (by decide)

end TiiSel4Vm.IrqReservations
