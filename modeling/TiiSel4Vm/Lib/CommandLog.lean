import Mathlib.Data.List.Basic

/-!
# Logs of commands

Outputs are set by commands, and a log lists the commands in order.  An output is at what the last
command for it says, and a wire that joins several outputs is asserted while one of them is raised.

* `last` — the last command for an output;
* `Asserted` — the wired OR of the outputs on a wire.
-/

namespace TiiSel4Vm.CommandLog

variable {σ α : Type*} [DecidableEq σ]

/-- The last command for the output. -/
def last (log : List (σ × α)) (s : σ) : Option α :=
  (log.reverse.find? fun c => c.1 = s).map Prod.snd

/-- One of the outputs on the wire was last raised. -/
def Asserted (log : List (σ × Bool)) (onWire : σ → Prop) : Prop :=
  ∃ s, onWire s ∧ last log s = some true

@[simp] theorem last_nil (s : σ) : last ([] : List (σ × α)) s = none := rfl

@[simp] theorem last_snoc_self (log : List (σ × α)) (s : σ) (a : α) :
    last (log ++ [(s, a)]) s = some a := by
  simp [last]

theorem last_snoc_of_ne (log : List (σ × α)) {s t : σ} (a : α) (h : t ≠ s) :
    last (log ++ [(s, a)]) t = last log t := by
  simp [last, Ne.symm h]

theorem not_asserted_nil (onWire : σ → Prop) : ¬ Asserted [] onWire := by
  rintro ⟨s, -, hs⟩
  cases hs

end TiiSel4Vm.CommandLog
