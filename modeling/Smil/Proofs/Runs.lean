import Smil.Proofs.Assembly
import Smil.Proofs.Execution
import Mathlib.Logic.Relation

/-!
# Runs as sequences of steps

A run with a budget is a sequence of steps, and its outcome does not depend on the budget once the
budget is large enough. So a run diverges exactly if no budget is.
-/

namespace Smil.Machine

open Bytecode Assembly

/-- One step that does not end the run, from an offset and a machine to the next. -/
def Step (chunk : Chunk) (a b : Nat × Machine) : Prop :=
  step chunk a.1 a.2 = .ok (.goto b.1) b.2

/-- Any number of steps. -/
abbrev Steps (chunk : Chunk) : Nat × Machine → Nat × Machine → Prop :=
  Relation.ReflTransGen (Step chunk)

/-- A run from here on ends with this result and this memory. -/
def Ends (chunk : Chunk) (a : Nat × Machine) (result : Except Error Completion) (m : Memory) :
    Prop :=
  ∃ budget m', runFrom chunk budget a.1 a.2 = some (result, m') ∧ m'.memory = m

variable {chunk : Chunk} {a b : Nat × Machine}

/-- A step takes one from the budget. -/
theorem Step.runFrom (h : Step chunk a b) (budget : Nat) :
    runFrom chunk (budget + 1) a.1 a.2 = runFrom chunk budget b.1 b.2 := by
  rw [Machine.runFrom, h]

/-- Steps take their number from the budget. -/
theorem Steps.runFrom (h : Steps chunk a b) :
    ∃ k, ∀ budget, runFrom chunk (budget + k) a.1 a.2 = runFrom chunk budget b.1 b.2 := by
  induction h with
  | refl => exact ⟨0, fun _ => rfl⟩
  | tail _ hstep ih =>
    obtain ⟨k, hk⟩ := ih
    refine ⟨k + 1, fun budget => ?_⟩
    rw [← hstep.runFrom, ← hk]
    congr 1
    omega

/-- A larger budget does not change the outcome of a run. -/
theorem runFrom_mono {budget budget' ip : Nat} {m : Machine}
    {r : Except Error Completion × Machine} (h : runFrom chunk budget ip m = some r)
    (hle : budget ≤ budget') : runFrom chunk budget' ip m = some r := by
  induction budget generalizing budget' ip m with
  | zero => cases h
  | succ budget ih =>
    obtain ⟨budget', rfl⟩ := Nat.exists_eq_add_of_le' (Nat.lt_of_lt_of_le (Nat.succ_pos _) hle)
    rw [runFrom] at h ⊢
    split at h
    · exact ih h (by omega)
    · exact h
    · exact h

/-- Two runs from the same place have the same outcome, whatever their budgets. -/
theorem runFrom_unique {budget budget' ip : Nat} {m : Machine}
    {r r' : Except Error Completion × Machine} (h : runFrom chunk budget ip m = some r)
    (h' : runFrom chunk budget' ip m = some r') : r = r' := by
  have hmax := runFrom_mono h (Nat.le_max_left budget budget')
  have hmax' := runFrom_mono h' (Nat.le_max_right budget budget')
  exact Option.some.inj (hmax.symm.trans hmax')

/-- A run that is not done within a budget is not done within a smaller one. -/
theorem runFrom_eq_none {budget budget' ip : Nat} {m : Machine}
    (h : runFrom chunk budget ip m = none) (hle : budget' ≤ budget) :
    runFrom chunk budget' ip m = none := by
  cases hrun : runFrom chunk budget' ip m with
  | none => rfl
  | some r => cases h.symm.trans (runFrom_mono hrun hle)

/-- A run ends as it does after some steps. -/
theorem Ends.of_steps {result : Except Error Completion} {m : Memory} (h : Steps chunk a b)
    (hb : Ends chunk b result m) : Ends chunk a result m := by
  obtain ⟨k, hk⟩ := h.runFrom
  obtain ⟨budget, m', hrun, hm'⟩ := hb
  exact ⟨budget + k, m', (hk budget).trans hrun, hm'⟩

/-- A run that is not done after some steps within a budget is not done before them. -/
theorem runFrom_eq_none_of_steps {budget : Nat} (h : Steps chunk a b)
    (hb : runFrom chunk budget b.1 b.2 = none) : runFrom chunk budget a.1 a.2 = none := by
  obtain ⟨k, hk⟩ := h.runFrom
  exact runFrom_eq_none ((hk budget).trans hb) (Nat.le_add_right budget k)

/-- Where the chunk holds a line, a step carries out the line's instruction. -/
theorem step_of_holds {ip : Nat} {l : Line} (h : Holds chunk ip [l]) (m : Machine) :
    step chunk ip m = execute l.instruction (ip + l.instruction.size) m := by
  unfold step
  rw [(holds_singleton.mp h).1]

/-- An error is placed where the line is. -/
theorem ends_of_error {ip : Nat} {l : Line} {m m' : Machine} {cause : Cause}
    (h : Holds chunk ip [l])
    (herror : execute l.instruction (ip + l.instruction.size) m = .error cause m') :
    Ends chunk (ip, m) (.error (.placed cause l.span)) m'.memory := by
  refine ⟨1, m', ?_, rfl⟩
  rw [runFrom, step_of_holds h, herror, (holds_singleton.mp h).2]
  rfl

/-- An instruction that stops the run. -/
theorem ends_of_stop {ip : Nat} {l : Line} {m m' : Machine} {c : Completion}
    (h : Holds chunk ip [l])
    (hstop : execute l.instruction (ip + l.instruction.size) m = .ok (.stop c) m') :
    Ends chunk (ip, m) (.ok c) m'.memory := by
  refine ⟨1, m', ?_, rfl⟩
  rw [runFrom, step_of_holds h, hstop]

end Smil.Machine
