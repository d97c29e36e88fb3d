import Smil.Proofs.Sessions
import Mathlib.Data.List.Induction

/-!
# The evaluation stack is a list

Popping and clearing only lower the top of a stack: the slots above it keep their old values until a
push overwrites them. Whatever has been done to a stack that started empty, the slots below its top
hold the live values in their order, those that were pushed and neither popped nor cleared since. So
a pop yields the value pushed last of which everything pushed later has been popped again.

The capacity tells how many values there have been at once. It is a multiple of the growth step, at
least one step, and no larger than the most values ever needed.
-/

namespace Smil.Stack

variable {α : Type} {s : Stack α} {values : List α}

/-! ### Operations -/

/-- What can be done to a stack. -/
inductive Operation (α : Type) where
  | push (a : α)
  | pop
  | clear
deriving DecidableEq, Repr

/-- What a pop answers and what it leaves. -/
def popped (s : Stack α) : Except Cause α × Stack α :=
  (s.pop.1.elim (.error .stackUnderflow) .ok, s.pop.2)

/-- The stack after an operation. -/
def perform (s : Stack α) : Operation α → Stack α
  | .push a => s.push a
  | .pop => s.popped.2
  | .clear => s.clear

/-- The stack after operations on an empty one. -/
def after (ops : List (Operation α)) : Stack α :=
  ops.foldl perform empty

/-- A push in place. It is not defined if there is no slot for the value. -/
def pushInPlace (s : Stack α) (a : α) : Option (Stack α) :=
  let slots := grown s.slots s.top
  if s.top < slots.size then some ⟨slots.setIfInBounds s.top (some a), s.top + 1⟩ else none

/-- A pop in place. It is not defined if there is no slot to look at. -/
def popInPlace (s : Stack α) : Option (Except Cause α × Stack α) :=
  match s.top with
  | 0 => some (.error .stackUnderflow, s)
  | top + 1 =>
    s.slots[top]?.map fun slot => (slot.elim (.error .stackUnderflow) .ok, ⟨s.slots, top⟩)

/-! ### Live values -/

/-- The live values after an operation, from bottom to top. -/
def Operation.onList (values : List α) : Operation α → List α
  | push a => values ++ [a]
  | pop => values.dropLast
  | clear => []

/-- The live values after operations on an empty stack. -/
def live (ops : List (Operation α)) : List α :=
  ops.foldl Operation.onList []

/-- One more operation acts on the live values. -/
theorem live_concat (ops : List (Operation α)) (op : Operation α) :
    live (ops ++ [op]) = op.onList (live ops) := by
  rw [live, List.foldl_append]
  rfl

/-- One more operation acts on the stack that the others have left. -/
theorem after_concat (ops : List (Operation α)) (op : Operation α) :
    after (ops ++ [op]) = (after ops).perform op := by
  rw [after, List.foldl_append]
  rfl

/-- The slots below the top of the stack hold these values. -/
structure Holds (s : Stack α) (values : List α) : Prop where
  size_eq : s.size = values.length
  slot : ∀ (i : Nat) (a : α), values[i]? = some a → s.slots[i]? = some (some a)

/-- An empty stack holds no values. -/
theorem holds_empty : (empty : Stack α).Holds [] :=
  ⟨rfl, fun _ _ h => absurd h (by simp)⟩

/-- A stack that has been cleared holds no values, whatever is in its slots. -/
theorem Holds.clear (s : Stack α) : s.clear.Holds [] :=
  ⟨rfl, fun _ _ h => absurd h (by simp)⟩

/-- Where live values are, no slot in use is empty. -/
theorem Holds.filled (h : s.Holds values) : s.Filled := by
  intro i hi
  have hlt : i < values.length := by
    rw [← h.size_eq]
    exact hi
  exact ⟨values[i], h.slot i values[i] (List.getElem?_eq_getElem hlt)⟩

/-- A value that is pushed is the last live one. -/
theorem Holds.push (h : s.Holds values) (a : α) : (s.push a).Holds (values ++ [a]) := by
  have hroom := lt_size_grown h.filled.top_le
  have htop : s.top = values.length := h.size_eq
  refine ⟨?_, ?_⟩
  · rw [List.length_append, ← h.size_eq]
    rfl
  · intro i b hb
    rw [Stack.push, Array.getElem?_setIfInBounds]
    by_cases hi : s.top = i
    · rw [← hi, htop, List.getElem?_concat_length] at hb
      rw [if_pos hi, if_pos (hi ▸ hroom), Option.some.inj hb]
    · have hlt : i < values.length := by
        have hlength := (List.getElem?_eq_some_iff.mp hb).1
        rw [List.length_append, List.length_singleton] at hlength
        omega
      rw [List.getElem?_append_left hlt] at hb
      rw [if_neg hi]
      exact getElem?_grown_of_some s.top (h.slot i b hb)

/-- A stack without live values is left as it is. -/
theorem Holds.popped_nil (h : s.Holds []) : s.popped = (.error .stackUnderflow, s) := by
  rw [Stack.popped, pop_of_zero h.size_eq]
  rfl

/-- The last of the live values is taken, and the slots stay. -/
theorem Holds.popped_concat {a : α} (h : s.Holds (values ++ [a])) :
    s.popped = (.ok a, ⟨s.slots, values.length⟩) := by
  have htop : s.top = values.length + 1 := by
    rw [← List.length_singleton (a := a), ← List.length_append]
    exact h.size_eq
  rw [Stack.popped, pop_of_succ htop, h.slot values.length a List.getElem?_concat_length]
  rfl

/-- A pop takes the last live value off. -/
theorem Holds.popped (h : s.Holds values) : s.popped.2.Holds values.dropLast := by
  rcases List.eq_nil_or_concat' values with rfl | ⟨init, a, rfl⟩
  · rw [h.popped_nil]
    exact h
  · rw [h.popped_concat, List.dropLast_concat]
    refine ⟨rfl, ?_⟩
    intro i b hb
    have hlt := (List.getElem?_eq_some_iff.mp hb).1
    exact h.slot i b (by rwa [List.getElem?_append_left hlt])

/-- An operation does to the live values what it does to the list of them. -/
theorem Holds.perform (h : s.Holds values) (op : Operation α) :
    (s.perform op).Holds (op.onList values) := by
  cases op with
  | push a => exact h.push a
  | pop => exact h.popped
  | clear => exact Holds.clear s

/-- After any operations the stack holds the live values. -/
theorem holds_after (ops : List (Operation α)) : (after ops).Holds (live ops) := by
  induction ops using List.reverseRecOn with
  | nil => exact holds_empty
  | append_singleton ops op ih =>
    rw [after_concat, live_concat]
    exact ih.perform op

/-- The listing shows the live values and no slot above the top. -/
theorem Holds.toList_eq (h : s.Holds values) : s.toList = values := by
  have htop : s.top = values.length := h.size_eq
  have hslots : s.slots.toList.take s.top = values.map some := by
    apply List.ext_getElem?
    intro i
    rw [List.getElem?_take, List.getElem?_map, Array.getElem?_toList]
    split
    · rename_i hi
      have hlt : i < values.length := htop ▸ hi
      rw [List.getElem?_eq_getElem hlt]
      exact h.slot i values[i] (List.getElem?_eq_getElem hlt)
    · rename_i hi
      rw [List.getElem?_eq_none (by omega)]
      rfl
  rw [toList, hslots, List.filterMap_map, Function.id_comp, List.filterMap_some]

/-- In place no slot is missed, and none that is looked at is empty. -/
theorem Holds.popInPlace_eq (h : s.Holds values) : s.popInPlace = some s.popped := by
  rcases List.eq_nil_or_concat' values with rfl | ⟨init, a, rfl⟩
  · have htop : s.top = 0 := h.size_eq
    rw [h.popped_nil]
    unfold popInPlace
    rw [htop]
  · have htop : s.top = init.length + 1 := h.size_eq.trans List.length_append
    have hslot := h.slot init.length a List.getElem?_concat_length
    rw [h.popped_concat]
    unfold popInPlace
    rw [htop]
    dsimp only
    rw [hslot]
    rfl

/-- In place a push finds a slot for its value. -/
theorem Holds.pushInPlace_eq (h : s.Holds values) (a : α) : s.pushInPlace a = some (s.push a) :=
  if_pos (lt_size_grown h.filled.top_le)

/-! ### The value pushed last -/

/-- Operations that pop every value they push, and no other. -/
inductive Spent : List (Operation α) → Prop
  | nil : Spent []
  | popped {first inner : List (Operation α)} (a : α) (hfirst : Spent first)
      (hinner : Spent inner) : Spent (first ++ .push a :: (inner ++ [.pop]))

/-- What is spent leaves the values below as they are. -/
theorem Spent.foldl_onList {ops : List (Operation α)} (h : Spent ops) (values : List α) :
    ops.foldl Operation.onList values = values := by
  induction h generalizing values with
  | nil => rfl
  | popped a _ _ hfirst hinner =>
    rw [List.foldl_append, hfirst, List.foldl_cons, List.foldl_append, hinner]
    exact List.dropLast_concat

/-- The last live value was pushed, and what came later is spent. The induction is on the number of
operations: a pop takes the value pushed last before it, and leads back to the operations before
that push. -/
theorem exists_push_of_live {ops : List (Operation α)} {a : α} (h : live ops = values ++ [a]) :
    ∃ before between, ops = before ++ .push a :: between ∧ Spent between ∧
      live before = values := by
  induction hlength : ops.length using Nat.strongRecOn generalizing ops values a with
  | ind n ih =>
    subst hlength
    rcases List.eq_nil_or_concat' ops with rfl | ⟨ops, op, rfl⟩
    · simp [live] at h
    rw [live_concat] at h
    have hshorter : ops.length < (ops ++ [op]).length := by simp
    cases op with
    | push b =>
      obtain ⟨hvalues, hb⟩ := List.append_inj' h rfl
      cases hb
      exact ⟨ops, [], rfl, .nil, hvalues⟩
    | clear => simp [Operation.onList] at h
    | pop =>
      obtain ⟨c, hlive⟩ : ∃ c, live ops = values ++ [a] ++ [c] := by
        rcases List.eq_nil_or_concat' (live ops) with hnil | ⟨init, c, hlive⟩
        · simp [hnil, Operation.onList] at h
        · rw [hlive, Operation.onList, List.dropLast_concat] at h
          exact ⟨c, by rw [hlive, h]⟩
      obtain ⟨before, inner, rfl, hinner, hbefore⟩ := ih _ hshorter hlive rfl
      have hearlier : before.length <
          (before ++ Operation.push c :: inner ++ [Operation.pop]).length := by
        simp only [List.length_append, List.length_cons]
        omega
      obtain ⟨start, first, rfl, hfirst, hstart⟩ := ih _ hearlier hbefore rfl
      exact ⟨start, first ++ .push c :: (inner ++ [.pop]), by simp, .popped c hfirst hinner, hstart⟩

/-- A value is the last live one if it was pushed and what came later is spent. -/
theorem getLast?_live_eq_some_iff {ops : List (Operation α)} {a : α} :
    (live ops).getLast? = some a ↔
      ∃ before between, ops = before ++ .push a :: between ∧ Spent between := by
  constructor
  · intro h
    obtain ⟨values, hlive⟩ := List.getLast?_eq_some_iff.mp h
    obtain ⟨before, between, hops, hspent, -⟩ := exists_push_of_live hlive
    exact ⟨before, between, hops, hspent⟩
  · rintro ⟨before, between, rfl, hspent⟩
    rw [live, List.foldl_append, List.foldl_cons, hspent.foldl_onList]
    exact List.getLast?_concat

/-! ### Capacity -/

/-- The most values that have been live at once. -/
def IsPeak (ops : List (Operation α)) (peak : Nat) : Prop :=
  (∃ part, part <+: ops ∧ (live part).length = peak) ∧
    ∀ part, part <+: ops → (live part).length ≤ peak

/-- Before any operation there is no value. -/
theorem isPeak_nil : IsPeak ([] : List (Operation α)) 0 := by
  refine ⟨⟨[], List.prefix_rfl, rfl⟩, ?_⟩
  intro part hpart
  rw [List.prefix_nil.mp hpart]
  exact Nat.le_refl 0

/-- The peak is raised by an operation that leaves more values than ever. -/
theorem IsPeak.concat {ops : List (Operation α)} {peak : Nat} (h : IsPeak ops peak)
    (op : Operation α) : IsPeak (ops ++ [op]) (max peak (live (ops ++ [op])).length) := by
  obtain ⟨⟨top, htop, hpeak⟩, hmost⟩ := h
  refine ⟨?_, ?_⟩
  · rcases Nat.le_total (live (ops ++ [op])).length peak with hle | hle
    · exact ⟨top, htop.trans (List.prefix_append ops [op]), by rw [hpeak, Nat.max_eq_left hle]⟩
    · exact ⟨ops ++ [op], List.prefix_rfl, (Nat.max_eq_right hle).symm⟩
  · intro part hpart
    rcases List.prefix_concat_iff.mp hpart with rfl | hpart
    · exact Nat.le_max_right _ _
    · exact Nat.le_trans (hmost part hpart) (Nat.le_max_left _ _)

/-- Growing adds one step of slots if all are in use. -/
theorem size_grown (slots : Array (Option α)) (top : Nat) :
    (grown slots top).size = if top = slots.size then slots.size + 16 else slots.size := by
  unfold grown
  split <;> simp [stackGrowth]

/-- Popping keeps the slots and does not raise the top. -/
theorem Holds.capacity_popped (h : s.Holds values) :
    s.popped.2.capacity = s.capacity ∧ s.popped.2.size ≤ s.size := by
  rcases List.eq_nil_or_concat' values with rfl | ⟨init, a, rfl⟩
  · rw [h.popped_nil]
    exact ⟨rfl, Nat.le_refl _⟩
  · rw [h.popped_concat, h.size_eq, List.length_append]
    exact ⟨rfl, Nat.le_add_right _ _⟩

/-- Only a push can need more slots, and it does when all of them are in use. -/
theorem Holds.capacity_perform (h : s.Holds values) {peak : Nat} (hpeak : s.size ≤ peak)
    (hcapacity : s.capacity = 16 * max 1 ((peak + 15) / 16)) (op : Operation α) :
    (s.perform op).capacity = 16 * max 1 ((max peak (s.perform op).size + 15) / 16) := by
  cases op with
  | push a =>
    have hgrown : (s.push a).capacity = if s.size = s.capacity then s.capacity + 16
        else s.capacity := by
      rw [capacity, Stack.push, Array.size_setIfInBounds, size_grown]
      rfl
    have htop : s.size ≤ s.capacity := h.filled.top_le
    have hsize : (s.push a).size = s.size + 1 := rfl
    rw [Stack.perform, hgrown, hsize]
    split <;> omega
  | pop =>
    obtain ⟨hsame, hle⟩ := h.capacity_popped
    rw [Stack.perform, hsame, hcapacity, Nat.max_eq_left (Nat.le_trans hle hpeak)]
  | clear =>
    have hsize : (s.perform .clear).size = 0 := rfl
    rw [hsize, Nat.max_eq_left (Nat.zero_le peak)]
    exact hcapacity

/-- The capacity is that of the most values at once. The induction is on the operations from the
end. -/
theorem exists_peak (ops : List (Operation α)) :
    ∃ peak, IsPeak ops peak ∧ (after ops).capacity = 16 * max 1 ((peak + 15) / 16) := by
  induction ops using List.reverseRecOn with
  | nil => exact ⟨0, isPeak_nil, by simp [after, empty, capacity, stackGrowth]⟩
  | append_singleton ops op ih =>
    obtain ⟨peak, hpeak, hcapacity⟩ := ih
    have hsize : (after ops).size ≤ peak := by
      rw [(holds_after ops).size_eq]
      exact hpeak.2 ops List.prefix_rfl
    have hnext := (holds_after ops).capacity_perform hsize hcapacity op
    rw [← after_concat, (holds_after (ops ++ [op])).size_eq] at hnext
    exact ⟨_, hpeak.concat op, hnext⟩

/-- Whatever is done to a stack that starts empty, it shows the live values from bottom to top and
counts them. A pop answers the last of them, which is the value pushed last of which all that was
pushed later has been popped, and fails exactly if there is none; the stack then stays as it is. In
place every slot that is used is there and holds a value where one is looked for. The capacity is
the least number of whole steps, other than none, for the most values that have been live at
once. -/
theorem lifo_of_operations (ops : List (Operation α)) :
    (after ops).toList = live ops ∧ (after ops).size = (live ops).length ∧
      ((after ops).isEmpty = true ↔ live ops = []) ∧
      (∀ a, (after ops).popped.1 = .ok a ↔ (live ops).getLast? = some a) ∧
      (∀ a, (live ops).getLast? = some a ↔
        ∃ before between, ops = before ++ .push a :: between ∧ Spent between) ∧
      ((after ops).popped = (.error .stackUnderflow, after ops) ↔ live ops = []) ∧
      (after ops).popInPlace = some (after ops).popped ∧
      (∀ a, (after ops).pushInPlace a = some ((after ops).push a)) ∧
      ∃ peak, IsPeak ops peak ∧ (after ops).capacity = 16 * max 1 ((peak + 15) / 16) := by
  have hholds := holds_after ops
  have hempty : (after ops).isEmpty = true ↔ live ops = [] := by
    rw [isEmpty, beq_iff_eq, ← List.length_eq_zero_iff, ← hholds.size_eq]
    rfl
  have hpopped : (∀ a, (after ops).popped.1 = .ok a ↔ (live ops).getLast? = some a) ∧
      ((after ops).popped = (.error .stackUnderflow, after ops) ↔ live ops = []) := by
    rcases List.eq_nil_or_concat' (live ops) with hnil | ⟨init, b, hlive⟩
    · rw [hnil] at hholds ⊢
      simp [hholds.popped_nil]
    · rw [hlive] at hholds ⊢
      simp [hholds.popped_concat]
  exact ⟨hholds.toList_eq, hholds.size_eq, hempty, hpopped.1, fun _ => getLast?_live_eq_some_iff,
    hpopped.2, hholds.popInPlace_eq, hholds.pushInPlace_eq, exists_peak ops⟩

-- The slots of the values that were cleared are used again, and the one of `5` is left as it is.
example : (after [.push 1, .push 2, .clear, .push 3, .push 4, .push 5, .pop, .pop]).toList = [3] ∧
    (after [.push 1, .push 2, .clear, .push 3, .push 4, .push 5, .pop, .pop]).slots.toList.take 3 =
      [some 3, some 4, some 5] := by
  decide +kernel

end Smil.Stack
