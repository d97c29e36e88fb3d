import Smil.Proofs.Memory
import Smil.Proofs.Sequencing

/-!
# What each instruction does

One equation for each instruction, on a machine that has the operands the instruction takes and
whose handles belong to objects: the operands left, the memory left, and how the run goes on.
-/

namespace Smil

open Bytecode

/-- Every handle of the machine belongs to an object, also on the operand stack. -/
structure Machine.Valid (m : Machine) : Prop where
  operands : ∀ h ∈ m.operands, m.memory.Owns h
  memory : m.memory.Valid

namespace Machine.Valid

variable {m m' : Memory} {h : Handle} {operands : List Handle}

/-- The operand on top belongs to an object. -/
theorem head (hv : (m.machine (h :: operands)).Valid) : m.Owns h :=
  hv.operands h List.mem_cons_self

/-- A machine stays valid without its top operand. -/
theorem tail (hv : (m.machine (h :: operands)).Valid) : (m.machine operands).Valid :=
  ⟨fun h' hh' => hv.operands h' (List.mem_cons_of_mem h hh'), hv.memory⟩

/-- A machine stays valid when its memory grows. -/
theorem grow (hv : (m.machine operands).Valid) (hm' : m'.Valid) (hext : m.Extends m') :
    (m'.machine operands).Valid :=
  ⟨fun h hh => (hv.operands h hh).extends hext, hm'⟩

/-- A machine stays valid with one more operand. -/
theorem cons (hv : (m.machine operands).Valid) (hh : m.Owns h) :
    (m.machine (h :: operands)).Valid := by
  refine ⟨fun h' hh' => ?_, hv.memory⟩
  rcases List.mem_cons.mp hh' with rfl | hmem
  · exact hh
  · exact hv.operands h' hmem

/-- Operands that are taken off together belong to objects, and the machine stays valid. -/
theorem of_append {front : List Handle} (hv : (m.machine (front ++ operands)).Valid) :
    (∀ h ∈ front, m.Owns h) ∧ (m.machine operands).Valid :=
  ⟨fun h hh => hv.operands h (List.mem_append_left operands hh),
    fun h hh => hv.operands h (List.mem_append_right front hh), hv.memory⟩

/-- A valid memory without operands. -/
theorem start (hm : m.Valid) : (m.machine []).Valid :=
  ⟨fun _ hh => absurd hh List.not_mem_nil, hm⟩

end Machine.Valid

namespace Memory

open Machine

/-- The outcome of writing a line: the run goes on, or it ends since the sink is full. -/
def afterLine (next : Nat) (operands : List Handle) : Bool × Memory →
    EStateM.Result Cause Machine Progress
  | (true, m) => .ok (.goto next) (m.machine operands)
  | (false, m) => .error (.output Sink.fullDetail) (m.machine operands)

variable {m : Memory} {h h' : Handle} {operands : List Handle}

/-- An object is read through a handle that belongs to it. -/
theorem read_machine (hh : m.Owns h) (operands : List Handle) :
    read h (m.machine operands) = .ok (m.object h) (m.machine operands) := by
  have hget : (get : Action Machine) (m.machine operands) =
    .ok (m.machine operands) (m.machine operands) := rfl
  have hobject : (m.machine operands).heap.get? h = some (m.object h) := get?_of_owns hh
  unfold Machine.read
  rw [bind_of_ok hget, hobject]
  rfl

/-- Several objects are read in order. -/
theorem mapM_read {args : List Handle} (hargs : ∀ h ∈ args, m.Owns h) (operands : List Handle) :
    args.mapM read (m.machine operands) = .ok (args.map m.object) (m.machine operands) := by
  induction args with
  | nil => rfl
  | cons h args ih =>
    rw [List.mapM_cons, bind_of_ok (read_machine (hargs h List.mem_cons_self) operands),
      bind_of_ok (ih fun h' hh' => hargs h' (List.mem_cons_of_mem h hh'))]
    rfl

/-- The text of the object on top. -/
theorem popText_machine (hh : m.Owns h) (operands : List Handle) :
    popText (m.machine (h :: operands)) = .ok (m.object h).toText (m.machine operands) := by
  unfold popText
  have hpop : Machine.pop (m.machine (h :: operands)) = .ok h (m.machine operands) := rfl
  rw [bind_of_ok hpop, bind_of_ok (read_machine hh operands)]
  rfl

/-- A line is written or cut off. -/
theorem writeLine_bind (line : String) (next : Nat) (m : Memory) (operands : List Handle) :
    (do
      Machine.writeLine line
      return Progress.goto next : Action Progress) (m.machine operands) =
        afterLine next operands (m.writeLine line) := by
  change ((if (m.out.write (line ++ "\n").toUTF8).1 then pure () else
    throw (.output Sink.fullDetail) : Action Unit) >>= fun _ => pure (Progress.goto next))
      ((m.writeLine line).2.machine operands) = _
  unfold Memory.writeLine
  cases (m.out.write (line ++ "\n").toUTF8).1 <;> rfl

/-- The handle of the variable is pushed, and a new variable is made. -/
theorem execute_load (name : String) (next : Nat) (m : Memory) (operands : List Handle) :
    execute (.load name) next (m.machine operands) =
      .ok (.goto next)
        ((m.variableHandle name).2.machine ((m.variableHandle name).1 :: operands)) := rfl

/-- The name of the variable is the text of the operand. -/
theorem execute_loadNamed (next : Nat) (hh : m.Owns h) (operands : List Handle) :
    execute .loadNamed next (m.machine (h :: operands)) =
      .ok (.goto next) ((m.variableHandle (m.object h).toText).2.machine
        ((m.variableHandle (m.object h).toText).1 :: operands)) := by
  change (do load (← popText); return Progress.goto next) _ = _
  rw [bind_of_ok (popText_machine hh operands)]
  rfl

/-- The target comes last and stays. -/
theorem execute_assign (mode : AssignMode) (next : Nat) (hsource : m.Owns h) (htarget : m.Owns h')
    (operands : List Handle) :
    execute (.assign mode) next (m.machine (h' :: h :: operands)) =
      .ok (.goto next) ((m.store h' (stored mode (m.object h))).machine (h' :: operands)) := by
  have hstore : Machine.store h' (stored mode (m.object h)) (m.machine operands) =
      .ok () ((m.store h' (stored mode (m.object h))).machine operands) := by
    change (if m.heap.contains h' then _ else _ : Action Unit) (m.machine operands) = _
    rw [if_pos (show m.heap.contains h' = true from htarget)]
    rfl
  have hassign : Machine.assign mode (m.machine (h' :: h :: operands)) =
      .ok () ((m.store h' (stored mode (m.object h))).machine (h' :: operands)) := by
    change (do
      let v ← read h
      Machine.store h' (stored mode v)
      Machine.push h') (m.machine operands) = _
    rw [bind_of_ok (read_machine hsource operands), bind_of_ok hstore]
    rfl
  change (Machine.assign mode >>= fun _ => pure (Progress.goto next)) _ = _
  rw [bind_of_ok hassign]
  rfl

/-- The right side comes last; a new object is created unless the operator fails. -/
theorem execute_binary (op : Operator) (next : Nat) (hleft : m.Owns h) (hright : m.Owns h')
    (operands : List Handle) :
    execute (.binary op) next (m.machine (h' :: h :: operands)) =
      match Value.operate op (m.object h) (m.object h') with
      | .ok v => .ok (.goto next) ((m.create v).2.machine ((m.create v).1 :: operands))
      | .error cause => .error cause (m.machine operands) := by
  have hright' : Machine.pop (m.machine (h' :: h :: operands)) =
    .ok h' (m.machine (h :: operands)) := rfl
  have hleft' : Machine.pop (m.machine (h :: operands)) = .ok h (m.machine operands) := rfl
  change (operate op >>= fun _ => pure (Progress.goto next)) _ = _
  unfold operate
  rw [bind_assoc, bind_of_ok hright', bind_assoc, bind_of_ok hleft', bind_assoc,
    bind_of_ok (read_machine hleft operands), bind_assoc,
    bind_of_ok (read_machine hright operands)]
  cases Value.operate op (m.object h) (m.object h') <;> rfl

/-- The number of characters is put into a new object. -/
theorem execute_length (next : Nat) (hh : m.Owns h) (operands : List Handle) :
    execute .length next (m.machine (h :: operands)) =
      .ok (.goto next) ((m.create (.integer (Int64.ofNat (m.object h).length))).2.machine
        ((m.create (.integer (Int64.ofNat (m.object h).length))).1 :: operands)) := by
  change (do
    let v ← read h
    Machine.create (.integer (Int64.ofNat v.length))
    return Progress.goto next) (m.machine operands) = _
  rw [bind_of_ok (read_machine hh operands)]
  rfl

/-- The arguments of a print, the last of which is on top, make one line. -/
theorem execute_print {args : List Handle} (next : Nat) (hargs : ∀ h ∈ args, m.Owns h)
    (operands : List Handle) :
    execute (.print args.length) next (m.machine (args.reverse ++ operands)) =
      afterLine next operands
        (m.writeLine (" ".intercalate (args.map fun h => (m.object h).toText))) := by
  have hpop : popMany args.length (m.machine (args.reverse ++ operands)) =
      .ok args (m.machine operands) := by
    change (if (args.reverse ++ operands).length < args.length then _ else _ :
      Action (List Handle)) (m.machine (args.reverse ++ operands)) = _
    rw [if_neg (by simp)]
    change EStateM.Result.ok ((args.reverse ++ operands).take args.length).reverse
      (m.machine ((args.reverse ++ operands).drop args.length)) = _
    rw [← List.length_reverse, List.take_left, List.drop_left, List.reverse_reverse]
  change ((do
    let args ← popMany args.length
    let values ← args.mapM read
    Machine.writeLine (" ".intercalate (values.map Value.toText))) >>= fun _ =>
      pure (Progress.goto next)) (m.machine (args.reverse ++ operands)) = _
  rw [bind_assoc, bind_of_ok hpop, bind_assoc, bind_of_ok (mapM_read hargs operands),
    List.map_map]
  exact writeLine_bind _ next m operands

/-- The operand is greeted by its text. -/
theorem execute_hello (next : Nat) (hh : m.Owns h) (operands : List Handle) :
    execute .hello next (m.machine (h :: operands)) =
      afterLine next operands (m.writeLine ("Hello, " ++ (m.object h).toText ++ "!")) := by
  change (popText >>= fun name => do
    Machine.writeLine ("Hello, " ++ name ++ "!")
    return Progress.goto next) (m.machine (h :: operands)) = _
  rw [bind_of_ok (popText_machine hh operands)]
  exact writeLine_bind _ next m operands

/-- Without inputs the world is greeted. -/
theorem execute_helloWorld (next : Nat) (m : Memory) (operands : List Handle) :
    execute .helloWorld next (m.machine operands) =
      afterLine next operands (m.writeLine "Hello, world!") :=
  writeLine_bind _ next m operands

/-- The operand is moved to the evaluation stack. -/
theorem execute_stackPush (next : Nat) (m : Memory) (h : Handle) (operands : List Handle) :
    execute .stackPush next (m.machine (h :: operands)) =
      .ok (.goto next) ((m.push h).machine operands) := rfl

/-- The outcome of popping the evaluation stack into a variable. -/
def afterPop (name : String) (next : Nat) (m : Memory) (operands : List Handle) :
    EStateM.Result Cause Machine Progress :=
  match m.pop.1 with
  | some h => .ok (.goto next) ((m.pop.2.rebind name h).machine (h :: operands))
  | none => .error .stackUnderflow (m.pop.2.machine operands)

/-- A name is rebound in the memory, and the handle is pushed. -/
theorem rebind_machine (name : String) (h : Handle) (m : Memory) (operands : List Handle) :
    Machine.rebind name h (m.machine operands) =
      .ok () ((m.rebind name h).machine (h :: operands)) := by
  have hmodify : ∀ f : Machine → Machine, (modify f : Action PUnit) (m.machine operands) =
    .ok () (f (m.machine operands)) := fun _ => rfl
  unfold Machine.rebind Memory.rebind
  rw [bind_of_ok (hmodify _)]
  dsimp only [Memory.machine]
  rcases m.symbols.update name h with ⟨_ | _, symbols⟩ <;> rfl

/-- Popping the evaluation stack of a machine. -/
theorem popStack_machine (m : Memory) (operands : List Handle) :
    popStack (m.machine operands) =
      match m.pop.1 with
      | some h => .ok h (m.pop.2.machine operands)
      | none => .error .stackUnderflow (m.pop.2.machine operands) := by
  have hpop : (modifyGet fun m => (m.stack.pop.1, { m with stack := m.stack.pop.2 }) :
      Action (Option Handle)) (m.machine operands) =
        .ok m.pop.1 (m.pop.2.machine operands) := rfl
  unfold popStack
  rw [bind_of_ok hpop]
  cases m.pop.1 <;> rfl

/-- Popping the evaluation stack and rebinding a name, one after the other. -/
theorem popStack_bind (name : String) (next : Nat) (m : Memory) (operands : List Handle) :
    (do
      Machine.rebind name (← popStack)
      return Progress.goto next : Action Progress) (m.machine operands) =
        afterPop name next m operands := by
  have hpop := popStack_machine m operands
  unfold afterPop
  cases hpopped : m.pop.1 with
  | none =>
    rw [hpopped] at hpop
    exact bind_of_error hpop
  | some h =>
    rw [hpopped] at hpop
    rw [bind_of_ok hpop, bind_of_ok (rebind_machine name h m.pop.2 operands)]
    rfl

/-- The name into which the stack is popped is in the code. -/
theorem execute_stackPop (name : String) (next : Nat) (m : Memory) (operands : List Handle) :
    execute (.stackPop name) next (m.machine operands) = afterPop name next m operands :=
  popStack_bind name next m operands

/-- The name into which the stack is popped is the text of the operand. -/
theorem execute_stackPopNamed (next : Nat) (hh : m.Owns h) (operands : List Handle) :
    execute .stackPopNamed next (m.machine (h :: operands)) =
      afterPop (m.object h).toText next m operands := by
  change (popText >>= fun name => do
    Machine.rebind name (← popStack)
    return Progress.goto next) (m.machine (h :: operands)) = _
  rw [bind_of_ok (popText_machine hh operands)]
  exact popStack_bind _ next m operands

/-- The evaluation stack is emptied. -/
theorem execute_stackClear (next : Nat) (m : Memory) (operands : List Handle) :
    execute .stackClear next (m.machine operands) = .ok (.goto next) (m.clear.machine operands) :=
  rfl

/-- The operand is dropped. -/
theorem execute_pop (next : Nat) (m : Memory) (h : Handle) (operands : List Handle) :
    execute .pop next (m.machine (h :: operands)) = .ok (.goto next) (m.machine operands) := rfl

/-- The jump is taken unless the operand is positive. -/
theorem execute_jumpIfNotPositive (distance next : Nat) (hh : m.Owns h) (operands : List Handle) :
    execute (.jumpIfNotPositive distance) next (m.machine (h :: operands)) =
      .ok (.goto (if (m.object h).toInteger ≤ 0 then next + distance else next))
        (m.machine operands) := by
  change (do
    let v ← read h
    return Progress.goto (if v.toInteger ≤ 0 then next + distance else next))
      (m.machine operands) = _
  rw [bind_of_ok (read_machine hh operands)]
  rfl

/-- The jump backwards is taken if it does not lead before the start. -/
theorem execute_loop {distance next : Nat} (h : distance ≤ next) (m : Machine) :
    execute (.loop distance) next m = .ok (.goto (next - distance)) m := by
  change (if distance ≤ next then _ else _ : Action Progress) m = _
  rw [if_pos h]
  rfl

end Memory

end Smil
