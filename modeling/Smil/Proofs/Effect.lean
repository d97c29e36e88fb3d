import Smil.Proofs.Execution

/-!
# What an instruction needs and leaves

Each instruction takes a fixed number of operands and leaves a fixed number, whatever the objects
behind them are, and goes on at one of at most two offsets. On a valid machine with enough
operands it never misuses the machine: it fails only for a reason that lies in the program itself.
-/

namespace Smil

open Bytecode

/-- Whether a program itself can be the reason of a failing step, rather than its encoding. -/
def Cause.isRaised : Cause → Bool
  | invalidOperation .. | divisionByZero | stackUnderflow | textTooLarge | output _ => true
  | _ => false

namespace Value

/-- Integers fail to be divided by zero only. -/
theorem isRaised_of_integers {op : Operator} {a b : Int64} {cause : Cause}
    (h : integers op a b = .error cause) : cause.isRaised = true := by
  cases op <;> simp only [integers, reduceCtorEq] at h
  all_goals
    split at h
    · cases h
      rfl
    · cases h

/-- A text and an integer fail as integers do, since the result is too large, or since the operator
has no meaning for them. -/
theorem isRaised_of_textAndInteger {op : Operator} {s : String} {n : Int64}
    {invalid cause : Cause} (hinvalid : invalid.isRaised = true)
    (h : textAndInteger op s n invalid = .error cause) : cause.isRaised = true := by
  cases op <;> simp only [textAndInteger, repeated, divided, rotated, reduceCtorEq,
    Except.error.injEq] at h
  case add | and | or => exact h ▸ hinvalid
  all_goals
    repeat' split at h
    all_goals
      cases h
      try rfl

/-- Values with a text on one side fail for one of these reasons too. -/
theorem isRaised_of_texts {op : Operator} {a b : Value} {cause : Cause}
    (h : texts op a b = .error cause) : cause.isRaised = true := by
  unfold texts at h
  split at h
  · unfold joined at h
    split at h <;> cases h
    rfl
  · split at h
    · split at h <;> cases h
      rfl
    · exact isRaised_of_textAndInteger rfl h
    · exact isRaised_of_textAndInteger rfl h
    · cases h
      rfl

/-- An operator that fails gives a reason that lies in the program. -/
theorem isRaised_of_operate {op : Operator} {a b : Value} {cause : Cause}
    (h : operate op a b = .error cause) : cause.isRaised = true := by
  unfold operate at h
  split at h
  · rename_i m n
    cases hintegers : integers op m n with
    | ok v => simp [hintegers, Except.map] at h
    | error e =>
      rw [hintegers] at h
      cases h
      exact isRaised_of_integers hintegers
  · cases htexts : texts op a b with
    | ok v => simp [htexts, Except.map] at h
    | error e =>
      rw [htexts] at h
      cases h
      exact isRaised_of_texts htexts

end Value

namespace Instruction

/-- The number of operands that an instruction takes. -/
def pops : Instruction → Nat
  | load _ | helloWorld | stackPop _ | stackClear | loop _ | exit _ | finish => 0
  | loadNamed | length | hello | stackPush | stackPopNamed | pop | jumpIfNotPositive _ => 1
  | assign _ | binary _ => 2
  | print count => count

/-- The number of operands that an instruction leaves in their place. -/
def pushes : Instruction → Nat
  | load _ | loadNamed | assign _ | binary _ | length | stackPop _ | stackPopNamed => 1
  | _ => 0

/-- The offsets at which a run may go on; `next` is the offset behind the instruction. -/
def targets (next : Nat) : Instruction → List Nat
  | jumpIfNotPositive distance => [next, next + distance]
  | loop distance => [next - distance]
  | exit _ | finish => []
  | _ => [next]

end Instruction

namespace Machine

/-- The outcomes of an instruction that has what it needs: the run goes on with the operands that
the instruction leaves, it stops with nothing changed at an instruction that leads nowhere, or it
fails for a reason that lies in the program. -/
def Outcome (i : Instruction) (next : Nat) (m : Machine) : EStateM.Result Cause Machine Progress →
    Prop
  | .ok (.goto ip) m' => ip ∈ i.targets next ∧ m'.Valid ∧
      m'.operands.length + i.pops = m.operands.length + i.pushes
  | .ok (.stop _) m' => i.targets next = [] ∧ m' = m
  | .error cause m' => cause.isRaised = true ∧ m'.Valid

variable {i : Instruction} {next : Nat} {m : Memory} {operands : List Handle}

/-- An instruction that ends by writing a line. -/
theorem Outcome.line (taken : List Handle) (hnext : next ∈ i.targets next)
    (hpushes : i.pushes = 0) (hpops : taken.length = i.pops) (hv : (m.machine operands).Valid)
    (line : String) :
    Outcome i next (m.machine (taken ++ operands))
      (Memory.afterLine next operands (m.writeLine line)) := by
  have hm : m.Valid := hv.memory
  have hv' := hv.grow (Memory.writeLine_valid hm line).1 (Memory.writeLine_valid hm line).2
  have hlength : operands.length + i.pops = (taken ++ operands).length + i.pushes := by
    rw [List.length_append]
    omega
  rcases hline : m.writeLine line with ⟨_ | _, m'⟩ <;> rw [hline] at hv'
  · exact ⟨rfl, hv'⟩
  · exact ⟨hnext, hv', hlength⟩

/-- An instruction that ends by popping the evaluation stack into a variable. -/
theorem Outcome.popped (taken : List Handle) (hnext : next ∈ i.targets next)
    (hpushes : i.pushes = 1) (hpops : taken.length = i.pops) (hv : (m.machine operands).Valid)
    (name : String) :
    Outcome i next (m.machine (taken ++ operands)) (Memory.afterPop name next m operands) := by
  have hlength : operands.length + 1 + i.pops = (taken ++ operands).length + i.pushes := by
    rw [List.length_append]
    omega
  obtain ⟨hm', hpopped, hext⟩ := Memory.pop_valid (m := m) hv.memory
  unfold Memory.afterPop
  cases hpop : m.pop.1 with
  | none => exact ⟨rfl, hv.grow hm' hext⟩
  | some h =>
    have howns := hpopped h hpop
    obtain ⟨hm'', hext'⟩ := Memory.rebind_valid hm' name howns
    exact ⟨hnext, ((hv.grow hm' hext).grow hm'' hext').cons (howns.extends hext'), hlength⟩

/-- An operand on top of the others. -/
theorem exists_one (h : 1 ≤ operands.length) : ∃ a rest, operands = a :: rest :=
  List.exists_cons_of_length_pos h

/-- Two operands on top of the others. -/
theorem exists_two (h : 2 ≤ operands.length) : ∃ a b rest, operands = a :: b :: rest := by
  obtain ⟨a, tail, rfl⟩ := exists_one (Nat.le_of_succ_le h)
  obtain ⟨b, rest, rfl⟩ := exists_one (Nat.le_of_succ_le_succ h)
  exact ⟨a, b, rest, rfl⟩

/-- Several operands on top of the others, in the order in which they were pushed. -/
theorem exists_many {count : Nat} (h : count ≤ operands.length) :
    ∃ args rest : List Handle, operands = args.reverse ++ rest ∧ args.length = count := by
  refine ⟨(operands.take count).reverse, operands.drop count, ?_, ?_⟩
  · rw [List.reverse_reverse, List.take_append_drop]
  · rw [List.length_reverse, List.length_take]
    exact Nat.min_eq_left h

/-- An instruction has one of these outcomes on every valid machine that has its operands, unless
it jumps back before the start. -/
theorem execute_outcome {m : Machine} (hv : m.Valid) (hpops : i.pops ≤ m.operands.length)
    (hback : ∀ distance, i = .loop distance → distance ≤ next) :
    Outcome i next m (execute i next m) := by
  obtain ⟨operands, memory, rfl⟩ : ∃ operands memory, m = Memory.machine memory operands :=
    ⟨m.operands, m.memory, rfl⟩
  change i.pops ≤ operands.length at hpops
  have hm : memory.Valid := hv.memory
  cases i with
  | load name =>
    obtain ⟨hm', howns, hext⟩ := Memory.variableHandle_valid hm name
    rw [Memory.execute_load]
    exact ⟨List.mem_singleton_self _, (hv.grow hm' hext).cons howns, rfl⟩
  | loadNamed =>
    obtain ⟨h, operands, rfl⟩ := exists_one hpops
    obtain ⟨hm', howns, hext⟩ := Memory.variableHandle_valid hm (memory.object h).toText
    rw [Memory.execute_loadNamed next hv.head]
    exact ⟨List.mem_singleton_self _, (hv.tail.grow hm' hext).cons howns, rfl⟩
  | assign mode =>
    obtain ⟨target, source, operands, rfl⟩ := exists_two hpops
    obtain ⟨hm', hext⟩ := Memory.store_valid hm target (stored mode (memory.object source))
    rw [Memory.execute_assign mode next hv.tail.head hv.head]
    exact ⟨List.mem_singleton_self _, (hv.tail.tail.grow hm' hext).cons (hv.head.extends hext),
      rfl⟩
  | binary op =>
    obtain ⟨right, left, operands, rfl⟩ := exists_two hpops
    rw [Memory.execute_binary op next hv.tail.head hv.head]
    rcases hop : Value.operate op (memory.object left) (memory.object right) with cause | v
    · exact ⟨Value.isRaised_of_operate hop, hv.tail.tail⟩
    · obtain ⟨hm', howns, hext⟩ := Memory.create_valid hm v
      exact ⟨List.mem_singleton_self _, (hv.tail.tail.grow hm' hext).cons howns, rfl⟩
  | length =>
    obtain ⟨h, operands, rfl⟩ := exists_one hpops
    obtain ⟨hm', howns, hext⟩ :=
      Memory.create_valid hm (.integer (Int64.ofNat (memory.object h).length))
    rw [Memory.execute_length next hv.head]
    exact ⟨List.mem_singleton_self _, (hv.tail.grow hm' hext).cons howns, rfl⟩
  | print count =>
    obtain ⟨args, rest, rfl, rfl⟩ := exists_many hpops
    obtain ⟨hargs, hrest⟩ := hv.of_append
    rw [Memory.execute_print next fun h hh => hargs h (List.mem_reverse.mpr hh)]
    exact Outcome.line args.reverse (List.mem_singleton_self _) rfl List.length_reverse hrest _
  | hello =>
    obtain ⟨h, operands, rfl⟩ := exists_one hpops
    rw [Memory.execute_hello next hv.head]
    exact Outcome.line [h] (List.mem_singleton_self _) rfl rfl hv.tail _
  | helloWorld =>
    rw [Memory.execute_helloWorld]
    exact Outcome.line [] (List.mem_singleton_self _) rfl rfl hv _
  | stackPush =>
    obtain ⟨h, operands, rfl⟩ := exists_one hpops
    obtain ⟨hm', hext⟩ := Memory.push_valid hm hv.head
    rw [Memory.execute_stackPush]
    exact ⟨List.mem_singleton_self _, hv.tail.grow hm' hext, rfl⟩
  | stackPop name =>
    rw [Memory.execute_stackPop]
    exact Outcome.popped [] (List.mem_singleton_self _) rfl rfl hv _
  | stackPopNamed =>
    obtain ⟨h, operands, rfl⟩ := exists_one hpops
    rw [Memory.execute_stackPopNamed next hv.head]
    exact Outcome.popped [h] (List.mem_singleton_self _) rfl rfl hv.tail _
  | stackClear =>
    obtain ⟨hm', hext⟩ := Memory.clear_valid hm
    rw [Memory.execute_stackClear]
    exact ⟨List.mem_singleton_self _, hv.grow hm' hext, rfl⟩
  | pop =>
    obtain ⟨h, operands, rfl⟩ := exists_one hpops
    rw [Memory.execute_pop]
    exact ⟨List.mem_singleton_self _, hv.tail, rfl⟩
  | jumpIfNotPositive distance =>
    obtain ⟨h, operands, rfl⟩ := exists_one hpops
    rw [Memory.execute_jumpIfNotPositive distance next hv.head]
    refine ⟨?_, hv.tail, rfl⟩
    by_cases hpositive : (memory.object h).toInteger ≤ 0
    · rw [if_pos hpositive]
      exact List.mem_cons_of_mem next (List.mem_singleton_self _)
    · rw [if_neg hpositive]
      exact List.mem_cons_self
  | loop distance =>
    rw [Memory.execute_loop (hback distance rfl)]
    exact ⟨List.mem_singleton_self _, hv, rfl⟩
  | exit code => exact ⟨rfl, rfl⟩
  | finish => exact ⟨rfl, rfl⟩

end Machine

end Smil
