import Smil.Proofs.Effect

/-!
# What an instruction changes

Bytecode can be anything: an instruction may lack its operands, or its bytes may be no instruction
at all. On a machine whose handles belong to objects a step still does one of a few things. If it
goes on, it has done to the memory what its instruction is for; if it ends the run, it has changed
nothing; and if it fails, it has changed nothing but the operand stack, except that a line for which
the sink has no room is written in part.

What a step keeps follows from this list by cases, without a look at the machine's code.
-/

namespace Smil

open Bytecode

/-! ### Causes that a step reports -/

/-- Whether a fault is a handle that belongs to no object. -/
def Fault.isDangling : Fault → Bool
  | danglingHandle _ => true
  | _ => false

/-- A cause that lies in the program, or in bytecode that misuses the machine otherwise than by a
handle that belongs to no object. -/
def Cause.Reported (cause : Cause) : Prop :=
  cause.isRaised = true ∨ ∃ f : Fault, f.isDangling = false ∧ cause = f.cause

/-- Texts that differ at the start differ. -/
theorem append_ne_append {a b : String} (k : Nat) (ha : k ≤ a.toList.length)
    (hb : k ≤ b.toList.length) (h : a.toList.take k ≠ b.toList.take k) (s t : String) :
    a ++ s ≠ b ++ t := by
  intro heq
  have hlists := congrArg (fun u => u.toList.take k) heq
  simp only [String.toList_append, List.take_append_of_le_length ha,
    List.take_append_of_le_length hb] at hlists
  exact h hlists

/-- A handle that belongs to no object has a wording of its own. -/
theorem Fault.message_ne {f : Fault} (hf : f.isDangling = false) (h : Nat) :
    f.message ≠ (danglingHandle h).message := by
  cases f with
  | danglingHandle h => cases hf
  | invalidOpcode b => exact append_ne_append 4 (by decide) (by decide) (by decide) _ _
  | invalidMode b => exact append_ne_append 4 (by decide) (by decide) (by decide) _ _
  | unknownName index => exact append_ne_append 4 (by decide) (by decide) (by decide) _ _
  | pastEnd | operandUnderflow | missingArguments | jumpBeforeStart =>
    rw [← String.append_empty (s := Fault.message _)]
    exact append_ne_append 4 (by decide) (by decide) (by decide) _ _

/-- What a step reports is never a handle that belongs to no object. -/
theorem Cause.Reported.ne_dangling {cause : Cause} (hcause : cause.Reported) (h : Nat) :
    cause ≠ (Fault.danglingHandle h).cause := by
  rcases hcause with hraised | ⟨f, hf, rfl⟩
  · rintro rfl
    cases hraised
  · intro heq
    exact Fault.message_ne hf h (Cause.runtime.inj heq)

/-! ### What an instruction does to the memory -/

namespace Instruction

/-- Whether an instruction that goes on has written a line. -/
def writesLine : Instruction → Bool
  | print _ | hello | helloWorld => true
  | _ => false

/-- Whether an instruction only moves operands or chooses where to go on. -/
def keepsMemory : Instruction → Bool
  | pop | jumpIfNotPositive _ | loop _ => true
  | _ => false

end Instruction

/-- `Change m i m'` says that an instruction which goes on can lead from one memory to the other. -/
inductive Memory.Change (m : Memory) : Instruction → Memory → Prop
  | load (name : String) : Change m (.load name) (m.variableHandle name).2
  | loadNamed {h : Handle} (hh : m.Owns h) :
      Change m .loadNamed (m.variableHandle (m.object h).toText).2
  | assign (mode : AssignMode) {target source : Handle} (htarget : m.Owns target)
      (hsource : m.Owns source) :
      Change m (.assign mode) (m.store target (Machine.stored mode (m.object source)))
  | binary {op : Operator} {left right : Handle} {v : Value} (hleft : m.Owns left)
      (hright : m.Owns right) (hv : Value.operate op (m.object left) (m.object right) = .ok v) :
      Change m (.binary op) (m.create v).2
  | length {h : Handle} (hh : m.Owns h) :
      Change m .length (m.create (.integer (Int64.ofNat (m.object h).length))).2
  | line {i : Instruction} (hi : i.writesLine = true) {text : String} {m' : Memory}
      (hline : m.writeLine text = (true, m')) : Change m i m'
  | stackPush {h : Handle} (hh : m.Owns h) : Change m .stackPush (m.push h)
  | stackPop (name : String) {h : Handle} (hpop : m.pop.1 = some h) :
      Change m (.stackPop name) (m.pop.2.rebind name h)
  | stackPopNamed {named : Handle} (hnamed : m.Owns named) {h : Handle}
      (hpop : m.pop.1 = some h) :
      Change m .stackPopNamed (m.pop.2.rebind (m.object named).toText h)
  | stackClear : Change m .stackClear m.clear
  | keep {i : Instruction} (hi : i.keepsMemory = true) : Change m i m

namespace Machine

/-- What the memory can be after an instruction. -/
def Changes (i : Instruction) (m : Memory) : EStateM.Result Cause Machine Progress → Prop
  | .ok (.goto _) m' => m.Change i m'.memory
  | .ok (.stop _) m' => m'.memory = m
  | .error cause m' => m'.memory = m ∨ m.pop = (none, m'.memory) ∨
      cause = .output Sink.fullDetail ∧ ∃ text, m.writeLine text = (false, m'.memory)

variable {i : Instruction} {next : Nat}

/-- An instruction that lacks an operand fails. It may have taken those that were there. -/
theorem execute_of_few {m : Machine} (h : m.operands.length < i.pops) :
    ∃ (f : Fault) (operands : List Handle), f.isDangling = false ∧ operands <:+ m.operands ∧
      execute i next m = .error f.cause { m with operands } := by
  obtain ⟨operands, memory, rfl⟩ : ∃ operands memory, m = Memory.machine memory operands :=
    ⟨m.operands, m.memory, rfl⟩
  change operands.length < i.pops at h
  cases i with
  | load _ | helloWorld | stackPop _ | stackClear | loop _ | exit _ | finish =>
    exact absurd h (Nat.not_lt_zero _)
  | loadNamed | length | hello | stackPush | stackPopNamed | pop | jumpIfNotPositive _ =>
    obtain rfl := List.length_eq_zero_iff.mp (Nat.lt_one_iff.mp h)
    exact ⟨.operandUnderflow, [], rfl, List.suffix_refl _, rfl⟩
  | assign _ | binary _ =>
    rcases operands with _ | ⟨a, _ | ⟨b, rest⟩⟩
    · exact ⟨.operandUnderflow, [], rfl, List.suffix_refl _, rfl⟩
    · exact ⟨.operandUnderflow, [], rfl, List.nil_suffix, rfl⟩
    · exact absurd h (by simp [Instruction.pops])
  | print count =>
    change operands.length < count at h
    refine ⟨.missingArguments, operands, rfl, List.suffix_refl _, ?_⟩
    have hpop : popMany count (memory.machine operands) =
        .error Fault.missingArguments.cause (memory.machine operands) := by
      change (if operands.length < count then _ else _ : Action (List Handle))
        (memory.machine operands) = _
      rw [if_pos h]
      rfl
    change (print count >>= fun _ => pure (Progress.goto next)) (memory.machine operands) = _
    exact bind_of_error (bind_of_error hpop)

/-- A line that is written or cut off. -/
theorem Changes.line {m : Memory} (hi : i.writesLine = true) (operands : List Handle)
    (text : String) : Changes i m (Memory.afterLine next operands (m.writeLine text)) := by
  rcases hline : m.writeLine text with ⟨_ | _, m'⟩
  · exact Or.inr (Or.inr ⟨rfl, text, hline⟩)
  · exact Memory.Change.line hi hline

/-- Popping the evaluation stack into a variable fails if there is nothing to pop. -/
theorem Changes.popped {m : Memory} (name : String) (operands : List Handle)
    (h : ∀ {popped}, m.pop.1 = some popped → m.Change i (m.pop.2.rebind name popped)) :
    Changes i m (Memory.afterPop name next m operands) := by
  unfold Memory.afterPop
  cases hpop : m.pop.1 with
  | none => exact Or.inr (Or.inl (Prod.ext hpop rfl))
  | some popped => exact h hpop

/-- An instruction on a valid machine changes the memory as it is meant to, or not at all. -/
theorem execute_changes (i : Instruction) (next : Nat) {m : Machine} (hv : m.Valid) :
    Changes i m.memory (execute i next m) := by
  rcases Nat.lt_or_ge m.operands.length i.pops with hfew | hpops
  · obtain ⟨f, operands, -, -, hexec⟩ := execute_of_few hfew
    rw [hexec]
    exact Or.inl rfl
  obtain ⟨operands, memory, rfl⟩ : ∃ operands memory, m = Memory.machine memory operands :=
    ⟨m.operands, m.memory, rfl⟩
  change i.pops ≤ operands.length at hpops
  change Changes i memory _
  cases i with
  | load name => exact .load name
  | loadNamed =>
    obtain ⟨h, operands, rfl⟩ := exists_one hpops
    rw [Memory.execute_loadNamed next hv.head]
    exact .loadNamed hv.head
  | assign mode =>
    obtain ⟨target, source, operands, rfl⟩ := exists_two hpops
    rw [Memory.execute_assign mode next hv.tail.head hv.head]
    exact .assign mode hv.head hv.tail.head
  | binary op =>
    obtain ⟨right, left, operands, rfl⟩ := exists_two hpops
    rw [Memory.execute_binary op next hv.tail.head hv.head]
    rcases hop : Value.operate op (memory.object left) (memory.object right) with cause | v
    · exact Or.inl rfl
    · exact .binary hv.tail.head hv.head hop
  | length =>
    obtain ⟨h, operands, rfl⟩ := exists_one hpops
    rw [Memory.execute_length next hv.head]
    exact .length hv.head
  | print count =>
    obtain ⟨args, rest, rfl, rfl⟩ := exists_many hpops
    obtain ⟨hargs, -⟩ := hv.of_append
    rw [Memory.execute_print next fun h hh => hargs h (List.mem_reverse.mpr hh)]
    exact Changes.line rfl rest _
  | hello =>
    obtain ⟨h, operands, rfl⟩ := exists_one hpops
    rw [Memory.execute_hello next hv.head]
    exact Changes.line rfl operands _
  | helloWorld =>
    rw [Memory.execute_helloWorld]
    exact Changes.line rfl operands _
  | stackPush =>
    obtain ⟨h, operands, rfl⟩ := exists_one hpops
    exact .stackPush hv.head
  | stackPop name =>
    rw [Memory.execute_stackPop]
    exact Changes.popped name operands (.stackPop name)
  | stackPopNamed =>
    obtain ⟨h, operands, rfl⟩ := exists_one hpops
    rw [Memory.execute_stackPopNamed next hv.head]
    exact Changes.popped _ operands (.stackPopNamed hv.head)
  | stackClear => exact .stackClear
  | pop =>
    obtain ⟨h, operands, rfl⟩ := exists_one hpops
    exact .keep rfl
  | jumpIfNotPositive distance =>
    obtain ⟨h, operands, rfl⟩ := exists_one hpops
    rw [Memory.execute_jumpIfNotPositive distance next hv.head]
    exact .keep rfl
  | loop distance =>
    change Changes _ _ ((if distance ≤ next then _ else _ : Action Progress) _)
    by_cases hback : distance ≤ next
    · rw [if_pos hback]
      exact .keep rfl
    · rw [if_neg hback]
      exact Or.inl rfl
  | exit code => rfl
  | finish => rfl

/-! ### What a step leaves -/

/-- A valid machine, together with a cause that is reported if the step failed. -/
def Leaves : EStateM.Result Cause Machine Progress → Prop
  | .ok _ m => m.Valid
  | .error cause m => m.Valid ∧ cause.Reported

/-- An instruction leaves a valid machine valid, whether it has its operands or not. -/
theorem execute_leaves (i : Instruction) (next : Nat) {m : Machine} (hv : m.Valid) :
    Leaves (execute i next m) := by
  rcases Nat.lt_or_ge m.operands.length i.pops with hfew | hpops
  · obtain ⟨f, operands, hf, hsuffix, hexec⟩ := execute_of_few hfew
    rw [hexec]
    exact ⟨⟨fun h hh => hv.operands h (hsuffix.subset hh), hv.memory⟩, Or.inr ⟨f, hf, rfl⟩⟩
  · by_cases hback : ∀ distance, i = .loop distance → distance ≤ next
    · have houtcome := execute_outcome hv hpops hback
      revert houtcome
      rcases execute i next m with ⟨_ | _, m'⟩ | ⟨cause, m'⟩
      · exact fun h => h.2.1
      · exact fun h => h.2 ▸ hv
      · exact fun h => ⟨h.2, Or.inl h.1⟩
    · obtain ⟨distance, rfl, hfar⟩ : ∃ distance, i = .loop distance ∧ ¬ distance ≤ next := by
        simpa using hback
      change Leaves ((if distance ≤ next then _ else _ : Action Progress) m)
      rw [if_neg hfar]
      exact ⟨hv, Or.inr ⟨.jumpBeforeStart, rfl, rfl⟩⟩

end Machine

namespace Instruction

variable {α β : Type}

/-- Reading bytes fails in no other way than the bytes give cause for. -/
def ReadsBytes (x : Except Fault α) : Prop :=
  ∀ f, x = .error f → f.isDangling = false

/-- What reads nothing fails in no way. -/
theorem ReadsBytes.pure (a : α) : ReadsBytes (pure a) := by
  intro f h
  cases h

/-- Two readings in a row fail as one of them does. -/
theorem ReadsBytes.bind {x : Except Fault α} {g : α → Except Fault β} (hx : ReadsBytes x)
    (hg : ∀ a, ReadsBytes (g a)) : ReadsBytes (x >>= g) := by
  cases x with
  | ok a => exact hg a
  | error f =>
    intro f' h
    cases h
    exact hx f rfl

/-- A byte may be beyond the end. -/
theorem readsBytes_byteAt (c : Chunk) (offset : Nat) : ReadsBytes (byteAt c offset) := by
  intro f h
  unfold byteAt at h
  split at h
  · cases h
  · cases h
    rfl

/-- One of the two bytes of a word may be beyond the end. -/
theorem readsBytes_wordAt (c : Chunk) (offset : Nat) : ReadsBytes (wordAt c offset) :=
  (readsBytes_byteAt c offset).bind fun _ =>
    (readsBytes_byteAt c (offset + 1)).bind fun _ => .pure _

/-- A name may have an index that is not in the table. -/
theorem readsBytes_nameAt (c : Chunk) (offset : Nat) : ReadsBytes (nameAt c offset) := by
  refine (readsBytes_wordAt c offset).bind fun index f h => ?_
  split at h
  · cases h
  · cases h
    rfl

/-- A byte may be no opcode. -/
theorem readsBytes_opcodeAt (c : Chunk) (offset : Nat) : ReadsBytes (opcodeAt c offset) := by
  refine (readsBytes_byteAt c offset).bind fun b f h => ?_
  split at h
  · cases h
  · cases h
    rfl

/-- A byte may be no mode. -/
theorem readsBytes_modeAt (c : Chunk) (offset : Nat) : ReadsBytes (modeAt c offset) := by
  refine (readsBytes_byteAt c offset).bind fun b f h => ?_
  split at h
  · cases h
  · cases h
    rfl

/-- Reading an instruction does not touch the heap. -/
theorem readsBytes_fetch (c : Chunk) (ip : Nat) : ReadsBytes (fetch c ip) := by
  refine (readsBytes_opcodeAt c ip).bind fun op => ?_
  cases op with
  | load | stackPop => exact (readsBytes_nameAt c (ip + 1)).bind fun _ => .pure _
  | assign => exact (readsBytes_modeAt c (ip + 1)).bind fun _ => .pure _
  | print | jumpIfNotPositive | loop => exact (readsBytes_wordAt c (ip + 1)).bind fun _ => .pure _
  | exit => exact (readsBytes_byteAt c (ip + 1)).bind fun _ => .pure _
  | _ => exact .pure _

end Instruction

namespace Machine

/-- A step fails to read its instruction and changes nothing, or it carries the instruction out. -/
theorem step_cases (chunk : Chunk) (ip : Nat) (m : Machine) :
    (∃ f : Fault, f.isDangling = false ∧ step chunk ip m = .error f.cause m) ∨
      ∃ i next, Instruction.fetch chunk ip = .ok (i, next) ∧
        step chunk ip m = execute i next m := by
  unfold step
  cases hfetch : Instruction.fetch chunk ip with
  | error f => exact Or.inl ⟨f, Instruction.readsBytes_fetch chunk ip f hfetch, rfl⟩
  | ok r => exact Or.inr ⟨r.1, r.2, rfl, rfl⟩

end Machine

end Smil
