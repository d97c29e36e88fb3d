import Smil.Proofs.Sessions

/-!
# A failing instruction has no lasting effect

An instruction can fail for want of an operand, of a name, of an object on the evaluation stack or
of room on the sink, and because an operator has no result. It may have taken operands by then, but
these do not outlive the run. What does outlive it is as it was before the instruction, except that
a line for which there is no room is written in part. So a session goes on after a failed run with
exactly what the completed instructions of this run have done.
-/

namespace Smil

open Bytecode

namespace Stack

variable {α : Type}

/-- A pop is refused on an empty stack only, since no slot in use is empty. -/
theorem Filled.size_eq_zero {s : Stack α} (hs : s.Filled) (h : s.pop? = none) : s.size = 0 :=
  hs.top_eq_zero (Option.map_eq_none_iff.mp h)

end Stack

namespace Sink

/-- A write adds to what has been written, whether there is room or not. -/
theorem exists_written_write (s : Sink) (bytes : ByteArray) :
    ∃ added, (s.write bytes).2.written = s.written ++ added := by
  unfold write
  split
  · exact ⟨bytes, rfl⟩
  · split
    · exact ⟨bytes, rfl⟩
    · exact ⟨_, rfl⟩

end Sink

namespace Machine

variable {m m' : Machine} {chunk : Chunk} {ip : Nat} {cause : Cause}

/-! ### Failing steps -/

/-- What a failure keeps: objects, names and evaluation stack. It keeps the output too unless the
cause is the output itself, which may have grown. -/
structure Spared (cause : Cause) (m m' : Machine) : Prop where
  heap : m'.heap = m.heap
  symbols : m'.symbols = m.symbols
  stack : m'.stack = m.stack
  out : m'.out = m.out ∨ (∃ detail, cause = .output detail) ∧
    ∃ added, m'.out.written = m.out.written ++ added

/-- Where all of the memory is the same, everything is spared. -/
theorem spared_of_memory (h : m'.memory = m.memory) : Spared cause m m' :=
  ⟨congrArg Memory.heap h, congrArg Memory.symbols h, congrArg Memory.stack h,
    Or.inl (congrArg Memory.out h)⟩

/-- A line that is cut off touches the output only. -/
theorem spared_of_writeLine {text : String} {detail : String}
    (h : m.memory.writeLine text = (false, m'.memory)) : Spared (.output detail) m m' := by
  have hmemory : m'.memory = (m.memory.writeLine text).2 := congrArg Prod.snd h.symm
  refine ⟨congrArg Memory.heap hmemory, congrArg Memory.symbols hmemory,
    congrArg Memory.stack hmemory, Or.inr ⟨⟨detail, rfl⟩, ?_⟩⟩
  obtain ⟨added, hadded⟩ := m.out.exists_written_write (text ++ "\n").toUTF8
  refine ⟨added, ?_⟩
  rw [← hadded]
  exact congrArg (fun memory => memory.out.written) hmemory

/-- A step that fails spares what outlives the run, whatever the bytes are. -/
theorem Intact.spared_of_step (h : m.Intact) (hstep : Machine.step chunk ip m = .error cause m') :
    Spared cause m m' := by
  rcases step_cases chunk ip m with ⟨f, -, hfault⟩ | ⟨i, next, -, hexecute⟩
  · cases hstep.symm.trans hfault
    exact spared_of_memory rfl
  · have hchanges := execute_changes i next h.valid
    rw [← hexecute, hstep] at hchanges
    rcases hchanges with hsame | hpop | ⟨rfl, text, hline⟩
    · exact spared_of_memory hsame
    · exact spared_of_memory (Memory.eq_of_pop h.filled hpop)
    · exact spared_of_writeLine hline

/-- A step that stops the run changes nothing that outlives it. -/
theorem Intact.memory_of_stop {c : Completion} (h : m.Intact)
    (hstep : Machine.step chunk ip m = .ok (.stop c) m') : m'.memory = m.memory := by
  rcases step_cases chunk ip m with ⟨f, -, hfault⟩ | ⟨i, next, -, hexecute⟩
  · cases hstep.symm.trans hfault
  · have hchanges := execute_changes i next h.valid
    rw [← hexecute, hstep] at hchanges
    exact hchanges

/-! ### Failed runs -/

/-- The steps of a run keep the machine intact. -/
theorem Intact.steps {a b : Nat × Machine} (h : a.2.Intact) (hsteps : Steps chunk a b) :
    b.2.Intact := by
  induction hsteps with
  | refl => exact h
  | @tail b c _ hstep ih =>
    have hleaves := ih.step chunk b.1
    rw [show Machine.step chunk b.1 b.2 = .ok (.goto c.1) c.2 from hstep] at hleaves
    exact hleaves

/-- A run that ends has gone on for some steps, and one more step has stopped it or failed. -/
theorem exists_last_step {budget : Nat} {result : Except Error Completion}
    (h : runFrom chunk budget ip m = some (result, m')) :
    ∃ ip' before, Steps chunk (ip, m) (ip', before) ∧
      ((∃ c, result = .ok c ∧ step chunk ip' before = .ok (.stop c) m') ∨
        ∃ cause, result = .error ⟨cause, chunk.spans[ip']?, none⟩ ∧
          step chunk ip' before = .error cause m') := by
  induction budget generalizing ip m with
  | zero => cases h
  | succ budget ih =>
    rw [runFrom] at h
    split at h
    · rename_i next after hstep
      have hfirst : Step chunk (ip, m) (next, after) := hstep
      obtain ⟨ip', before, hsteps, hlast⟩ := ih h
      exact ⟨ip', before, hsteps.head hfirst, hlast⟩
    · rename_i c last hstep
      cases h
      exact ⟨ip, m, .refl, Or.inl ⟨c, rfl, hstep⟩⟩
    · rename_i cause last hstep
      cases h
      exact ⟨ip, m, .refl, Or.inr ⟨cause, rfl, hstep⟩⟩

/-- A run fails at a step that fails, or it has completed and the flush behind it fails. -/
theorem exists_last_step_of_run {budget : Nat} {e : Error}
    (h : m.run budget chunk = some (.error e, m')) :
    ∃ ip before, Steps chunk (0, { m with operands := [] }) (ip, before) ∧
      ((step chunk ip before = .error e.cause m' ∧ e.span = chunk.spans[ip]?) ∨
        (∃ c, step chunk ip before = .ok (.stop c) m') ∧
          e = .unplaced (.output Sink.flushDetail)) := by
  unfold run at h
  split at h
  · rename_i result last hrun
    obtain ⟨hflushed, rfl⟩ := Prod.mk.inj (Option.some.inj h)
    obtain ⟨ip, before, hsteps, ⟨c, rfl, hstep⟩ | ⟨cause, rfl, hstep⟩⟩ := exists_last_step hrun
    · refine ⟨ip, before, hsteps, Or.inr ⟨⟨c, hstep⟩, ?_⟩⟩
      simp only [flushed] at hflushed
      split at hflushed
      · exact (Except.error.inj hflushed).symm
      · cases hflushed
    · cases hflushed
      exact ⟨ip, before, hsteps, Or.inl ⟨hstep, rfl⟩⟩
  · cases h

/-- Unless the output failed, all that outlives the run is as it was. -/
theorem Spared.memory_eq (h : Spared cause m m') (hcause : ∀ detail, cause ≠ .output detail) :
    m'.memory = m.memory := by
  rcases h.out with hout | ⟨⟨detail, heq⟩, -⟩
  · simp only [memory, h.heap, h.symbols, h.stack, hout]
  · exact absurd heq (hcause detail)

/-- What is spared has the values that it had. -/
theorem Spared.valueOf_eq (h : Spared cause m m') (name : String) :
    m'.valueOf name = m.valueOf name := by
  simp only [valueOf, h.heap, h.symbols]

/-- A run starts without operands, so machines with the same memory run alike. -/
theorem run_of_memory_eq (h : m'.memory = m.memory) (budget : Nat) (chunk : Chunk) :
    m'.run budget chunk = m.run budget chunk := by
  have hstart : { m' with operands := [] } = { m with operands := [] } :=
    congrArg (fun memory => memory.machine []) h
  unfold run
  rw [hstart]

/-- A failing instruction has no lasting effect. In every state that a session reaches a step that
fails, at any offset of any chunk, leaves objects, names and evaluation stack as they were, and the
output as well unless the output is the cause; and a pop is refused on an empty stack only. So after
a failed run the variables and the stack hold what the completed instructions have done: the run has
gone on for some steps, and what it leaves is what was there after the last of them. Unless the
output was the cause, later runs cannot tell the two apart. -/
theorem spared_of_failure {activity : Activity} {m : Machine} (h : Reached activity m) :
    (∀ chunk ip cause m', step chunk ip m = .error cause m' → Spared cause m m') ∧
    (m.stack.pop? = none → m.stack.size = 0) ∧
    ∀ budget chunk e last, m.run budget chunk = some (.error e, last) →
      ∃ ip before, Steps chunk (0, { m with operands := [] }) (ip, before) ∧
        ((step chunk ip before = .error e.cause last ∧ e.span = chunk.spans[ip]?) ∨
          (∃ c, step chunk ip before = .ok (.stop c) last) ∧
            e = .unplaced (.output Sink.flushDetail)) ∧
        Spared e.cause before last ∧ (∀ name, last.valueOf name = before.valueOf name) ∧
        ((∀ detail, e.cause ≠ .output detail) →
          ∀ budget chunk, last.run budget chunk = before.run budget chunk) := by
  have hintact := h.intact
  refine ⟨?_, hintact.filled.size_eq_zero, ?_⟩
  · intro chunk ip cause m' hstep
    exact hintact.spared_of_step hstep
  · intro budget chunk e last hrun
    obtain ⟨ip, before, hsteps, hlast⟩ := exists_last_step_of_run hrun
    have hbefore : before.Intact := hintact.start.steps hsteps
    have hspared : Spared e.cause before last := by
      rcases hlast with ⟨hstep, -⟩ | ⟨⟨c, hstep⟩, -⟩
      · exact hbefore.spared_of_step hstep
      · exact spared_of_memory (hbefore.memory_of_stop hstep)
    refine ⟨ip, before, hsteps, hlast, hspared, hspared.valueOf_eq, ?_⟩
    intro hcause
    exact run_of_memory_eq (hspared.memory_eq hcause)

/-- Puts a variable on the evaluation stack and greets the world twice. -/
def pushThenGreet : Chunk :=
  ⟨#[Opcode.load.toByte, 0, 0, Opcode.stackPush.toByte, Opcode.helloWorld.toByte,
    Opcode.helloWorld.toByte], #[], #["x"]⟩

/-- On a sink with room for twenty bytes the second greeting is cut off. The variable and the stack
are those after the first greeting. -/
theorem spared_of_cutGreeting : ∃ last ip before, (new (.limited 20)).run 4 pushThenGreet =
      some (.error (.unplaced (.output Sink.fullDetail)), last) ∧
    last.stack.top = 1 ∧ last.out.written.size = 20 ∧
    step pushThenGreet ip before = .error (.output Sink.fullDetail) last ∧
    Spared (.output Sink.fullDetail) before last ∧ last.valueOf "x" = before.valueOf "x" := by
  have hresult : ((new (.limited 20)).run 4 pushThenGreet).map
      (fun r => (r.1, r.2.stack.top, r.2.out.written.size)) =
        some (.error (.unplaced (.output Sink.fullDetail)), 1, 20) := by decide +kernel
  obtain ⟨⟨result, last⟩, hrun, heq⟩ := Option.map_eq_some_iff.mp hresult
  obtain ⟨rfl, hrest⟩ := Prod.mk.inj heq
  obtain ⟨htop, hsize⟩ := Prod.mk.inj hrest
  obtain ⟨-, -, hruns⟩ := spared_of_failure (Reached.new (.limited 20))
  obtain ⟨ip, before, -, hlast, hspared, hvalue, -⟩ := hruns _ _ _ _ hrun
  rcases hlast with ⟨hstep, -⟩ | ⟨-, hflush⟩
  · exact ⟨last, ip, before, hrun, htop, hsize, hstep, hspared, hvalue "x"⟩
  · exact absurd hflush (by decide)

end Machine

end Smil
