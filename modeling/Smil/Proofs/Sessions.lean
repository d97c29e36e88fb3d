import Smil.Proofs.Change
import Smil.Proofs.Runs

/-!
# Sessions on one machine

A session calls a machine any number of times: it binds arguments, asks for variables, takes output,
and runs chunks, which may hold any bytes. Runs share the heap, and a run that fails leaves the
machine to the next call as it stands.

In every state that a session reaches, also in the middle of a run, every handle on the operand
stack, in the table of names and in the part of the evaluation stack that is in use belongs to an
object, and no slot in use is empty. So reading and overwriting objects never misses.
-/

namespace Smil

open Bytecode

/-! ### Slots in use -/

namespace Stack

variable {α : Type}

/-- Every slot below the top holds a value. -/
def Filled (s : Stack α) : Prop :=
  ∀ i < s.top, ∃ a, s.slots[i]? = some (some a)

/-- A new stack has no slot in use. -/
theorem filled_empty : (empty : Stack α).Filled :=
  fun i hi => absurd hi (Nat.not_lt_zero i)

/-- A stack that has been cleared has no slot in use. -/
theorem Filled.clear (s : Stack α) : s.clear.Filled :=
  fun i hi => absurd hi (Nat.not_lt_zero i)

/-- The top is at most behind the last slot. -/
theorem Filled.top_le {s : Stack α} (hs : s.Filled) : s.top ≤ s.slots.size := by
  cases htop : s.top with
  | zero => exact Nat.zero_le _
  | succ top =>
    obtain ⟨a, ha⟩ := hs top (by omega)
    exact (Array.getElem?_eq_some_iff.mp ha).1

/-- Growing keeps every slot and makes room for one more value. -/
theorem lt_size_grown {slots : Array (Option α)} {top : Nat} (h : top ≤ slots.size) :
    top < (grown slots top).size := by
  unfold grown
  split
  · simp [stackGrowth]
    omega
  · omega

/-- A slot that is there stays as it is when others are added. -/
theorem getElem?_grown_of_some {slots : Array (Option α)} {i : Nat} {o : Option α} (top : Nat)
    (h : slots[i]? = some o) : (grown slots top)[i]? = some o := by
  unfold grown
  split
  · rw [Array.getElem?_append_left (Array.getElem?_eq_some_iff.mp h).1]
    exact h
  · exact h

/-- A value that is pushed fills the next slot. -/
theorem Filled.push {s : Stack α} (hs : s.Filled) (a : α) : (s.push a).Filled := by
  intro i hi
  change i < s.top + 1 at hi
  have hroom := lt_size_grown hs.top_le
  by_cases htop : s.top = i
  · subst htop
    exact ⟨a, by simp only [Stack.push, Array.getElem?_setIfInBounds, if_true, hroom]⟩
  · obtain ⟨b, hb⟩ := hs i (by omega)
    refine ⟨b, ?_⟩
    simp only [Stack.push, Array.getElem?_setIfInBounds, htop, if_false]
    exact getElem?_grown_of_some s.top hb

/-- A pop finds a value unless the stack is empty. -/
theorem Filled.top_eq_zero {s : Stack α} (hs : s.Filled) (h : s.pop.1 = none) : s.top = 0 := by
  cases htop : s.top with
  | zero => rfl
  | succ top =>
    obtain ⟨a, ha⟩ := hs top (htop ▸ Nat.lt_succ_self top)
    rw [pop_of_succ htop, ha] at h
    cases h

/-- A pop that finds no value leaves the stack as it is. -/
theorem Filled.pop_of_none {s : Stack α} (hs : s.Filled) (h : s.pop.1 = none) : s.pop.2 = s := by
  rw [pop_of_zero (hs.top_eq_zero h)]

/-- A pop leaves no gap. -/
theorem Filled.pop {s : Stack α} (hs : s.Filled) : s.pop.2.Filled := by
  cases htop : s.top with
  | zero =>
    rw [pop_of_zero htop]
    exact hs
  | succ top =>
    rw [pop_of_succ htop]
    exact fun i hi => hs i (htop ▸ Nat.lt_succ_of_lt hi)

end Stack

/-! ### Intact machines -/

/-- Every handle of the machine belongs to an object, and every slot of the evaluation stack that is
in use holds one. -/
structure Machine.Intact (m : Machine) : Prop where
  valid : m.Valid
  filled : m.stack.Filled

namespace Memory

/-- No instruction leaves a gap in the evaluation stack. -/
theorem Change.filled {m m' : Memory} {i : Instruction} (h : m.Change i m')
    (hm : m.stack.Filled) : m'.stack.Filled := by
  have hpopped : ∀ name h, (m.pop.2.rebind name h).stack.Filled := by
    intro name h
    rw [rebind_eq]
    exact hm.pop
  cases h with
  | load name => exact hm
  | loadNamed _ => exact hm
  | assign mode _ _ => exact hm
  | binary _ _ _ => exact hm
  | length _ => exact hm
  | line _ hline =>
    have hstack : m.stack = m'.stack := congrArg (fun r => r.2.stack) hline
    exact hstack ▸ hm
  | stackPush _ => exact hm.push _
  | stackPop name _ => exact hpopped name _
  | stackPopNamed _ _ => exact hpopped _ _
  | stackClear => exact Stack.Filled.clear m.stack
  | keep _ => exact hm

/-- Without a gap in the evaluation stack a pop that finds nothing changes nothing. -/
theorem eq_of_pop {m m' : Memory} (hm : m.stack.Filled) (h : m.pop = (none, m')) : m' = m := by
  have hnone : m.stack.pop.1 = none := congrArg Prod.fst h
  have hleft : { m with stack := m.stack.pop.2 } = m' := congrArg Prod.snd h
  rw [← hleft, hm.pop_of_none hnone]

end Memory

namespace Machine

variable {m m' : Machine} {chunk : Chunk} {ip : Nat}

/-- A new machine has no handles at all. -/
theorem intact_new (out : Sink) : (new out).Intact :=
  ⟨⟨fun _ hh => absurd hh List.not_mem_nil, Memory.new_valid out⟩, Stack.filled_empty⟩

/-- A machine on which nothing but the operands has been dropped. -/
theorem Intact.start (h : m.Intact) : Intact { m with operands := [] } :=
  ⟨Valid.start (m := m.memory) h.valid.memory, h.filled⟩

/-- The handle of a variable belongs to an object, and asking for it keeps the machine intact. -/
theorem Intact.variableHandle (h : m.Intact) (name : String) :
    (m.variableHandle name).2.Intact ∧
      (m.variableHandle name).2.memory.Owns (m.variableHandle name).1 := by
  obtain ⟨hm', howns, hext⟩ := Memory.variableHandle_valid h.valid.memory name
  exact ⟨⟨Valid.grow (m := m.memory) h.valid hm' hext, h.filled⟩, howns⟩

/-- Overwriting an object keeps the machine intact. -/
theorem Intact.set (h : m.Intact) (handle : Handle) (v : Value) :
    Intact { m with heap := m.heap.set handle v } := by
  obtain ⟨hm', hext⟩ := Memory.store_valid h.valid.memory handle v
  exact ⟨Valid.grow (m := m.memory) h.valid hm' hext, h.filled⟩

/-- Binding arguments keeps the machine intact. -/
theorem Intact.bindFrom (h : m.Intact) (index : Nat) (args : List String) :
    (m.bindFrom index args).Intact := by
  induction args generalizing index m with
  | nil => exact h
  | cons arg args ih => exact ih ((h.variableHandle (inputName index)).1.set _ _) (index + 1)

/-- The first argument is stored in the variable of its index. -/
theorem bindFrom_cons (index : Nat) (arg : String) (args : List String) (m : Machine) :
    bindFrom index (arg :: args) m =
      bindFrom (index + 1) args { (m.variableHandle (inputName index)).2 with
        heap := (m.variableHandle (inputName index)).2.heap.set
          (m.variableHandle (inputName index)).1 (.ofInput arg) } := rfl

/-- Arguments in two parts are bound one part after the other. -/
theorem bindFrom_append (index : Nat) (before after : List String) (m : Machine) :
    bindFrom index (before ++ after) m =
      bindFrom (index + before.length) after (bindFrom index before m) := by
  induction before generalizing index m with
  | nil => rfl
  | cons arg before ih =>
    rw [List.cons_append, bindFrom_cons, bindFrom_cons, ih, List.length_cons, Nat.add_right_comm,
      Nat.add_assoc]

/-- An intact machine, together with a cause that is reported if the step failed. -/
def LeavesIntact : EStateM.Result Cause Machine Progress → Prop
  | .ok _ m => m.Intact
  | .error cause m => m.Intact ∧ cause.Reported

/-- A step keeps the machine intact, whatever the bytes are. -/
theorem Intact.step (h : m.Intact) (chunk : Chunk) (ip : Nat) :
    LeavesIntact (step chunk ip m) := by
  rcases step_cases chunk ip m with ⟨f, hf, hstep⟩ | ⟨i, next, -, hstep⟩
  · rw [hstep]
    exact ⟨h, Or.inr ⟨f, hf, rfl⟩⟩
  · rw [hstep]
    have hleaves := execute_leaves i next h.valid
    have hchanges := execute_changes i next h.valid
    revert hleaves hchanges
    rcases execute i next m with ⟨_ | _, m'⟩ | ⟨cause, m'⟩
    · exact fun hvalid hchange => ⟨hvalid, hchange.filled h.filled⟩
    · intro hvalid hsame
      have hstack : m'.stack = m.stack := congrArg Memory.stack hsame
      exact ⟨hvalid, hstack ▸ h.filled⟩
    · intro hleaves hsame
      have hstack : m'.stack = m.stack := by
        rcases hsame with hsame | hpop | ⟨-, text, hline⟩
        · exact congrArg Memory.stack hsame
        · exact congrArg Memory.stack (Memory.eq_of_pop h.filled hpop)
        · exact (congrArg (fun r => r.2.stack) hline).symm
      exact ⟨⟨hleaves.1, hstack ▸ h.filled⟩, hleaves.2⟩

/-! ### The states of a session -/

/-- What a machine is doing: nothing, or running a chunk at an offset. -/
inductive Activity where
  | idle
  | running (chunk : Chunk) (ip : Nat)

/-- What a machine is doing, and the machine. -/
abbrev Situation := Activity × Machine

/-- What is done with a machine: a call, an instruction that goes on, or the end of a run. -/
inductive Event where
  | bound (inputs : List String)
  | named (name : String)
  | drained
  | started (chunk : Chunk)
  | executed (i : Instruction)
  | stopped (c : Completion)
  | failed (cause : Cause)

/-- `Transition s e s'` says that the event leads from one situation to the other. Asking for a
value and a refused binding change nothing, so they are no events. A run takes its steps one by one
and may have any chunk; it is over when a step stops it or fails. -/
inductive Transition : Situation → Event → Situation → Prop
  | bound {m m' : Machine} (required : Nat) {inputs : List String}
      (hbind : m.bindInputs required inputs = .ok m') :
      Transition (.idle, m) (.bound inputs) (.idle, m')
  | named (m : Machine) (name : String) :
      Transition (.idle, m) (.named name) (.idle, (m.variableHandle name).2)
  | drained (m : Machine) : Transition (.idle, m) .drained (.idle, m.drain.2)
  | started (m : Machine) (chunk : Chunk) :
      Transition (.idle, m) (.started chunk) (.running chunk 0, { m with operands := [] })
  | executed {m m' : Machine} {chunk : Chunk} {ip ip' next : Nat} {i : Instruction}
      (hfetch : Instruction.fetch chunk ip = .ok (i, next))
      (hstep : step chunk ip m = .ok (.goto ip') m') :
      Transition (.running chunk ip, m) (.executed i) (.running chunk ip', m')
  | stopped {m m' : Machine} {chunk : Chunk} {ip : Nat} {c : Completion}
      (hstep : step chunk ip m = .ok (.stop c) m') :
      Transition (.running chunk ip, m) (.stopped c) (.idle, m')
  | failed {m m' : Machine} {chunk : Chunk} {ip : Nat} {cause : Cause}
      (hstep : step chunk ip m = .error cause m') :
      Transition (.running chunk ip, m) (.failed cause) (.idle, m')

/-- Any number of transitions, by events that are allowed where they happen. -/
def Leads (allowed : Situation → Event → Prop) : Situation → Situation → Prop :=
  Relation.ReflTransGen fun s s' => ∃ e, allowed s e ∧ Transition s e s'

/-- The states of a session: those to which transitions lead from a new machine. -/
def Reached (activity : Activity) (m : Machine) : Prop :=
  ∃ out, Leads (fun _ _ => True) (.idle, new out) (activity, m)

variable {s s' : Situation} {e : Event} {allowed allowed' : Situation → Event → Prop}

/-- More events may be allowed. -/
theorem Leads.mono (h : Leads allowed s s') (himp : ∀ s e, allowed s e → allowed' s e) :
    Leads allowed' s s' := by
  refine Relation.ReflTransGen.mono ?_ s s' h
  rintro s s' ⟨e, he, htransition⟩
  exact ⟨e, himp s e he, htransition⟩

/-- No event breaks a machine. -/
theorem Transition.intact (h : Transition s e s') (hs : s.2.Intact) : s'.2.Intact := by
  cases h with
  | bound required hbind =>
    unfold bindInputs at hbind
    split at hbind
    · cases hbind
    · cases hbind
      exact hs.bindFrom 0 _
  | named m name => exact (hs.variableHandle name).1
  | drained m =>
    have hmemory := hs.valid.memory
    exact ⟨⟨hs.valid.operands, hmemory.symbols, hmemory.stack⟩, hs.filled⟩
  | started m chunk => exact hs.start
  | @executed _ _ chunk ip _ _ _ _ hstep =>
    have hleaves := hs.step chunk ip
    rw [hstep] at hleaves
    exact hleaves
  | @stopped _ _ chunk ip _ hstep =>
    have hleaves := hs.step chunk ip
    rw [hstep] at hleaves
    exact hleaves
  | @failed _ _ chunk ip _ hstep =>
    have hleaves := hs.step chunk ip
    rw [hstep] at hleaves
    exact hleaves.1

/-- No sequence of events breaks a machine. -/
theorem Leads.intact (h : Leads allowed s s') (hs : s.2.Intact) : s'.2.Intact := by
  induction h with
  | refl => exact hs
  | tail _ hlast ih =>
    obtain ⟨e, -, htransition⟩ := hlast
    exact htransition.intact ih

/-- A machine is intact whatever has been done with it. -/
theorem Reached.intact {activity : Activity} (h : Reached activity m) : m.Intact := by
  obtain ⟨out, hleads⟩ := h
  exact hleads.intact (intact_new out)

/-- A session starts with a new machine. -/
theorem Reached.new (out : Sink) : Reached .idle (new out) :=
  ⟨out, .refl⟩

/-- A session that goes on. -/
theorem Reached.leads {activity activity' : Activity} (h : Reached activity m)
    (hleads : Leads allowed (activity, m) (activity', m')) : Reached activity' m' := by
  obtain ⟨out, hbefore⟩ := h
  exact ⟨out, hbefore.trans (hleads.mono fun _ _ _ => trivial)⟩

/-- Whether an event belongs to a run. -/
def Event.isOfRun : Event → Bool
  | started _ | executed _ | stopped _ | failed _ => true
  | _ => false

/-- The steps of a run that has begun lead to an idle machine. -/
theorem leads_of_runFrom {budget : Nat} {r : Except Error Completion × Machine}
    (hrun : runFrom chunk budget ip m = some r) :
    Leads (fun _ e => e.isOfRun = true) (.running chunk ip, m) (.idle, r.2) := by
  induction budget generalizing ip m with
  | zero => cases hrun
  | succ budget ih =>
    rw [runFrom] at hrun
    split at hrun
    · rename_i hstep
      rcases step_cases chunk ip m with ⟨f, -, hfault⟩ | ⟨i, next, hfetch, -⟩
      · cases hstep.symm.trans hfault
      · exact .head ⟨.executed i, rfl, .executed hfetch hstep⟩ (ih hrun)
    · rename_i c _ hstep
      cases hrun
      exact .single ⟨.stopped c, rfl, .stopped hstep⟩
    · rename_i cause _ hstep
      cases hrun
      exact .single ⟨.failed cause, rfl, .failed hstep⟩

/-- A call that runs a chunk leads from an idle machine to an idle machine. -/
theorem leads_of_run {budget : Nat} {r : Except Error Completion × Machine}
    (hrun : m.run budget chunk = some r) :
    Leads (fun _ e => e.isOfRun = true) (.idle, m) (.idle, r.2) := by
  unfold Machine.run at hrun
  split at hrun
  · rename_i result last hfrom
    obtain rfl := Option.some.inj hrun
    have hleads := leads_of_runFrom hfrom
    exact .head ⟨.started chunk, rfl, .started m chunk⟩ hleads
  · cases hrun

/-- A name that has a handle has a value. -/
theorem Intact.isSome_valueOf (h : m.Intact) (name : String) :
    (m.valueOf name).isSome = (m.symbols.lookup name).isSome := by
  unfold valueOf
  cases hlookup : m.symbols.lookup name with
  | none => rfl
  | some handle =>
    have howns : m.memory.Owns handle := h.valid.memory.symbols.lookup hlookup
    have hget : m.heap.get? handle = some (m.memory.object handle) := Memory.get?_of_owns howns
    rw [Option.bind_some, hget]
    rfl

/-- The handle through which the argument behind `before` is stored, and the machine at that
time. -/
def bindTarget (m : Machine) (before : List String) : Handle × Machine :=
  (m.bindFrom 0 before).variableHandle (inputName before.length)

/-- Nothing that is done with a machine makes it use a handle that belongs to no object, whatever
chunks are run on it. In every state all its handles belong to objects and no slot in use is empty;
so a known name has a value, arguments are stored in objects that exist, and a step leaves a machine
of this kind, with an error that is not about such a handle if it fails. -/
theorem handles_of_reached {activity : Activity} {m : Machine} (h : Reached activity m) :
    m.Intact ∧
    (∀ name, (m.valueOf name).isSome = (m.symbols.lookup name).isSome) ∧
    (∀ name, (m.variableHandle name).2.heap.contains (m.variableHandle name).1 = true) ∧
    (∀ required before arg after m',
      m.bindInputs required (before ++ arg :: after) = .ok m' →
      (m.bindTarget before).2.heap.contains (m.bindTarget before).1 = true ∧
      m' = bindFrom (before.length + 1) after { (m.bindTarget before).2 with
        heap := (m.bindTarget before).2.heap.set (m.bindTarget before).1 (.ofInput arg) }) ∧
    (∀ chunk ip, LeavesIntact (step chunk ip m) ∧
      ∀ cause m', step chunk ip m = .error cause m' →
        ∀ handle, cause ≠ (Fault.danglingHandle handle).cause) ∧
    ∀ budget chunk result last, activity = .idle → m.run budget chunk = some (result, last) →
      last.Intact := by
  have hintact := h.intact
  refine ⟨hintact, hintact.isSome_valueOf, fun name => (hintact.variableHandle name).2, ?_, ?_, ?_⟩
  · intro required before arg after m' hbind
    refine ⟨((hintact.bindFrom 0 before).variableHandle _).2, ?_⟩
    unfold bindInputs at hbind
    split at hbind
    · cases hbind
    · rw [bindFrom_append, Nat.zero_add, bindFrom_cons] at hbind
      exact (Except.ok.inj hbind).symm
  · intro chunk ip
    have hleaves := hintact.step chunk ip
    refine ⟨hleaves, fun cause m' hstep handle => ?_⟩
    rw [hstep] at hleaves
    exact hleaves.2.ne_dangling handle
  · rintro budget chunk result last rfl hrun
    exact (leads_of_run hrun).intact hintact

/-- Loads a variable, pushes it, and jumps back into the operand of the load, where the bytes name a
variable that the chunk does not have. -/
def jumpIntoOperand : Chunk :=
  ⟨#[0, 0, 0, 14, 20, 0, 5], #[], #["x"]⟩

/-- The run fails in the middle of an instruction. The variable stays on the evaluation stack, and
its handle belongs to an object. -/
theorem handles_of_jumpIntoOperand :
    ∃ last, (new .unlimited).run 4 jumpIntoOperand =
        some (.error (.unplaced (Fault.unknownName 3604).cause), last) ∧
      last.stack.top = 1 ∧ Reached .idle last ∧ last.Intact ∧
      (last.valueOf "x").isSome = (last.symbols.lookup "x").isSome := by
  have hresult : ((new .unlimited).run 4 jumpIntoOperand).map (fun r => (r.1, r.2.stack.top)) =
      some (.error (.unplaced (Fault.unknownName 3604).cause), 1) := by decide +kernel
  obtain ⟨⟨result, last⟩, hrun, heq⟩ := Option.map_eq_some_iff.mp hresult
  obtain ⟨rfl, htop⟩ := Prod.mk.inj heq
  have hreached : Reached .idle last := (Reached.new .unlimited).leads (leads_of_run hrun)
  obtain ⟨hintact, hvalue, -⟩ := handles_of_reached hreached
  exact ⟨last, hrun, htop, hreached, hintact, hvalue "x"⟩

end Machine

end Smil
