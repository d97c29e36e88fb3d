import Smil.Proofs.Evaluator
import Smil.Proofs.Generation
import Smil.Proofs.Runs

/-!
# Compiled programs do what their trees say

The machine on the code of a tree follows the evaluation of the tree: it reaches the end of the code
with the result on the operand stack, or it ends as the evaluation does. Where the evaluation runs
out of fuel, a loop has taken as many rounds as there was fuel, and each of them cost the machine at
least one step; so the machine is not done with a budget of that size either. This makes the two
agree on programs that never end.
-/

namespace Smil.Eval

open Bytecode Assembly Codegen Machine

/-- What the machine does from `start` on, given what an evaluation did. After a result `a` it is at
the offset `ip a` with the operands `operands a`. -/
def Follows {α : Type} (chunk : Chunk) (fuel : Nat) (start : Nat × Machine) (ip : α → Nat)
    (operands : α → List Handle) : EStateM.Result Halt Memory α → Prop
  | .ok a m => Steps chunk start (ip a, m.machine (operands a)) ∧ (m.machine (operands a)).Valid
  | .error (.exit code) m => Ends chunk start (.ok (.exit code)) m
  | .error (.failed e) m => Ends chunk start (.error e) m
  | .error .unfinished _ => runFrom chunk fuel start.1 start.2 = none

section Rules

variable {α β : Type} {chunk : Chunk} {fuel : Nat} {start : Nat × Machine} {ip : α → Nat}
  {operands : α → List Handle} {ip' : β → Nat} {operands' : β → List Handle}

/-- Steps in front of what the machine does. -/
theorem Follows.of_steps {start' : Nat × Machine} {r : EStateM.Result Halt Memory α}
    (hsteps : Steps chunk start' start) (h : Follows chunk fuel start ip operands r) :
    Follows chunk fuel start' ip operands r := by
  match r, h with
  | .ok a m, h => exact ⟨hsteps.trans h.1, h.2⟩
  | .error (.exit code) m, h => exact Ends.of_steps hsteps h
  | .error (.failed e) m, h => exact Ends.of_steps hsteps h
  | .error .unfinished m, h => exact runFrom_eq_none_of_steps hsteps h

/-- Evaluations in sequence are followed one after the other. The second may rely on how the first
ended. -/
theorem Follows.bind_of_eq {x : Evaluation α} {f : α → Evaluation β} {m : Memory}
    (hx : Follows chunk fuel start ip operands (x m))
    (hf : ∀ a m', x m = .ok a m' → (m'.machine (operands a)).Valid →
      Follows chunk fuel (ip a, m'.machine (operands a)) ip' operands' (f a m')) :
    Follows chunk fuel start ip' operands' ((x >>= f) m) := by
  cases hr : x m with
  | ok a m' =>
    rw [hr] at hx
    rw [bind_of_ok hr]
    exact (hf a m' hr hx.2).of_steps hx.1
  | error halt m' =>
    rw [hr] at hx
    rw [bind_of_error hr]
    cases halt <;> exact hx

/-- Evaluations in sequence are followed one after the other. -/
theorem Follows.bind {x : Evaluation α} {f : α → Evaluation β} {m : Memory}
    (hx : Follows chunk fuel start ip operands (x m))
    (hf : ∀ a m', (m'.machine (operands a)).Valid →
      Follows chunk fuel (ip a, m'.machine (operands a)) ip' operands' (f a m')) :
    Follows chunk fuel start ip' operands' ((x >>= f) m) :=
  hx.bind_of_eq fun a m' _ hvalid => hf a m' hvalid

/-- Less fuel asks for less. -/
theorem Follows.weaken {fuel' : Nat} {r : EStateM.Result Halt Memory α}
    (h : Follows chunk fuel start ip operands r) (hle : fuel' ≤ fuel) :
    Follows chunk fuel' start ip operands r := by
  match r, h with
  | .ok a m, h => exact h
  | .error (.exit code) m, h => exact h
  | .error (.failed e) m, h => exact h
  | .error .unfinished m, h => exact runFrom_eq_none h hle

/-- A step in front makes room for one more unit of fuel. -/
theorem Follows.of_step {start' : Nat × Machine} {r : EStateM.Result Halt Memory α}
    (hstep : Step chunk start' start) (h : Follows chunk fuel start ip operands r) :
    Follows chunk (fuel + 1) start' ip operands r := by
  match r, h with
  | .ok a m, h => exact ⟨.head hstep h.1, h.2⟩
  | .error (.exit code) m, h => exact Ends.of_steps (.single hstep) h
  | .error (.failed e) m, h => exact Ends.of_steps (.single hstep) h
  | .error .unfinished m, h => exact (hstep.runFrom fuel).trans h

/-- An evaluation that takes no step. -/
theorem Follows.result {offset : Nat} {left : List Handle} {a : α} {m : Memory}
    (hip : offset = ip a) (hoperands : left = operands a) (hvalid : (m.machine left).Valid) :
    Follows chunk fuel (offset, m.machine left) ip operands (.ok a m) := by
  subst hip hoperands
  exact ⟨.refl, hvalid⟩

/-- An evaluation that one instruction carries out. -/
theorem Follows.instruction {offset : Nat} {l : Line} {before : Machine} {a : α} {m : Memory}
    (hcode : Holds chunk offset [l])
    (hexec : execute l.instruction (offset + l.instruction.size) before =
      .ok (.goto (ip a)) (m.machine (operands a)))
    (hvalid : (m.machine (operands a)).Valid) :
    Follows chunk fuel (offset, before) ip operands (.ok a m) :=
  ⟨.single ((step_of_holds hcode before).trans hexec), hvalid⟩

/-- An evaluation that fails where one instruction fails. -/
theorem Follows.failure {offset : Nat} {l : Line} {before after : Machine} {cause : Cause}
    (hcode : Holds chunk offset [l])
    (hexec : execute l.instruction (offset + l.instruction.size) before = .error cause after) :
    Follows chunk fuel (offset, before) ip operands
      (.error (.failed (.placed cause l.span)) after.memory) :=
  ends_of_error hcode hexec

end Rules

/-! ### Values -/

section Values

variable {chunk : Chunk} {m : Memory} {operands : List Handle} {ip : Nat} {span : Span}

/-- A line that is written or cut off. -/
theorem writeLine_follows {l : Line} {before : Machine} {line : String} (fuel : Nat)
    (hcode : Holds chunk ip [l])
    (hexec : execute l.instruction (ip + l.instruction.size) before =
      Memory.afterLine (ip + l.instruction.size) operands (m.writeLine line))
    (hvalid : (m.machine operands).Valid) :
    Follows chunk fuel (ip, before) (fun _ => ip + l.instruction.size) (fun _ => operands)
      (writeLine line l.span m) := by
  obtain ⟨hm', hext⟩ := Memory.writeLine_valid (m := m) hvalid.memory line
  have heq : writeLine line l.span m =
      (if (m.writeLine line).1 then pure () else fail (.output Sink.fullDetail) l.span)
        (m.writeLine line).2 := rfl
  rw [heq]
  rcases hw : m.writeLine line with ⟨_ | _, m'⟩
  · rw [hw] at hexec
    exact Follows.failure hcode hexec
  · rw [hw] at hexec hm' hext
    exact Follows.instruction hcode hexec (hvalid.grow hm' hext)

/-- A variable is loaded. -/
theorem load_follows (fuel : Nat) {name : String} (hcode : Holds chunk ip [⟨.load name, span⟩])
    (hvalid : (m.machine operands).Valid) :
    Follows chunk fuel (ip, m.machine operands) (fun _ => ip + 3) (· :: operands)
      (variableHandle name m) := by
  obtain ⟨hm', hh, hext⟩ := Memory.variableHandle_valid (m := m) hvalid.memory name
  exact Follows.instruction hcode rfl ((hvalid.grow hm' hext).cons hh)

/-- Popping into a variable fails on an empty stack and otherwise rebinds the name. -/
theorem popInto_eq (name : String) (span : Span) (m : Memory) :
    popInto name span m =
      match m.pop.1 with
      | some h => .ok h (m.pop.2.rebind name h)
      | none => .error (.failed (.placed .stackUnderflow span)) m.pop.2 := by
  have hpop : (modifyGet Memory.pop : Evaluation (Option Handle)) m = .ok m.pop.1 m.pop.2 := rfl
  unfold popInto
  rw [bind_of_ok hpop]
  cases m.pop.1 <;> rfl

/-- The evaluation stack is popped into a variable, or it is empty. -/
theorem popInto_follows {l : Line} {before : Machine} {name : String} (fuel : Nat)
    (hcode : Holds chunk ip [l])
    (hexec : execute l.instruction (ip + l.instruction.size) before =
      Memory.afterPop name (ip + l.instruction.size) m operands)
    (hvalid : (m.machine operands).Valid) :
    Follows chunk fuel (ip, before) (fun _ => ip + l.instruction.size) (· :: operands)
      (popInto name l.span m) := by
  unfold Memory.afterPop at hexec
  rw [popInto_eq]
  cases hpop : m.pop.1 with
  | none =>
    rw [hpop] at hexec
    exact Follows.failure hcode hexec
  | some h =>
    rw [hpop] at hexec
    obtain ⟨hm', hpopped, hext⟩ := Memory.pop_valid (m := m) hvalid.memory
    have hh := hpopped h hpop
    obtain ⟨hm'', hext'⟩ := Memory.rebind_valid hm' name hh
    have hvalid' := (hvalid.grow hm' hext).grow hm'' hext'
    exact Follows.instruction hcode hexec (hvalid'.cons (hh.extends hext'))

/-- The mode of an assignment is chosen by the two inverted sides. -/
theorem stored_assignMode (target source : Expr) (v : Value) :
    stored (assignMode target source) v = assigned target.isInverted source.isInverted v := by
  unfold assignMode assigned
  cases target.isInverted <;> cases source.isInverted <;> rfl

/-- The machine follows the evaluation of a value and leaves its handle on the operand stack. -/
theorem value_follows {e : Expr} (he : Evaluable e) (fuel : Nat)
    (hcode : Holds chunk ip (valueCode e)) (hvalid : (m.machine operands).Valid) :
    Follows chunk fuel (ip, m.machine operands) (fun _ => ip + size (valueCode e))
      (· :: operands) (value e m) := by
  induction he generalizing ip m operands with
  | input index span => exact load_follows fuel hcode hvalid
  | var name inverted span => exact load_follows fuel hcode hvalid
  | namedVar span hname ih =>
    rw [valueCode] at hcode ⊢
    obtain ⟨hfirst, hlast⟩ := holds_append.mp hcode
    rw [size_append, ← Nat.add_assoc]
    refine (ih hfirst hvalid).bind fun h m hvalid => ?_
    obtain ⟨hm', hh, hext⟩ :=
      Memory.variableHandle_valid (m := m) hvalid.memory (m.object h).toText
    exact Follows.instruction hlast (Memory.execute_loadNamed _ hvalid.head operands)
      ((hvalid.tail.grow hm' hext).cons hh)
  | @assign target source span _ _ ihSource ihTarget =>
    rw [valueCode] at hcode ⊢
    obtain ⟨hfirst, hcode⟩ := holds_append.mp hcode
    obtain ⟨hsecond, hlast⟩ := holds_append.mp hcode
    rw [size_append, size_append, ← Nat.add_assoc, ← Nat.add_assoc]
    refine (ihSource hfirst hvalid).bind fun s m hvalid => ?_
    refine (ihTarget hsecond hvalid).bind fun t m hvalid => ?_
    have hexec := Memory.execute_assign (assignMode target source)
      (ip + size (valueCode source) + size (valueCode target) + 2) hvalid.tail.head hvalid.head
      operands
    rw [stored_assignMode] at hexec
    obtain ⟨hm', hext⟩ := Memory.store_valid (m := m) hvalid.memory t
      (assigned target.isInverted source.isInverted (m.object s))
    exact Follows.instruction hlast hexec
      ((hvalid.tail.tail.grow hm' hext).cons (hvalid.head.extends hext))
  | @binary left right op span _ _ ihLeft ihRight =>
    rw [valueCode] at hcode ⊢
    obtain ⟨hfirst, hcode⟩ := holds_append.mp hcode
    obtain ⟨hsecond, hlast⟩ := holds_append.mp hcode
    rw [size_append, size_append, ← Nat.add_assoc, ← Nat.add_assoc]
    refine (ihLeft hfirst hvalid).bind fun a m hvalid => ?_
    refine (ihRight hsecond hvalid).bind fun b m hvalid => ?_
    have hexec := Memory.execute_binary op
      (ip + size (valueCode left) + size (valueCode right) + 1) hvalid.tail.head hvalid.head
      operands
    have hobject : ∀ h, object h m = .ok (m.object h) m := fun _ => rfl
    rw [bind_of_ok (hobject a), bind_of_ok (hobject b)]
    cases hvalue : Value.operate op (m.object a) (m.object b) with
    | ok v =>
      rw [hvalue] at hexec
      obtain ⟨hm', hh, hext⟩ := Memory.create_valid (m := m) hvalid.memory v
      exact Follows.instruction hlast hexec ((hvalid.tail.tail.grow hm' hext).cons hh)
    | error cause =>
      rw [hvalue] at hexec
      exact Follows.failure hlast hexec
  | popVar name inverted inner span =>
    exact popInto_follows fuel hcode (Memory.execute_stackPop name _ m operands) hvalid
  | popNamed inner span hname ih =>
    rw [valueCode] at hcode ⊢
    obtain ⟨hfirst, hlast⟩ := holds_append.mp hcode
    rw [size_append, ← Nat.add_assoc]
    refine (ih hfirst hvalid).bind fun h m hvalid => ?_
    exact popInto_follows fuel hlast (Memory.execute_stackPopNamed _ hvalid.head operands)
      hvalid.tail
  | lengthOf span hoperand ih =>
    rw [valueCode] at hcode ⊢
    obtain ⟨hfirst, hlast⟩ := holds_append.mp hcode
    rw [size_append, ← Nat.add_assoc]
    refine (ih hfirst hvalid).bind fun h m hvalid => ?_
    obtain ⟨hm', hh, hext⟩ := Memory.create_valid (m := m) hvalid.memory
      (.integer (Int64.ofNat (m.object h).length))
    exact Follows.instruction hlast (Memory.execute_length _ hvalid.head operands)
      ((hvalid.tail.grow hm' hext).cons hh)

/-- The machine follows the evaluation of several values and leaves the last on top. -/
theorem values_follows {es : List Expr} (hes : ∀ e ∈ es, Evaluable e) (fuel : Nat)
    (hcode : Holds chunk ip (valuesCode es)) (hvalid : (m.machine operands).Valid) :
    Follows chunk fuel (ip, m.machine operands) (fun _ => ip + size (valuesCode es))
      (fun handles => handles.reverse ++ operands) (values es m) := by
  induction es generalizing ip m operands with
  | nil => exact ⟨.refl, hvalid⟩
  | cons e es ih =>
    rw [valuesCode] at hcode ⊢
    obtain ⟨hfirst, hrest⟩ := holds_append.mp hcode
    rw [size_append, ← Nat.add_assoc]
    refine (value_follows (hes e List.mem_cons_self) fuel hfirst hvalid).bind
      fun h m hvalid => ?_
    refine (ih (fun e' he' => hes e' (List.mem_cons_of_mem e he')) hrest hvalid).bind
      fun handles m hvalid => ?_
    exact Follows.result rfl (by simp) hvalid

/-- Each value has a handle. -/
theorem length_values {es : List Expr} {m m' : Memory} {handles : List Handle}
    (h : values es m = .ok handles m') : handles.length = es.length := by
  induction es generalizing m handles with
  | nil =>
    cases h
    rfl
  | cons e es ih =>
    obtain ⟨first, m₁, _, h⟩ := ok_of_bind h
    obtain ⟨rest, m₂, hrest, h⟩ := ok_of_bind h
    cases h
    rw [List.length_cons, List.length_cons, ih hrest]

/-- A condition and the jump behind it lead to one of two places. -/
theorem isPositive_follows {e : Expr} (he : Evaluable e) (fuel distance : Nat)
    (hcode : Holds chunk ip (valueCode e))
    (hjump : Holds chunk (ip + size (valueCode e)) [⟨.jumpIfNotPositive distance, span⟩])
    (hvalid : (m.machine operands).Valid) :
    Follows chunk fuel (ip, m.machine operands)
      (fun positive => ip + size (valueCode e) + 3 + if positive then 0 else distance)
      (fun _ => operands) (isPositive e m) := by
  refine (value_follows he fuel hcode hvalid).bind fun h m hvalid => ?_
  change Follows _ _ _ _ _ (.ok (decide (0 < (m.object h).toInteger)) m)
  refine Follows.instruction hjump ?_ hvalid.tail
  rw [Memory.execute_jumpIfNotPositive _ _ hvalid.head]
  by_cases hpositive : 0 < (m.object h).toInteger
  · have hnot : ¬ (m.object h).toInteger ≤ 0 := Int64.not_le.mpr hpositive
    simp [hpositive, hnot, Instruction.size]
  · have hle : (m.object h).toInteger ≤ 0 := Int64.not_lt.mp hpositive
    simp [hpositive, hle, Instruction.size]

end Values

/-! ### Loops -/

section Loops

variable {chunk : Chunk} {operands : List Handle} {start middle fuel : Nat} {next : Bool → Nat}
  {condition : Evaluation Bool} {body : Evaluation Unit}

/-- The machine follows the rounds of a loop. The body leads from `start` to `middle` and the
condition from there to one of two places. Where it holds, one more step leads back to `start`. -/
theorem repeatWhile_follows
    (hbody : ∀ m : Memory, (m.machine operands).Valid →
      Follows chunk fuel (start, m.machine operands) (fun _ => middle) (fun _ => operands) (body m))
    (hcondition : ∀ m : Memory, (m.machine operands).Valid →
      Follows chunk fuel (middle, m.machine operands) next (fun _ => operands) (condition m))
    (hback : ∀ m : Memory, Step chunk (next true, m.machine operands) (start, m.machine operands))
    {rounds : Nat} (hrounds : rounds ≤ fuel) {m : Memory} (hvalid : (m.machine operands).Valid) :
    Follows chunk rounds (start, m.machine operands) (fun _ => next false) (fun _ => operands)
      (repeatWhile condition body rounds m) := by
  -- Each round has a step of its own, the one back, so rounds bound steps from below.
  induction rounds generalizing m with
  | zero => rfl
  | succ rounds ih =>
    refine ((hbody m hvalid).weaken hrounds).bind fun _ m hvalid => ?_
    refine ((hcondition m hvalid).weaken hrounds).bind fun positive m hvalid => ?_
    cases positive with
    | true => exact (ih (Nat.le_of_succ_le hrounds) hvalid).of_step (hback m)
    | false => exact Follows.result rfl rfl hvalid

end Loops

/-! ### Statements -/

section Statements

variable {chunk : Chunk} {inputCount fuel : Nat} {operands : List Handle}

/-- The machine follows an evaluation on the given code, wherever the code stands. -/
def FollowsCode (chunk : Chunk) (fuel : Nat) (operands : List Handle) (code : List Line)
    (x : Evaluation Unit) : Prop :=
  ∀ (ip : Nat) (m : Memory), Holds chunk ip code → (m.machine operands).Valid →
    Follows chunk fuel (ip, m.machine operands) (fun _ => ip + size code) (fun _ => operands) (x m)

/-- Statements are followed one after the other. -/
theorem statements_follows_of_forall {stmts : List Expr}
    (h : ∀ stmt ∈ stmts, FollowsCode chunk fuel operands (statementCode inputCount stmt)
      (statement inputCount fuel stmt)) :
    FollowsCode chunk fuel operands (statementsCode inputCount stmts)
      (statements inputCount fuel stmts) := by
  induction stmts with
  | nil =>
    intro ip m _ hvalid
    rw [statements, statementsCode]
    exact Follows.result rfl rfl hvalid
  | cons stmt stmts ih =>
    intro ip m hcode hvalid
    rw [statementsCode] at hcode ⊢
    rw [statements, size_append, ← Nat.add_assoc]
    obtain ⟨hfirst, hrest⟩ := holds_append.mp hcode
    refine (h stmt List.mem_cons_self ip m hfirst hvalid).bind fun _ m hvalid => ?_
    exact ih (fun s hs => h s (List.mem_cons_of_mem stmt hs)) _ m hrest hvalid

/-- A loop is followed if its two bodies are. -/
theorem loop_follows {condition : Expr} {thenBody elseBody : List Line} {span : Span}
    {gThen gElse : Evaluation Unit} (hcondition : Evaluable condition)
    (hthen : FollowsCode chunk fuel operands thenBody gThen)
    (helse : FollowsCode chunk fuel operands elseBody gElse) :
    FollowsCode chunk fuel operands (loopCode (valueCode condition) thenBody elseBody span) (do
      if ← isPositive condition then
        repeatWhile (isPositive condition) gThen fuel
      else
        gElse) := by
  intro ip m hcode hvalid
  obtain ⟨hfirst, hcode⟩ := holds_append.mp hcode
  obtain ⟨hskip, hcode⟩ := holds_cons.mp hcode
  obtain ⟨hbody, hcode⟩ := holds_append.mp hcode
  obtain ⟨hagain, hcode⟩ := holds_append.mp hcode
  obtain ⟨hleave, hcode⟩ := holds_cons.mp hcode
  obtain ⟨hback, hlast⟩ := holds_cons.mp hcode
  simp only [Instruction.size] at hbody hagain hleave hback hlast
  have hsize : size (loopCode (valueCode condition) thenBody elseBody span) =
      size (valueCode condition) + 3 + size thenBody + size (valueCode condition) + 6 +
        size elseBody := by
    simp only [loopCode, size_append, size, Instruction.size]
    omega
  refine (isPositive_follows hcondition fuel _ hfirst hskip hvalid).bind fun positive m hvalid => ?_
  cases positive with
  | true =>
    have hstep : ∀ m : Memory, Step chunk
        (ip + size (valueCode condition) + 3 + size thenBody + size (valueCode condition) + 3,
          m.machine operands)
        (ip + size (valueCode condition) + 3, m.machine operands) := by
      intro m
      refine (step_of_holds hback _).trans ((Memory.execute_loop ?_ _).trans ?_)
      · simp only [Instruction.size]
        omega
      · simp only [Instruction.size]
        congr 2
        omega
    have hloop := repeatWhile_follows (fun m hvalid => hthen _ m hbody hvalid)
      (fun m hvalid => isPositive_follows hcondition fuel _ hagain hleave hvalid) hstep
      (Nat.le_refl fuel) hvalid
    have hstop : ip + size (loopCode (valueCode condition) thenBody elseBody span) =
        ip + size (valueCode condition) + 3 + size thenBody + size (valueCode condition) + 3 +
          (size elseBody + 3) := by omega
    rw [hstop]
    exact hloop
  | false =>
    have hplace : ip + size (valueCode condition) + 3 + size thenBody +
        size (valueCode condition) + 3 + 3 =
          ip + size (valueCode condition) + 3 +
            (size thenBody + size (valueCode condition) + 6) := by
      omega
    rw [hplace] at hlast
    have hstop : ip + size (loopCode (valueCode condition) thenBody elseBody span) =
        ip + size (valueCode condition) + 3 + (size thenBody + size (valueCode condition) + 6) +
          size elseBody := by omega
    rw [hstop]
    exact helse _ m hlast hvalid

/-- The machine follows the evaluation of a statement. -/
theorem statement_follows {stmt : Expr} (h : Executable stmt) :
    FollowsCode chunk fuel operands (statementCode inputCount stmt)
      (statement inputCount fuel stmt) := by
  induction h with
  | assign span h =>
    intro ip m hcode hvalid
    rw [statementCode] at hcode ⊢
    rw [statement, size_append, ← Nat.add_assoc]
    obtain ⟨hfirst, hlast⟩ := holds_append.mp hcode
    refine (value_follows h fuel hfirst hvalid).bind fun h m hvalid => ?_
    exact Follows.instruction hlast rfl hvalid.tail
  | pop span h =>
    intro ip m hcode hvalid
    rw [statementCode] at hcode ⊢
    rw [statement, size_append, ← Nat.add_assoc]
    obtain ⟨hfirst, hlast⟩ := holds_append.mp hcode
    refine (value_follows h fuel hfirst hvalid).bind fun h m hvalid => ?_
    exact Follows.instruction hlast rfl hvalid.tail
  | print span h =>
    intro ip m hcode hvalid
    rw [statementCode] at hcode ⊢
    rw [statement, size_append, ← Nat.add_assoc]
    obtain ⟨hfirst, hlast⟩ := holds_append.mp hcode
    refine (values_follows h fuel hfirst hvalid).bind_of_eq fun handles m heval hvalid => ?_
    rw [← length_values heval] at hlast ⊢
    obtain ⟨hargs, hleft⟩ := hvalid.of_append
    exact writeLine_follows fuel hlast
      (Memory.execute_print _ (fun h hh => hargs h (List.mem_reverse.mpr hh)) operands) hleft
  | hello span =>
    intro ip m hcode hvalid
    rw [statementCode] at hcode ⊢
    rw [statement]
    unfold greetingCode at hcode ⊢
    split
    · rename_i hinputs
      rw [if_pos hinputs] at hcode
      obtain ⟨hfirst, hlast⟩ := holds_cons.mp hcode
      refine (load_follows fuel hfirst hvalid).bind fun h m hvalid => ?_
      exact writeLine_follows fuel hlast (Memory.execute_hello _ hvalid.head operands) hvalid.tail
    · rename_i hinputs
      rw [if_neg hinputs] at hcode
      exact writeLine_follows fuel hcode (Memory.execute_helloWorld _ m operands) hvalid
  | exit code span =>
    intro ip m hcode hvalid
    rw [statementCode] at hcode
    rw [statement]
    exact ends_of_stop hcode rfl
  | push span h =>
    intro ip m hcode hvalid
    rw [statementCode] at hcode ⊢
    rw [statement, size_append, ← Nat.add_assoc]
    obtain ⟨hfirst, hlast⟩ := holds_append.mp hcode
    refine (value_follows h fuel hfirst hvalid).bind fun h m hvalid => ?_
    obtain ⟨hm', hext⟩ := Memory.push_valid (m := m) hvalid.memory hvalid.head
    exact Follows.instruction hlast rfl (hvalid.tail.grow hm' hext)
  | clear span =>
    intro ip m hcode hvalid
    rw [statementCode] at hcode ⊢
    rw [statement]
    obtain ⟨hm', hext⟩ := Memory.clear_valid (m := m) hvalid.memory
    exact Follows.instruction hcode rfl (hvalid.grow hm' hext)
  | loop span hcondition _ _ ihThen ihElse =>
    rw [statementCode, statement]
    exact loop_follows hcondition (statements_follows_of_forall ihThen)
      (statements_follows_of_forall ihElse)
  | @silent e h =>
    intro ip m _ hvalid
    rw [statementCode_silent inputCount h]
    have hnothing : statement inputCount fuel e = pure () := by
      cases e <;> cases h <;> rw [statement]
    rw [hnothing]
    exact Follows.result rfl rfl hvalid

end Statements

/-! ### Programs -/

/-- The machine follows the evaluation of a whole program, from its start to the end of its code. -/
theorem program_follows {p : Program} {chunk : Chunk} (hcompile : Codegen.compile p = .ok chunk)
    (fuel : Nat) {m : Memory} (hvalid : m.Valid) :
    match statements p.inputCount fuel p.statements m with
    | .ok () m' => Ends chunk (0, m.machine []) (.ok .finished) m'
    | .error (.exit code) m' => Ends chunk (0, m.machine []) (.ok (.exit code)) m'
    | .error (.failed e) m' => Ends chunk (0, m.machine []) (.error e) m'
    | .error .unfinished _ => runFrom chunk fuel 0 (m.machine []) = none := by
  obtain ⟨hexec, -, -⟩ := compile_eq_ok hcompile
  obtain ⟨hcode, hfinish⟩ := holds_append.mp (holds_of_compile hcompile)
  have hcodes : FollowsCode chunk fuel [] (statementsCode p.inputCount p.statements)
      (statements p.inputCount fuel p.statements) :=
    statements_follows_of_forall fun stmt hs => statement_follows (hexec stmt hs)
  have hfollows := hcodes 0 m hcode (Machine.Valid.start hvalid)
  match statements p.inputCount fuel p.statements m, hfollows with
  | .ok () m', h => exact Ends.of_steps h.1 (ends_of_stop hfinish rfl)
  | .error (.exit code) m', h => exact h
  | .error (.failed e) m', h => exact h
  | .error .unfinished m', h => exact h

/-- A run from the start of the chunk that ends and the result that the run has then. -/
theorem run_of_ends {chunk : Chunk} {m : Machine} {result : Except Error Completion} {m' : Memory}
    (h : Ends chunk (0, m.memory.machine []) result m') :
    ∃ budget last, m.run budget chunk = some (last.flushed result, last) ∧ last.memory = m' := by
  obtain ⟨budget, last, hrun, hlast⟩ := h
  refine ⟨budget, last, ?_, hlast⟩
  unfold Machine.run
  rw [show runFrom chunk budget 0 { m with operands := [] } = some (result, last) from hrun]

/-- Flushing at the end of a run is flushing at the end of an evaluation. -/
theorem flushed_memory (m : Machine) (c : Completion) :
    (m.flushed (.ok c), m.memory) = flushed m.memory c := by
  unfold Machine.flushed flushed
  change (if m.out.flushFails then _ else _, _) = if m.out.flushFails then _ else _
  split <;> rfl

/-- A program whose evaluation has a result runs to the same result and memory. -/
theorem run_of_program {p : Program} {chunk : Chunk} (hcompile : Codegen.compile p = .ok chunk)
    {m : Machine} (hvalid : m.memory.Valid) {fuel : Nat} {result : Except Error Completion}
    {m' : Memory} (h : program fuel p m.memory = some (result, m')) :
    ∃ budget last, m.run budget chunk = some (result, last) ∧ last.memory = m' := by
  have hfollows := program_follows hcompile fuel hvalid
  unfold program at h
  split at h
  · rename_i m₁ heq
    rw [heq] at hfollows
    obtain ⟨budget, last, hrun, rfl⟩ := run_of_ends hfollows
    rw [← flushed_memory] at h
    cases h
    exact ⟨budget, last, hrun, rfl⟩
  · rename_i code m₁ heq
    rw [heq] at hfollows
    obtain ⟨budget, last, hrun, rfl⟩ := run_of_ends hfollows
    rw [← flushed_memory] at h
    cases h
    exact ⟨budget, last, hrun, rfl⟩
  · rename_i e m₁ heq
    rw [heq] at hfollows
    obtain ⟨budget, last, hrun, rfl⟩ := run_of_ends hfollows
    cases h
    exact ⟨budget, last, hrun, rfl⟩
  · cases h

/-- A program that runs to its end within a budget has an evaluation with that much fuel. -/
theorem program_of_run {p : Program} {chunk : Chunk} (hcompile : Codegen.compile p = .ok chunk)
    {m : Machine} (hvalid : m.memory.Valid) {budget : Nat}
    {r : Except Error Completion × Machine} (h : m.run budget chunk = some r) :
    ∃ r', program budget p m.memory = some r' := by
  have hfollows := program_follows hcompile budget hvalid
  unfold program
  split
  · exact ⟨_, rfl⟩
  · exact ⟨_, rfl⟩
  · exact ⟨_, rfl⟩
  · rename_i m₁ heq
    rw [heq] at hfollows
    unfold Machine.run at h
    rw [show runFrom chunk budget 0 { m with operands := [] } = none from hfollows] at h
    cases h

/-- Two runs of a chunk have the same outcome, whatever their budgets. -/
theorem run_unique {chunk : Chunk} {m : Machine} {budget budget' : Nat}
    {r r' : Except Error Completion × Machine} (h : m.run budget chunk = some r)
    (h' : m.run budget' chunk = some r') : r = r' := by
  unfold Machine.run at h h'
  split at h
  · rename_i result last hrun
    split at h'
    · rename_i result' last' hrun'
      cases runFrom_unique hrun hrun'
      exact Option.some.inj (h.symm.trans h')
    · cases h'
  · cases h

/-- A program that compiles runs as its tree is evaluated: it ends with the same completion or
error, heap, names, evaluation stack and output, or neither of the two ends. -/
theorem run_iff_program {p : Program} {chunk : Chunk} (hcompile : Codegen.compile p = .ok chunk)
    {m : Machine} (hvalid : m.memory.Valid) :
    (∀ result m', (∃ budget last, m.run budget chunk = some (result, last) ∧ last.memory = m') ↔
      ∃ fuel, program fuel p m.memory = some (result, m')) ∧
    ((∀ budget, m.run budget chunk = none) ↔ ∀ fuel, program fuel p m.memory = none) := by
  have hiff : ∀ result m',
      (∃ budget last, m.run budget chunk = some (result, last) ∧ last.memory = m') ↔
        ∃ fuel, program fuel p m.memory = some (result, m') := by
    intro result m'
    constructor
    · rintro ⟨budget, last, hrun, rfl⟩
      obtain ⟨⟨result', m'⟩, heval⟩ := program_of_run hcompile hvalid hrun
      obtain ⟨budget', last', hrun', rfl⟩ := run_of_program hcompile hvalid heval
      cases run_unique hrun hrun'
      exact ⟨budget, heval⟩
    · rintro ⟨fuel, heval⟩
      exact run_of_program hcompile hvalid heval
  refine ⟨hiff, fun hrun fuel => ?_, fun heval budget => ?_⟩
  · cases hresult : program fuel p m.memory with
    | none => rfl
    | some r =>
      obtain ⟨budget, last, hsome, -⟩ := (hiff r.1 r.2).mpr ⟨fuel, hresult⟩
      cases (hrun budget).symm.trans hsome
  · cases hresult : m.run budget chunk with
    | none => rfl
    | some r =>
      obtain ⟨fuel, hsome⟩ := (hiff r.1 r.2.memory).mp ⟨budget, r.2, hresult, rfl⟩
      cases (heval fuel).symm.trans hsome

/-- Gives `x` the length of its text, takes one round of a loop that prints `x` and sets it back to
zero, and exits. -/
def oneRound : Program :=
  let x : Expr := .var "x" false .nowhere
  ⟨[.assign x (.lengthOf x .nowhere) .nowhere,
    .loop x [.print [x] .nowhere, .assign x (.var "y" false .nowhere) .nowhere] [.hello .nowhere]
      .nowhere,
    .exit 3 .nowhere], 0⟩

/-- The program compiles, and a new machine exits with its status after printing one line. -/
theorem run_oneRound : ∃ chunk, Codegen.compile oneRound = .ok chunk ∧
    (Machine.new .unlimited).memory.Valid ∧
    ∃ budget last, (Machine.new .unlimited).run budget chunk = some (.ok (.exit 3), last) ∧
      last.memory.out.written.toList = [49, 10] := by
  have hok : (Codegen.compile oneRound).isOk = true := by decide +kernel
  cases hcompile : Codegen.compile oneRound with
  | error e =>
    rw [hcompile] at hok
    cases hok
  | ok chunk =>
    have hvalid := Memory.new_valid .unlimited
    have heval : (program 1 oneRound (Machine.new .unlimited).memory).map
        (fun r => (r.1.toOption, r.2.out.written.toList)) = some (some (.exit 3), [49, 10]) := by
      decide +kernel
    obtain ⟨⟨result, m'⟩, hprogram, hresult⟩ := Option.map_eq_some_iff.mp heval
    obtain ⟨hexit, hwritten⟩ := Prod.mk.inj hresult
    obtain rfl : result = .ok (.exit 3) := by
      cases result <;> cases hexit
      rfl
    obtain ⟨budget, last, hrun, rfl⟩ :=
      ((run_iff_program hcompile hvalid).1 _ m').mpr ⟨1, hprogram⟩
    exact ⟨chunk, rfl, hvalid, budget, last, hrun, hwritten⟩

end Smil.Eval
