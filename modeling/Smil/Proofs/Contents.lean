import Smil.Proofs.Generation

/-!
# What generated code consists of

The lines of a program are those of its statements, at any depth of loops, and one more that
finishes. A property of all lines is shown for each kind of statement; lists of values and of
statements pass it on.
-/

namespace Smil

/-- What can stand in the code of a statement: it does not finish the program, and if it jumps back,
it leads before itself. -/
def Instruction.Inner : Instruction → Prop
  | loop distance => 3 < distance
  | finish => False
  | _ => True

namespace Codegen

open Assembly

variable {property : Line → Prop} {inputCount : Nat}

/-- What holds of the lines of each value holds of the lines of all. -/
theorem forall_mem_valuesCode {es : List Expr}
    (h : ∀ e ∈ es, ∀ l ∈ valueCode e, property l) : ∀ l ∈ valuesCode es, property l := by
  induction es with
  | nil => simp [valuesCode]
  | cons e es ih =>
    rw [valuesCode]
    exact List.forall_mem_append.mpr ⟨h e List.mem_cons_self,
      ih fun e he => h e (List.mem_cons_of_mem _ he)⟩

/-- What holds of the lines of each statement holds of the lines of all. -/
theorem forall_mem_statementsCode {stmts : List Expr}
    (h : ∀ stmt ∈ stmts, ∀ l ∈ statementCode inputCount stmt, property l) :
    ∀ l ∈ statementsCode inputCount stmts, property l := by
  induction stmts with
  | nil => simp [statementsCode]
  | cons stmt stmts ih =>
    rw [statementsCode]
    exact List.forall_mem_append.mpr ⟨h stmt List.mem_cons_self,
      ih fun stmt hs => h stmt (List.mem_cons_of_mem _ hs)⟩

/-- The code of statements in two parts. -/
theorem statementsCode_append (a b : List Expr) :
    statementsCode inputCount (a ++ b) =
      statementsCode inputCount a ++ statementsCode inputCount b := by
  induction a with
  | nil => simp [statementsCode]
  | cons stmt a ih => simp [statementsCode, ih]

/-- The lines of a value neither jump nor finish. -/
theorem inner_valueCode {e : Expr} (h : Evaluable e) :
    ∀ l ∈ valueCode e, l.instruction.Inner := by
  induction h <;> simp_all [valueCode, Instruction.Inner, or_imp]

/-- The lines of a statement. -/
theorem inner_statementCode (inputCount : Nat) {stmt : Expr} (h : Executable stmt) :
    ∀ l ∈ statementCode inputCount stmt, l.instruction.Inner := by
  induction h with
  | assign span h | pop span h | push span h =>
    rw [statementCode]
    exact List.forall_mem_append.mpr ⟨inner_valueCode h, by simp [Instruction.Inner]⟩
  | print span h =>
    rw [statementCode]
    have hvalues := forall_mem_valuesCode fun e he => inner_valueCode (h e he)
    exact List.forall_mem_append.mpr ⟨hvalues, by simp [Instruction.Inner]⟩
  | hello span =>
    rw [statementCode, greetingCode]
    split <;> simp [Instruction.Inner]
  | exit | clear => simp [statementCode, Instruction.Inner]
  | loop span hcondition _ _ ihThen ihElse =>
    rw [statementCode]
    have hvalue := inner_valueCode hcondition
    have hthen := forall_mem_statementsCode ihThen
    have helse := forall_mem_statementsCode ihElse
    simp only [loopCode, List.forall_mem_append, List.forall_mem_cons]
    refine ⟨hvalue, trivial, hthen, hvalue, trivial, ?_, helse⟩
    change 3 < _ + _ + 6
    omega
  | silent h => simp [statementCode_silent inputCount h]

/-- The lines of several statements. -/
theorem inner_statementsCode (inputCount : Nat) {stmts : List Expr}
    (h : ∀ stmt ∈ stmts, Executable stmt) :
    ∀ l ∈ statementsCode inputCount stmts, l.instruction.Inner :=
  forall_mem_statementsCode fun stmt hs => inner_statementCode inputCount (h stmt hs)

/-- A program finishes at its last line only. -/
theorem inner_programCode {p : Program} (h : ∀ stmt ∈ p.statements, Executable stmt) :
    ∀ l ∈ programCode p, l.instruction.Inner ∨ l.instruction = .finish := by
  have hstmts := inner_statementsCode p.inputCount h
  exact List.forall_mem_append.mpr ⟨fun l hl => Or.inl (hstmts l hl), by simp⟩

end Codegen

end Smil
