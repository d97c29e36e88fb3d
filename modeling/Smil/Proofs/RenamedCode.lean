import Smil.Proofs.Contents
import Mathlib.Logic.Function.Basic

/-!
# Code of renamed programs

Renaming the variables of a program renames the operands of its code and changes nothing else: the
code has the same instructions at the same offsets, and the table of names has the new names in the
place of the old ones. So a program compiles if and only if its renaming does, as long as different
names stay different and the names of the inputs stay what they are.
-/

namespace Smil

/-! ### Renaming trees -/

namespace Expr

mutual

/-- Renames the variables of a tree. -/
@[simp] def rename (r : String → String) : Expr → Expr
  | comment text span => comment text span
  | input index span => input index span
  | var name inverted span => var (r name) inverted span
  | namedVar name span => namedVar (name.rename r) span
  | assign target value span => assign (target.rename r) (value.rename r) span
  | binary left op right span => binary (left.rename r) op (right.rename r) span
  | print args span => print (renameAll r args) span
  | hello span => hello span
  | nop span => nop span
  | exit code span => exit code span
  | push value span => push (value.rename r) span
  | pop target span => pop (target.rename r) span
  | clear span => clear span
  | loop condition thenBody elseBody span =>
    loop (condition.rename r) (renameAll r thenBody) (renameAll r elseBody) span
  | lengthOf operand span => lengthOf (operand.rename r) span
  | unknown token => unknown token

/-- Renames the variables of several trees. -/
@[simp] def renameAll (r : String → String) : List Expr → List Expr
  | [] => []
  | e :: es => e.rename r :: renameAll r es

end

mutual

/-- Whether a tree has no variable whose name is computed. -/
@[simp] def isPlain : Expr → Bool
  | namedVar .. => false
  | assign target value _ => target.isPlain && value.isPlain
  | binary left _ right _ => left.isPlain && right.isPlain
  | print args _ => allPlain args
  | push e _ | pop e _ | lengthOf e _ => e.isPlain
  | loop condition thenBody elseBody _ =>
    condition.isPlain && allPlain thenBody && allPlain elseBody
  | comment .. | input .. | var .. | hello _ | nop _ | exit .. | clear _ | unknown _ => true

/-- Whether none of several trees has a variable whose name is computed. -/
@[simp] def allPlain : List Expr → Bool
  | [] => true
  | e :: es => e.isPlain && allPlain es

end

/-- Several trees are plain if each of them is. -/
theorem allPlain_iff {es : List Expr} : allPlain es = true ↔ ∀ e ∈ es, e.isPlain = true := by
  induction es with
  | nil => simp
  | cons e es ih => simp [ih]

mutual

/-- A renaming is undone by one that leads back. -/
theorem rename_cancel {r back : String → String} (h : ∀ name, back (r name) = name) :
    ∀ e : Expr, (e.rename r).rename back = e
  | comment .. | input .. | hello _ | nop _ | exit .. | clear _ | unknown _ => by simp
  | var name inverted span => by simp [h]
  | namedVar name span => by simp [rename_cancel h name]
  | assign target value span => by simp [rename_cancel h target, rename_cancel h value]
  | binary left op right span => by simp [rename_cancel h left, rename_cancel h right]
  | print args span => by simp [renameAll_cancel h args]
  | push value span => by simp [rename_cancel h value]
  | pop target span => by simp [rename_cancel h target]
  | loop condition thenBody elseBody span => by
    simp [rename_cancel h condition, renameAll_cancel h thenBody, renameAll_cancel h elseBody]
  | lengthOf operand span => by simp [rename_cancel h operand]

/-- A renaming of several trees is undone by one that leads back. -/
theorem renameAll_cancel {r back : String → String} (h : ∀ name, back (r name) = name) :
    ∀ es : List Expr, renameAll back (renameAll r es) = es
  | [] => rfl
  | e :: es => by simp [rename_cancel h e, renameAll_cancel h es]

end

/-- Several trees are renamed one by one. -/
@[simp] theorem renameAll_eq_map (r : String → String) (es : List Expr) :
    renameAll r es = es.map (rename r) := by
  induction es with
  | nil => rfl
  | cons e es ih => rw [renameAll, ih, List.map_cons]

/-- Renaming keeps whether a tree is inverted. -/
@[simp] theorem isInverted_rename (r : String → String) (e : Expr) :
    (e.rename r).isInverted = e.isInverted := by
  cases e <;> simp [isInverted]

/-- Renaming keeps whether a tree is a statement. -/
@[simp] theorem isStatement_rename (r : String → String) (e : Expr) :
    (e.rename r).isStatement = e.isStatement := by
  cases e <;> simp [isStatement]

/-- Renaming keeps the place of a tree. -/
@[simp] theorem span_rename (r : String → String) (e : Expr) : (e.rename r).span = e.span := by
  cases e <;> simp [span]

end Expr

/-- Renames the variables of a program. -/
def Program.rename (r : String → String) (p : Program) : Program where
  statements := p.statements.map (Expr.rename r)
  inputCount := p.inputCount

/-- Renames the variable that an instruction refers to by name. -/
def Instruction.rename (r : String → String) : Instruction → Instruction
  | load name => load (r name)
  | stackPop name => stackPop (r name)
  | i => i

/-- Whether an instruction takes the name of a variable from the operand stack. -/
def Instruction.computesName : Instruction → Bool
  | loadNamed | stackPopNamed => true
  | _ => false

/-- Renaming keeps the size of an instruction. -/
@[simp] theorem Instruction.size_rename (r : String → String) (i : Instruction) :
    (i.rename r).size = i.size := by
  cases i <;> rfl

/-- Renames the variable that a line refers to by name. -/
def Line.rename (r : String → String) (l : Line) : Line where
  instruction := l.instruction.rename r
  span := l.span

namespace Codegen

open Assembly

/-! ### The code of renamed trees -/

variable {r : String → String}

/-- A value stays one under other names. -/
theorem Evaluable.rename {e : Expr} (h : Evaluable e) (r : String → String) :
    Evaluable (e.rename r) := by
  induction h with
  | input index span => exact .input index span
  | var name inverted span => exact .var (r name) inverted span
  | namedVar span _ ih => exact .namedVar span ih
  | assign span _ _ ihSource ihTarget => exact .assign span ihSource ihTarget
  | binary op span _ _ ihLeft ihRight => exact .binary op span ihLeft ihRight
  | popVar name inverted inner span => exact .popVar (r name) inverted inner span
  | popNamed inner span _ ih => exact .popNamed inner span ih
  | lengthOf span _ ih => exact .lengthOf span ih

/-- A statement stays one under other names. -/
theorem Executable.rename {stmt : Expr} (h : Executable stmt) (r : String → String) :
    Executable (stmt.rename r) := by
  induction h with
  | assign span h => exact .assign span (h.rename r)
  | pop span h => exact .pop span (h.rename r)
  | print span h =>
    rw [Expr.rename, Expr.renameAll_eq_map]
    exact .print span (List.forall_mem_map.mpr fun e he => (h e he).rename r)
  | hello span => exact .hello span
  | exit code span => exact .exit code span
  | push span h => exact .push span (h.rename r)
  | clear span => exact .clear span
  | loop span hcondition _ _ ihThen ihElse =>
    rw [Expr.rename, Expr.renameAll_eq_map, Expr.renameAll_eq_map]
    exact .loop span (hcondition.rename r) (List.forall_mem_map.mpr ihThen)
      (List.forall_mem_map.mpr ihElse)
  | silent h => exact .silent (by rw [Expr.isStatement_rename, h])

/-- A renamed tree has code if and only if the tree has. -/
theorem executable_rename_iff (hr : Function.Injective r) {stmt : Expr} :
    Executable (stmt.rename r) ↔ Executable stmt := by
  refine ⟨fun h => ?_, fun h => h.rename r⟩
  have hback := h.rename (Function.invFun r)
  rwa [Expr.rename_cancel (Function.leftInverse_invFun hr)] at hback

/-- The code of a renamed value. -/
theorem valueCode_rename (hinputs : ∀ i, r (inputName i) = inputName i) {e : Expr}
    (h : Evaluable e) : valueCode (e.rename r) = (valueCode e).map (Line.rename r) := by
  induction h <;>
    simp_all [valueCode, Line.rename, Instruction.rename, assignMode]

/-- The code of several renamed values. -/
theorem valuesCode_rename (hinputs : ∀ i, r (inputName i) = inputName i) {es : List Expr}
    (h : ∀ e ∈ es, Evaluable e) :
    valuesCode (es.map (Expr.rename r)) = (valuesCode es).map (Line.rename r) := by
  induction es with
  | nil => rfl
  | cons e es ih =>
    rw [List.map_cons, valuesCode, valuesCode, valueCode_rename hinputs (h e List.mem_cons_self),
      ih fun e he => h e (List.mem_cons_of_mem _ he), List.map_append]

/-- Renaming keeps the size of code. -/
@[simp] theorem size_map_rename (code : List Line) :
    size (code.map (Line.rename r)) = size code := by
  induction code with
  | nil => rfl
  | cons l code ih => rw [List.map_cons, size, ih, Line.rename, Instruction.size_rename, size]

/-- The code of renamed statements, given that of each. -/
theorem statementsCode_rename_of_forall {inputCount : Nat} {stmts : List Expr}
    (h : ∀ stmt ∈ stmts, statementCode inputCount (stmt.rename r) =
      (statementCode inputCount stmt).map (Line.rename r)) :
    statementsCode inputCount (stmts.map (Expr.rename r)) =
      (statementsCode inputCount stmts).map (Line.rename r) := by
  induction stmts with
  | nil => simp [statementsCode]
  | cons stmt stmts ih =>
    rw [List.map_cons, statementsCode, statementsCode, h stmt List.mem_cons_self,
      ih fun s hs => h s (List.mem_cons_of_mem _ hs), List.map_append]

/-- The code of a renamed statement. -/
theorem statementCode_rename (hinputs : ∀ i, r (inputName i) = inputName i) (inputCount : Nat)
    {stmt : Expr} (h : Executable stmt) :
    statementCode inputCount (stmt.rename r) =
      (statementCode inputCount stmt).map (Line.rename r) := by
  induction h with
  | assign span h | pop span h =>
    have hvalue := valueCode_rename hinputs h
    simp only [Expr.rename] at hvalue ⊢
    simp [statementCode, hvalue, Line.rename, Instruction.rename]
  | print span h =>
    simp [statementCode, valuesCode_rename hinputs h, Line.rename, Instruction.rename]
  | hello span =>
    simp only [Expr.rename, statementCode, greetingCode]
    split <;> simp [Line.rename, Instruction.rename, hinputs]
  | exit | clear => simp [statementCode, Line.rename, Instruction.rename]
  | push span h =>
    simp [statementCode, valueCode_rename hinputs h, Line.rename, Instruction.rename]
  | loop span hcondition _ _ ihThen ihElse =>
    simp [statementCode, loopCode, valueCode_rename hinputs hcondition,
      statementsCode_rename_of_forall ihThen, statementsCode_rename_of_forall ihElse, Line.rename,
      Instruction.rename]
  | silent h =>
    rw [statementCode_silent inputCount h,
      statementCode_silent inputCount (by rw [Expr.isStatement_rename, h])]
    rfl

/-- The code of a renamed program. -/
theorem programCode_rename (hinputs : ∀ i, r (inputName i) = inputName i) {p : Program}
    (h : ∀ stmt ∈ p.statements, Executable stmt) :
    programCode (p.rename r) = (programCode p).map (Line.rename r) := by
  have hstmts := statementsCode_rename_of_forall fun stmt hs =>
    statementCode_rename hinputs p.inputCount (h stmt hs)
  have hlast : lastSpan (p.statements.map (Expr.rename r)) = lastSpan p.statements := by
    have hspan : Expr.span ∘ Expr.rename r = Expr.span := funext (Expr.span_rename r)
    simp [lastSpan, hspan]
  simp [programCode, Program.rename, hstmts, hlast, Line.rename, Instruction.rename]

end Codegen

namespace Assembly

/-! ### The table of renamed names -/

variable {r : String → String}

/-- A name is in a renamed table at the index of the old name. -/
theorem idxOf_map_rename (hr : Function.Injective r) (names : List String) (name : String) :
    (names.map r).idxOf (r name) = names.idxOf name := by
  induction names with
  | nil => rfl
  | cons first names ih =>
    simp only [List.map_cons, List.idxOf_cons, ih, beq_eq_decide, hr.eq_iff]

/-- A renamed name is added where the old name is added. -/
theorem remember_map_rename (hr : Function.Injective r) (names : List String) (name : String) :
    remember (names.map r) (r name) = (remember names name).map r := by
  simp only [remember, List.mem_map_of_injective hr]
  split <;> simp

/-- The table after renamed code. -/
theorem namesAfter_rename (hr : Function.Injective r) (names : List String) (code : List Line) :
    namesAfter (names.map r) (code.map (Line.rename r)) = (namesAfter names code).map r := by
  have hreferences : references (code.map (Line.rename r)) = (references code).map r := by
    simp only [references, List.filterMap_map, List.map_filterMap]
    refine List.filterMap_congr fun l _ => ?_
    obtain ⟨i, span⟩ := l
    cases i <;> rfl
  have hfold : ∀ (added names : List String),
      (added.map r).foldl remember (names.map r) = (added.foldl remember names).map r := by
    intro added
    induction added with
    | nil => exact fun _ => rfl
    | cons name added ih =>
      intro names
      rw [List.map_cons, List.foldl_cons, remember_map_rename hr, ih, List.foldl_cons]
  unfold namesAfter
  rw [hreferences, hfold]

/-- Renamed code fits if and only if the code does. -/
theorem fits_rename_iff (hr : Function.Injective r) (code : List Line) :
    Fits [] (code.map (Line.rename r)) ↔ Fits [] code := by
  have hnames : namesAfter [] (code.map (Line.rename r)) = (namesAfter [] code).map r :=
    namesAfter_rename hr [] code
  unfold Fits
  rw [hnames, List.forall_mem_map]
  refine forall₂_congr fun l _ => ?_
  obtain ⟨i, span⟩ := l
  cases i <;> simp [Line.Fits, Line.rename, Instruction.rename, Instruction.name?,
    Instruction.number?, idxOf_map_rename hr]

end Assembly

namespace Codegen

open Assembly

variable {r : String → String}

/-- A program compiles if and only if it has code and the code fits. -/
theorem isOk_compile_iff {p : Program} :
    (compile p).isOk = true ↔
      (∀ stmt ∈ p.statements, Executable stmt) ∧ Fits [] (programCode p) := by
  constructor
  · intro hok
    cases hcompile : compile p with
    | ok chunk =>
      obtain ⟨hexec, hfits, -⟩ := compile_eq_ok hcompile
      exact ⟨hexec, hfits⟩
    | error e =>
      rw [hcompile] at hok
      cases hok
  · rintro ⟨hexec, hfits⟩
    rcases compile_of_executable hexec with ⟨-, hok⟩ | ⟨hnot, -⟩
    · rw [hok]
      rfl
    · exact absurd hfits hnot

/-- A renamed program compiles if and only if the program does. -/
theorem isOk_compile_rename (hr : Function.Injective r)
    (hinputs : ∀ i, r (inputName i) = inputName i) (p : Program) :
    (compile (p.rename r)).isOk = (compile p).isOk := by
  have hexec : (∀ stmt ∈ (p.rename r).statements, Executable stmt) ↔
      ∀ stmt ∈ p.statements, Executable stmt := by
    simp only [Program.rename, List.forall_mem_map, executable_rename_iff hr]
  rw [Bool.eq_iff_iff, isOk_compile_iff, isOk_compile_iff, hexec]
  refine and_congr_right fun h => ?_
  rw [programCode_rename hinputs h, fits_rename_iff hr]

/-! ### Names that are computed -/

/-- The code of a plain value computes no name. -/
theorem computesName_valueCode {e : Expr} (h : Evaluable e) (hplain : e.isPlain = true) :
    ∀ l ∈ valueCode e, l.instruction.computesName = false := by
  induction h <;> simp_all [valueCode, Instruction.computesName, or_imp]

/-- The code of a plain statement computes no name. -/
theorem computesName_statementCode (inputCount : Nat) {stmt : Expr} (h : Executable stmt)
    (hplain : stmt.isPlain = true) :
    ∀ l ∈ statementCode inputCount stmt, l.instruction.computesName = false := by
  induction h with
  | assign span h | pop span h | push span h =>
    rw [statementCode]
    exact List.forall_mem_append.mpr ⟨computesName_valueCode h hplain, by
      simp [Instruction.computesName]⟩
  | print span h =>
    rw [statementCode]
    rw [Expr.isPlain, Expr.allPlain_iff] at hplain
    have hvalues := forall_mem_valuesCode fun e he =>
      computesName_valueCode (h e he) (hplain e he)
    exact List.forall_mem_append.mpr ⟨hvalues, by simp [Instruction.computesName]⟩
  | hello span =>
    rw [statementCode, greetingCode]
    split <;> simp [Instruction.computesName]
  | exit | clear => simp [statementCode, Instruction.computesName]
  | loop span hcondition _ _ ihThen ihElse =>
    simp only [Expr.isPlain, Bool.and_eq_true, Expr.allPlain_iff] at hplain
    obtain ⟨⟨hplain, hplainThen⟩, hplainElse⟩ := hplain
    have hvalue := computesName_valueCode hcondition hplain
    have hthen := forall_mem_statementsCode fun s hs => ihThen s hs (hplainThen s hs)
    have helse := forall_mem_statementsCode fun s hs => ihElse s hs (hplainElse s hs)
    rw [statementCode]
    simp only [loopCode, List.forall_mem_append, List.forall_mem_cons]
    exact ⟨hvalue, rfl, hthen, hvalue, rfl, rfl, helse⟩
  | silent h => simp [statementCode_silent inputCount h]

/-- The code of a plain program computes no name. -/
theorem computesName_programCode {p : Program} (h : ∀ stmt ∈ p.statements, Executable stmt)
    (hplain : Expr.allPlain p.statements = true) :
    ∀ l ∈ programCode p, l.instruction.computesName = false := by
  rw [Expr.allPlain_iff] at hplain
  have hstmts := forall_mem_statementsCode fun stmt hs =>
    computesName_statementCode p.inputCount (h stmt hs) (hplain stmt hs)
  exact List.forall_mem_append.mpr ⟨hstmts, by simp [Instruction.computesName]⟩

end Codegen

end Smil
