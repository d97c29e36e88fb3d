import Mathlib.Data.List.Induction
import Mathlib.Data.List.Nodup
import Smil.Proofs.Generation
import Smil.Proofs.ParsedTrees

/-!
# Which programs are too large

Bytecode addresses names, counts arguments and measures jumps in two bytes. The limits that follow
are stated on the tree alone, through the number of bytes that each node takes up and the names
that it mentions. A program that was read is refused by the generator exactly if it is beyond one
of these limits: every other reason to refuse a tree is ruled out by the shape of trees that are
read.
-/

namespace Smil.Expr

/-! ### Sizes and names -/

/-- The number of bytes of a value. -/
def valueSize : Expr → Nat
  | input .. | var .. => 3
  | namedVar name _ => name.valueSize + 1
  | assign target source _ => source.valueSize + target.valueSize + 2
  | binary left _ right _ => left.valueSize + right.valueSize + 1
  | pop (var ..) _ => 3
  | pop (namedVar name _) _ => name.valueSize + 1
  | lengthOf operand _ => operand.valueSize + 1
  | _ => 0

/-- The number of bytes of several values. -/
def valuesSize : List Expr → Nat
  | [] => 0
  | e :: es => e.valueSize + valuesSize es

mutual

/-- The number of bytes of a statement. -/
def statementSize (inputCount : Nat) : Expr → Nat
  | assign target source span => (assign target source span).valueSize + 1
  | pop target span => (pop target span).valueSize + 1
  | print args _ => valuesSize args + 3
  | hello _ => if inputCount > 0 then 4 else 1
  | exit .. => 2
  | push e _ => e.valueSize + 1
  | clear _ => 1
  | loop condition thenBody elseBody _ =>
    2 * condition.valueSize + statementsSize inputCount thenBody +
      statementsSize inputCount elseBody + 9
  | comment .. | nop _ | unknown _ | input .. | var .. | namedVar .. | binary .. | lengthOf .. => 0

/-- The number of bytes of several statements. -/
def statementsSize (inputCount : Nat) : List Expr → Nat
  | [] => 0
  | stmt :: stmts => stmt.statementSize inputCount + statementsSize inputCount stmts

end

/-- The names that a value mentions, in the order of evaluation. -/
def valueNames : Expr → List String
  | input index _ => [inputName index]
  | var name _ _ => [name]
  | namedVar name _ => name.valueNames
  | assign target source _ => source.valueNames ++ target.valueNames
  | binary left _ right _ => left.valueNames ++ right.valueNames
  | pop (var name _ _) _ => [name]
  | pop (namedVar name _) _ => name.valueNames
  | lengthOf operand _ => operand.valueNames
  | _ => []

mutual

/-- The names that a statement mentions. A greeting mentions the first input if there is one. -/
def statementNames (inputCount : Nat) : Expr → List String
  | assign target source span => (assign target source span).valueNames
  | pop target span => (pop target span).valueNames
  | print args _ => args.flatMap valueNames
  | hello _ => if inputCount > 0 then [inputName 0] else []
  | push e _ => e.valueNames
  | loop condition thenBody elseBody _ =>
    condition.valueNames ++ (statementsNames inputCount thenBody ++
      (condition.valueNames ++ statementsNames inputCount elseBody))
  | exit .. | clear _ | comment .. | nop _ | unknown _ | input .. | var .. | namedVar ..
  | binary .. | lengthOf .. => []

/-- The names that several statements mention. -/
def statementsNames (inputCount : Nat) : List Expr → List String
  | [] => []
  | stmt :: stmts => stmt.statementNames inputCount ++ statementsNames inputCount stmts

end

/-! ### Limits -/

mutual

/-- A statement and the statements inside it, at any depth. -/
def nested : Expr → List Expr
  | loop condition thenBody elseBody span =>
    loop condition thenBody elseBody span :: (nestedAll thenBody ++ nestedAll elseBody)
  | e => [e]

/-- Statements and the statements inside them, at any depth. -/
def nestedAll : List Expr → List Expr
  | [] => []
  | stmt :: stmts => stmt.nested ++ nestedAll stmts

end

/-- A print with too many arguments, or a loop with a part that is too long to jump over. -/
def Oversized (inputCount : Nat) : Expr → Prop
  | print args _ => 65535 < args.length
  | loop condition thenBody elseBody _ =>
    65535 < statementsSize inputCount thenBody + condition.valueSize + 6 ∨
      65535 < statementsSize inputCount elseBody + 3
  | _ => False

end Smil.Expr

namespace Smil.Program

/-- The number of bytes of the statements of a program. -/
def size (p : Program) : Nat :=
  Expr.statementsSize p.inputCount p.statements

/-- The distinct names that a program mentions, in the order in which they are first mentioned. -/
def names (p : Program) : List String :=
  (Expr.statementsNames p.inputCount p.statements).eraseDups

/-- A program with too many names, or with a statement at any depth that is too large. -/
def TooLarge (p : Program) : Prop :=
  65536 < p.names.length ∨ ∃ stmt ∈ Expr.nestedAll p.statements, stmt.Oversized p.inputCount

end Smil.Program

namespace Smil.Codegen

open Assembly

/-! ### Sizes and names of code -/

/-- The size of a value is the size of its code. -/
theorem size_valueCode (e : Expr) : size (valueCode e) = e.valueSize := by
  fun_induction valueCode e <;>
    simp_all [size, Instruction.size, Expr.valueSize, Nat.add_assoc]

/-- The size of several values is the size of their code. -/
theorem size_valuesCode (es : List Expr) :
    size (valuesCode es) = Expr.valuesSize es := by
  induction es with
  | nil => rfl
  | cons e es ih => rw [valuesCode, Expr.valuesSize, size_append, size_valueCode, ih]

/-- A loop has its condition twice, its two bodies, and nine bytes of its own. -/
theorem size_loopCode (condition thenBody elseBody : List Line) (span : Span) :
    size (loopCode condition thenBody elseBody span) =
      2 * size condition + size thenBody + size elseBody + 9 := by
  simp only [loopCode, size_append, size, Instruction.size]
  omega

mutual

/-- The size of a statement is the size of its code. -/
theorem size_statementCode (inputCount : Nat) (stmt : Expr) :
    size (statementCode inputCount stmt) = stmt.statementSize inputCount := by
  cases stmt with
  | loop condition thenBody elseBody span =>
    rw [statementCode, Expr.statementSize, size_loopCode, size_valueCode,
      size_statementsCode inputCount thenBody, size_statementsCode inputCount elseBody]
  | hello span =>
    rw [statementCode, Expr.statementSize, greetingCode]
    split <;> rfl
  | _ =>
    rw [statementCode, Expr.statementSize]
    simp [size, Instruction.size, size_valueCode, size_valuesCode]

/-- The size of statements is the size of their code. -/
theorem size_statementsCode (inputCount : Nat) (stmts : List Expr) :
    size (statementsCode inputCount stmts) = Expr.statementsSize inputCount stmts := by
  cases stmts with
  | nil => rw [statementsCode, Expr.statementsSize, size]
  | cons stmt stmts =>
    rw [statementsCode, Expr.statementsSize, size_append, size_statementCode inputCount stmt,
      size_statementsCode inputCount stmts]

end

/-- Codes in a row refer to the names of both. -/
@[simp] theorem references_append (a b : List Line) :
    references (a ++ b) = references a ++ references b :=
  List.filterMap_append

/-- Code without instructions refers to no name. -/
@[simp] theorem references_nil : references [] = [] := rfl

/-- An instruction refers to one name at most, in front of those of the rest. -/
theorem references_cons (l : Line) (code : List Line) :
    references (l :: code) = l.instruction.name?.toList ++ references code := by
  cases hname : l.instruction.name? <;> simp [references, hname]

/-- The names of a value are those that its code refers to. -/
theorem references_valueCode (e : Expr) : references (valueCode e) = e.valueNames := by
  fun_induction valueCode e <;>
    simp_all [references_cons, Instruction.name?, Expr.valueNames]

/-- The code of several values refers to the names of each. -/
theorem references_valuesCode (es : List Expr) :
    references (valuesCode es) = es.flatMap Expr.valueNames := by
  induction es with
  | nil => rfl
  | cons e es ih => simp [valuesCode, references_valueCode, ih]

/-- A loop refers to the names of its condition twice. -/
theorem references_loopCode (condition thenBody elseBody : List Line) (span : Span) :
    references (loopCode condition thenBody elseBody span) =
      references condition ++ (references thenBody ++
        (references condition ++ references elseBody)) := by
  simp [loopCode, references_cons, Instruction.name?]

mutual

/-- The names of a statement are those that its code refers to. -/
theorem references_statementCode (inputCount : Nat) (stmt : Expr) :
    references (statementCode inputCount stmt) = stmt.statementNames inputCount := by
  cases stmt with
  | loop condition thenBody elseBody span =>
    rw [statementCode, Expr.statementNames, references_loopCode, references_valueCode,
      references_statementsCode inputCount thenBody, references_statementsCode inputCount elseBody]
  | hello span =>
    rw [statementCode, Expr.statementNames, greetingCode]
    split <;> rfl
  | _ =>
    rw [statementCode, Expr.statementNames]
    simp [references_cons, Instruction.name?, references_valueCode, references_valuesCode]

/-- The names of statements are those that their code refers to. -/
theorem references_statementsCode (inputCount : Nat) (stmts : List Expr) :
    references (statementsCode inputCount stmts) = Expr.statementsNames inputCount stmts := by
  cases stmts with
  | nil => rw [statementsCode, Expr.statementsNames, references_nil]
  | cons stmt stmts =>
    rw [statementsCode, Expr.statementsNames, references_append,
      references_statementCode inputCount stmt, references_statementsCode inputCount stmts]

end

/-! ### Tables of names -/

/-- Adding names to the empty table leaves out those that are repeated. -/
theorem rememberAll_eq_eraseDups (added : List String) :
    added.foldl remember [] = added.eraseDups := by
  induction added using List.reverseRecOn with
  | nil => rfl
  | append_singleton added name ih =>
    rw [List.foldl_append, ih, List.eraseDups_append, List.foldl_cons, List.foldl_nil, remember]
    by_cases hname : name ∈ added
    · simp [hname, List.removeAll]
    · simp [hname, List.removeAll, List.eraseDups_cons]

/-- The table of a program's code holds the names that the program mentions. -/
theorem namesAfter_programCode (p : Program) : namesAfter [] (programCode p) = p.names := by
  rw [namesAfter, rememberAll_eq_eraseDups, Program.names, programCode, references_append,
    references_statementsCode]
  simp [references_cons, Instruction.name?]

/-- Every name has an index in two bytes exactly if there are no more names than indices. -/
theorem indices_fit_iff (code : List Line) :
    (∀ l ∈ code, ∀ name ∈ l.instruction.name?, (namesAfter [] code).idxOf name < 65536) ↔
      (namesAfter [] code).length ≤ 65536 := by
  have hnodup : (namesAfter [] code).Nodup := nodup_rememberAll List.nodup_nil _
  constructor
  · intro h
    by_contra hmany
    -- The first name without an index is mentioned by some line, and its index is 65536.
    have hlt : 65536 < (namesAfter [] code).length := by omega
    have hmem : (namesAfter [] code)[65536] ∈ references code := by
      simpa using mem_rememberAll.mp (List.getElem_mem hlt)
    obtain ⟨l, hl, hname⟩ := List.mem_filterMap.mp hmem
    have hindex := h l hl _ hname
    rw [hnodup.idxOf_getElem] at hindex
    omega
  · intro hfew l hl name hname
    have hmem := mem_namesAfter hl hname []
    have hindex := List.idxOf_lt_length_of_mem hmem
    omega

/-! ### Numbers -/

/-- Whether every number of the code fits into two bytes. -/
def NumbersFit (code : List Line) : Prop :=
  ∀ l ∈ code, ∀ n ∈ l.instruction.number?, n < 65536

/-- Code fits if its names do and its numbers do. -/
theorem fits_iff (code : List Line) :
    Fits [] code ↔ (namesAfter [] code).length ≤ 65536 ∧ NumbersFit code := by
  rw [← indices_fit_iff, NumbersFit, ← forall₂_and]
  rfl

/-- Without instructions there is no number that could be too large. -/
@[simp] theorem numbersFit_nil : NumbersFit [] := by
  simp [NumbersFit]

/-- The numbers of two codes in a row fit if those of both do. -/
@[simp] theorem numbersFit_append (a b : List Line) :
    NumbersFit (a ++ b) ↔ NumbersFit a ∧ NumbersFit b :=
  List.forall_mem_append

/-- The numbers fit if those of the first instruction and of the rest do. -/
@[simp] theorem numbersFit_cons (l : Line) (code : List Line) :
    NumbersFit (l :: code) ↔ (∀ n ∈ l.instruction.number?, n < 65536) ∧ NumbersFit code :=
  List.forall_mem_cons

/-- The code of a value holds no numbers. -/
theorem numbersFit_valueCode (e : Expr) : NumbersFit (valueCode e) := by
  fun_induction valueCode e <;> simp_all [Instruction.number?]

/-- The code of values has no number that could be too large. -/
theorem numbersFit_valuesCode (es : List Expr) : NumbersFit (valuesCode es) := by
  induction es with
  | nil => exact numbersFit_nil
  | cons e es ih => exact (numbersFit_append _ _).mpr ⟨numbersFit_valueCode e, ih⟩

/-- In a loop the distances of its two jumps have to fit, besides the numbers of its bodies. -/
theorem numbersFit_loopCode {condition : List Line} (hcondition : NumbersFit condition)
    (thenBody elseBody : List Line) (span : Span) :
    NumbersFit (loopCode condition thenBody elseBody span) ↔
      (size thenBody + size condition + 6 < 65536 ∧ size elseBody + 3 < 65536) ∧
        NumbersFit thenBody ∧ NumbersFit elseBody := by
  simp only [loopCode, numbersFit_append, numbersFit_cons, Instruction.number?, Option.mem_some_iff,
    forall_eq']
  tauto

mutual

/-- The numbers of a statement's code fit exactly if no statement inside it is too large. -/
theorem numbersFit_statementCode (inputCount : Nat) (stmt : Expr) :
    NumbersFit (statementCode inputCount stmt) ↔ ∀ s ∈ stmt.nested, ¬ s.Oversized inputCount := by
  cases stmt with
  | loop condition thenBody elseBody span =>
    rw [statementCode, numbersFit_loopCode (numbersFit_valueCode condition), Expr.nested,
      List.forall_mem_cons, List.forall_mem_append, Expr.Oversized, size_valueCode,
      size_statementsCode, size_statementsCode, numbersFit_statementsCode inputCount thenBody,
      numbersFit_statementsCode inputCount elseBody]
    apply and_congr_left'
    omega
  | print args span =>
    rw [statementCode]
    simp [Expr.nested, numbersFit_valuesCode, Instruction.number?, Expr.Oversized]
    omega
  | hello span =>
    rw [statementCode, greetingCode]
    split <;> simp [Expr.nested, Instruction.number?, Expr.Oversized]
  | _ =>
    rw [statementCode]
    simp [Expr.nested, numbersFit_valueCode, Instruction.number?, Expr.Oversized]

/-- The numbers of the code of statements fit exactly if no statement inside is too large. -/
theorem numbersFit_statementsCode (inputCount : Nat) (stmts : List Expr) :
    NumbersFit (statementsCode inputCount stmts) ↔
      ∀ s ∈ Expr.nestedAll stmts, ¬ s.Oversized inputCount := by
  cases stmts with
  | nil =>
    rw [statementsCode, Expr.nestedAll]
    simp
  | cons stmt stmts =>
    rw [statementsCode, Expr.nestedAll, numbersFit_append, List.forall_mem_append,
      numbersFit_statementCode inputCount stmt, numbersFit_statementsCode inputCount stmts]

end

/-- The code of a program fits exactly if the program is within the limits. -/
theorem fits_programCode_iff (p : Program) : Fits [] (programCode p) ↔ ¬ p.TooLarge := by
  rw [fits_iff, namesAfter_programCode, programCode, numbersFit_append, numbersFit_statementsCode,
    Program.TooLarge, not_or, Nat.not_lt]
  simp [Instruction.number?]

/-! ### Trees of the right shape have code -/

/-- A value of the right shape has code. -/
theorem evaluable_of_soundValue (e : Expr) (h : e.SoundValue) : Evaluable e := by
  cases e with
  | input index span => exact .input index span
  | var name inverted span => exact .var name inverted span
  | namedVar name span =>
    exact .namedVar span (evaluable_of_soundValue name (Expr.isSound_namedVar.mp h.2))
  | assign target source span =>
    obtain ⟨htarget, hsource⟩ := Expr.isSound_assign.mp h.2
    exact .assign span (evaluable_of_soundValue source hsource)
      (evaluable_of_soundValue target htarget.soundValue)
  | binary left op right span =>
    obtain ⟨hleft, hright⟩ := Expr.isSound_binary.mp h.2
    exact .binary op span (evaluable_of_soundValue left hleft)
      (evaluable_of_soundValue right hright)
  | pop target span =>
    have htarget := Expr.isSound_pop.mp h.2
    cases target with
    | var name inverted inner => exact .popVar name inverted inner span
    | namedVar name inner =>
      have hname := Expr.isSound_namedVar.mp htarget.2
      exact .popNamed inner span (evaluable_of_soundValue name hname)
    | _ => cases htarget.1
  | lengthOf operand span =>
    exact .lengthOf span (evaluable_of_soundValue operand (Expr.isSound_lengthOf.mp h.2))
  | _ => cases h.1

/-- A statement of the right shape has code. -/
theorem executable_of_soundStatement (stmt : Expr) (h : stmt.SoundStatement) :
    Executable stmt := by
  cases stmt with
  | assign target source span => exact .assign span (evaluable_of_soundValue _ ⟨rfl, h.2⟩)
  | pop target span => exact .pop span (evaluable_of_soundValue _ ⟨rfl, h.2⟩)
  | print args span =>
    have hargs := Expr.isSound_print.mp h.2
    exact .print span fun arg harg => evaluable_of_soundValue arg (hargs arg harg)
  | hello span => exact .hello span
  | exit code span => exact .exit code span
  | push e span => exact .push span (evaluable_of_soundValue e (Expr.isSound_push.mp h.2))
  | clear span => exact .clear span
  | loop condition thenBody elseBody span =>
    obtain ⟨hcondition, hthen, helse⟩ := Expr.isSound_loop.mp h.2
    refine .loop span (evaluable_of_soundValue condition hcondition) ?_ ?_
    · intro stmt hstmt
      exact executable_of_soundStatement stmt (hthen stmt hstmt)
    · intro stmt hstmt
      exact executable_of_soundStatement stmt (helse stmt hstmt)
  | _ => cases h.1

end Smil.Codegen

namespace Smil

open Assembly Bytecode Codegen

/-- The statements of a program that is read have code. -/
theorem executable_of_parse {source : String} {p : Program} (h : parse source = .ok p) :
    ∀ stmt ∈ p.statements, Executable stmt := by
  intro stmt hstmt
  exact executable_of_soundStatement stmt
    (Expr.statementsSound_iff.mp (statementsSound_of_parse h) stmt hstmt)

/-- A program that is read has the right kind of node at every place. Compiling it fails exactly if
it is beyond one of the limits, and with no other error than that it is too large; otherwise the
chunk has the size of the program and the byte that ends it, a place for every byte, and the names
that the program mentions, each once. -/
theorem compile_of_parse {source : String} {p : Program} (h : parse source = .ok p) :
    Expr.statementsSound p.statements = true ∧
    ((∃ e, Codegen.compile p = .error e) ↔ p.TooLarge) ∧
    (∀ e, Codegen.compile p = .error e →
      ∃ limit span, e = .placed (.programTooLarge limit) span) ∧
    ∀ chunk, Codegen.compile p = .ok chunk →
      chunk.code.size = p.size + 1 ∧ chunk.spans.size = chunk.code.size ∧
        chunk.names.toList = p.names := by
  have hsound := statementsSound_of_parse h
  have hexecutable : ∀ stmt ∈ p.statements, Executable stmt := by
    intro stmt hstmt
    exact executable_of_soundStatement stmt (Expr.statementsSound_iff.mp hsound stmt hstmt)
  have hcompile := compile_of_executable hexecutable
  rw [fits_programCode_iff, not_not] at hcompile
  refine ⟨hsound, ?_, ?_, ?_⟩
  · rcases hcompile with ⟨hfits, hok⟩ | ⟨hlarge, limit, span, herror⟩
    · simp [hok, hfits]
    · simp [herror, hlarge]
  · intro e he
    rcases hcompile with ⟨-, hok⟩ | ⟨-, limit, span, herror⟩
    · cases he.symm.trans hok
    · exact ⟨limit, span, Except.error.inj (he.symm.trans herror)⟩
  · intro chunk hchunk
    obtain ⟨-, -, rfl⟩ := compile_eq_ok hchunk
    have hsize : size (programCode p) = p.size + 1 := by
      rw [programCode, size_append, size_statementsCode]
      rfl
    refine ⟨?_, ?_, ?_⟩
    · simp [append, Chunk.empty, hsize]
    · simp [append, Chunk.empty]
    · simp [append, Chunk.empty, namesAfter_programCode]

/-- A loop whose condition is displaced by an assignment to a negated variable, with a pop into a
nested name and a greeting inside it. -/
def displacedCondition : String :=
  "8) ;(a:) := :L :$ 8| :v :( :(a:) :+ :$:$ :) o/ 8( :P :(b:) :$ :D 8D"

/-- The text is read, and what is read is within the limits and compiles to a chunk of its size
with its four names. -/
theorem compile_displacedCondition : ∃ p chunk, parse displacedCondition = .ok p ∧
    Expr.statementsSound p.statements = true ∧ ¬ p.TooLarge ∧
    Codegen.compile p = .ok chunk ∧ chunk.code.size = 50 ∧ chunk.spans.size = 50 ∧
    chunk.names.toList = [":$", "a", ":$:$", "b"] := by
  have hparsed : (parse displacedCondition).toOption.map (fun p => (p.size, p.names)) =
      some (49, [":$", "a", ":$:$", "b"]) := by decide +kernel
  have hok : ((parse displacedCondition).bind Codegen.compile).isOk = true := by decide +kernel
  cases hparse : parse displacedCondition with
  | error e =>
    rw [hparse] at hok
    cases hok
  | ok p =>
    rw [hparse] at hparsed hok
    obtain ⟨hsize, hnames⟩ := Prod.mk.inj (Option.some.inj hparsed)
    obtain ⟨hsound, hfails, -, hchunk⟩ := compile_of_parse hparse
    change (Codegen.compile p).isOk = true at hok
    cases hcompile : Codegen.compile p with
    | error e =>
      rw [hcompile] at hok
      cases hok
    | ok chunk =>
      obtain ⟨hcode, hspans, htable⟩ := hchunk chunk hcompile
      rw [hsize] at hcode
      refine ⟨p, chunk, rfl, hsound, ?_, hcompile, hcode, hspans.trans hcode, htable.trans hnames⟩
      intro hlarge
      obtain ⟨e, he⟩ := hfails.mpr hlarge
      cases hcompile.symm.trans he

end Smil
