import Smil.Proofs.OperandHeight

/-!
# Compiled programs never misuse the machine

In every state that a run of a compiled program reaches, the offset is the start of an
instruction, the operand stack has the height of that offset, and the instruction has the operands
that it takes. So a step fails only for a reason that lies in the program itself, and the error has
a place; and a run that ends without an error leaves no operands.

The heights are those of the source: a statement starts without operands, and evaluating a value
adds one operand to those that are there.
-/

namespace Smil

open Bytecode

namespace Codegen

open Assembly

/-! ### Where statements and values stand -/

/-- `StatementAt inputCount start stmts offset stmt` says that the code of `stmt` stands at an
offset, as one of the statements whose code starts at `start` or, at any depth, in a loop among
them. -/
inductive StatementAt (inputCount : Nat) : Nat → List Expr → Nat → Expr → Prop
  | head (start : Nat) (stmt : Expr) (rest : List Expr) :
      StatementAt inputCount start (stmt :: rest) start stmt
  | tail {start offset : Nat} {stmt first : Expr} {rest : List Expr}
      (h : StatementAt inputCount (start + size (statementCode inputCount first)) rest offset
        stmt) :
      StatementAt inputCount start (first :: rest) offset stmt
  | inThen {start offset : Nat} {stmt condition : Expr} {thenBody elseBody rest : List Expr}
      {span : Span}
      (h : StatementAt inputCount (start + size (valueCode condition) + 3) thenBody offset stmt) :
      StatementAt inputCount start (.loop condition thenBody elseBody span :: rest) offset stmt
  | inElse {start offset : Nat} {stmt condition : Expr} {thenBody elseBody rest : List Expr}
      {span : Span}
      (h : StatementAt inputCount (start + 2 * size (valueCode condition) +
        size (statementsCode inputCount thenBody) + 9) elseBody offset stmt) :
      StatementAt inputCount start (.loop condition thenBody elseBody span :: rest) offset stmt

/-- `EvaluatedAt inputCount start stmt offset e` says that a statement whose code starts at `start`
evaluates `e` by the code at an offset. The condition of a loop is evaluated at two places. -/
inductive EvaluatedAt (inputCount : Nat) : Nat → Expr → Nat → Expr → Prop
  | assign (start : Nat) (target source : Expr) (span : Span) :
      EvaluatedAt inputCount start (.assign target source span) start (.assign target source span)
  | pop (start : Nat) (target : Expr) (span : Span) :
      EvaluatedAt inputCount start (.pop target span) start (.pop target span)
  | print (start : Nat) (before : List Expr) (arg : Expr) (after : List Expr) (span : Span) :
      EvaluatedAt inputCount start (.print (before ++ arg :: after) span)
        (start + size (valuesCode before)) arg
  | push (start : Nat) (e : Expr) (span : Span) :
      EvaluatedAt inputCount start (.push e span) start e
  | condition (start : Nat) (condition : Expr) (thenBody elseBody : List Expr) (span : Span) :
      EvaluatedAt inputCount start (.loop condition thenBody elseBody span) start condition
  | again (start : Nat) (condition : Expr) (thenBody elseBody : List Expr) (span : Span) :
      EvaluatedAt inputCount start (.loop condition thenBody elseBody span)
        (start + size (valueCode condition) + 3 + size (statementsCode inputCount thenBody))
        condition

/-- `PartAt start whole offset part` says that evaluating `whole` by the code at `start` evaluates
`part` by the code at an offset. -/
inductive PartAt : Nat → Expr → Nat → Expr → Prop
  | self (start : Nat) (e : Expr) : PartAt start e start e
  | name {start offset : Nat} {e name : Expr} {span : Span} (h : PartAt start name offset e) :
      PartAt start (.namedVar name span) offset e
  | source {start offset : Nat} {e target source : Expr} {span : Span}
      (h : PartAt start source offset e) : PartAt start (.assign target source span) offset e
  | target {start offset : Nat} {e target source : Expr} {span : Span}
      (h : PartAt (start + size (valueCode source)) target offset e) :
      PartAt start (.assign target source span) offset e
  | left {start offset : Nat} {e left right : Expr} {op : Operator} {span : Span}
      (h : PartAt start left offset e) : PartAt start (.binary left op right span) offset e
  | right {start offset : Nat} {e left right : Expr} {op : Operator} {span : Span}
      (h : PartAt (start + size (valueCode left)) right offset e) :
      PartAt start (.binary left op right span) offset e
  | popName {start offset : Nat} {e name : Expr} {inner span : Span}
      (h : PartAt start name offset e) : PartAt start (.pop (.namedVar name inner) span) offset e
  | operand {start offset : Nat} {e operand : Expr} {span : Span}
      (h : PartAt start operand offset e) : PartAt start (.lengthOf operand span) offset e

variable {code : List Line} {inputCount start offset : Nat}

/-- A part of a value has its code within the value's code. -/
theorem PartAt.placed {whole e : Expr} (h : PartAt start whole offset e)
    (hwhole : Evaluable whole) (hplaced : Placed code start (valueCode whole)) :
    Evaluable e ∧ Placed code offset (valueCode e) := by
  induction h with
  | self start e => exact ⟨hwhole, hplaced⟩
  | name _ ih =>
    cases hwhole with
    | namedVar _ hname => exact ih hname hplaced.left
  | source _ ih =>
    cases hwhole with
    | assign _ hsource htarget => exact ih hsource hplaced.left
  | target _ ih =>
    cases hwhole with
    | assign _ hsource htarget => exact ih htarget hplaced.right.left
  | left _ ih =>
    cases hwhole with
    | binary _ _ hleft hright => exact ih hleft hplaced.left
  | right _ ih =>
    cases hwhole with
    | binary _ _ hleft hright => exact ih hright hplaced.right.left
  | popName _ ih =>
    cases hwhole with
    | popNamed _ _ hname => exact ih hname hplaced.left
  | operand _ ih =>
    cases hwhole with
    | lengthOf _ hoperand => exact ih hoperand hplaced.left

/-- The code of several values in two parts. -/
theorem valuesCode_append (a b : List Expr) :
    valuesCode (a ++ b) = valuesCode a ++ valuesCode b := by
  induction a with
  | nil => rfl
  | cons e a ih => simp [valuesCode, ih]

/-- The parts of a loop stand behind each other. -/
theorem placed_loopCode {condition thenBody elseBody : List Line} {span : Span}
    (h : Placed code start (loopCode condition thenBody elseBody span)) :
    Placed code start condition ∧ Placed code (start + size condition + 3) thenBody ∧
      Placed code (start + size condition + 3 + size thenBody) condition ∧
      Placed code (start + 2 * size condition + size thenBody + 9) elseBody := by
  have hthen := h.right.tail
  have hcondition := hthen.right
  have helse := hcondition.right.tail.tail
  refine ⟨h.left, hthen.left, hcondition.left, ?_⟩
  simp only [Instruction.size] at helse
  convert helse using 1
  omega

/-- Both bodies of a loop stand at the height of the loop. -/
theorem heightAt_loopCode {condition thenBody elseBody : List Line} {span : Span}
    (h : Placed code start (loopCode condition thenBody elseBody span))
    (hcondition : gain condition = 1) (hthen : gain thenBody = 0) :
    heightAt code (start + size condition + 3) = heightAt code start ∧
      heightAt code (start + 2 * size condition + size thenBody + 9) = heightAt code start := by
  let skip : Line := ⟨.jumpIfNotPositive (size thenBody + size condition + 6), span⟩
  let skipElse : Line := ⟨.jumpIfNotPositive (size elseBody + 3), span⟩
  let back : Line := ⟨.loop (size thenBody + size condition + 6), span⟩
  have hloop : loopCode condition thenBody elseBody span =
      (condition ++ [skip]) ++ ((thenBody ++ (condition ++ [skipElse, back])) ++ elseBody) := by
    simp [loopCode, skip, skipElse, back]
  rw [hloop] at h
  have hfirst := h.left.heightAt_add
  have hsecond := h.right.left.heightAt_add
  simp only [size_append, size, Instruction.size, gain_append, gain_cons, gain_nil, skip, skipElse,
    back, Instruction.pushes, Instruction.pops, hcondition, hthen] at hfirst hsecond
  constructor
  · rw [Nat.add_assoc, hfirst]
    omega
  · rw [hfirst] at hsecond
    rw [show start + 2 * size condition + size thenBody + 9 = start + (size condition + (3 + 0)) +
      (size thenBody + (size condition + (3 + (3 + 0)))) by omega, hsecond]
    omega

/-- A value that a statement evaluates has its code within the statement's code. -/
theorem EvaluatedAt.placed {stmt e : Expr} (h : EvaluatedAt inputCount start stmt offset e)
    (hstmt : Executable stmt) (hplaced : Placed code start (statementCode inputCount stmt)) :
    Evaluable e ∧ Placed code offset (valueCode e) := by
  cases h <;> rw [statementCode] at hplaced
  case assign target source span =>
    cases hstmt with
    | assign _ h => exact ⟨h, hplaced.left⟩
    | silent h => cases h
  case pop target span =>
    cases hstmt with
    | pop _ h => exact ⟨h, hplaced.left⟩
    | silent h => cases h
  case print before after span =>
    cases hstmt with
    | print _ h =>
      rw [valuesCode_append] at hplaced
      exact ⟨h e (by simp), hplaced.left.right.left⟩
    | silent h => cases h
  case push span =>
    cases hstmt with
    | push _ h => exact ⟨h, hplaced.left⟩
    | silent h => cases h
  case condition thenBody elseBody span =>
    cases hstmt with
    | loop _ hcondition _ _ => exact ⟨hcondition, (placed_loopCode hplaced).1⟩
    | silent h => cases h
  case again thenBody elseBody span =>
    cases hstmt with
    | loop _ hcondition _ _ => exact ⟨hcondition, (placed_loopCode hplaced).2.2.1⟩
    | silent h => cases h

/-- A statement at any depth has its code within the code of the statements, at height zero. -/
theorem StatementAt.placed {stmts : List Expr} {stmt : Expr}
    (h : StatementAt inputCount start stmts offset stmt) (hstmts : ∀ s ∈ stmts, Executable s)
    (hplaced : Placed code start (statementsCode inputCount stmts))
    (hheight : heightAt code start = 0) :
    Executable stmt ∧ Placed code offset (statementCode inputCount stmt) ∧
      heightAt code offset = 0 := by
  induction h with
  | head start stmt rest =>
    rw [statementsCode] at hplaced
    exact ⟨hstmts stmt List.mem_cons_self, hplaced.left, hheight⟩
  | tail _ ih =>
    rw [statementsCode] at hplaced
    have hfirst := (balanced_statementCode inputCount (hstmts _ List.mem_cons_self)).1
    refine ih (fun s hs => hstmts s (List.mem_cons_of_mem _ hs)) hplaced.right ?_
    rw [hplaced.left.heightAt_add, hheight, hfirst, Int.add_zero]
  | inThen _ ih =>
    rw [statementsCode, statementCode] at hplaced
    cases hstmts _ List.mem_cons_self with
    | loop _ hcondition hthen helse =>
      have hgainThen := (balanced_statementsCode inputCount hthen).1
      have hheights := heightAt_loopCode hplaced.left (gain_valueCode hcondition) hgainThen
      exact ih hthen (placed_loopCode hplaced.left).2.1 (hheights.1.trans hheight)
    | silent h => cases h
  | inElse _ ih =>
    rw [statementsCode, statementCode] at hplaced
    cases hstmts _ List.mem_cons_self with
    | loop _ hcondition hthen helse =>
      have hgainThen := (balanced_statementsCode inputCount hthen).1
      have hheights := heightAt_loopCode hplaced.left (gain_valueCode hcondition) hgainThen
      exact ih helse (placed_loopCode hplaced.left).2.2.2 (hheights.2.trans hheight)
    | silent h => cases h

end Codegen

namespace Machine

open Assembly

/-! ### What a run reaches -/

/-- The offsets at which instructions start, when a chunk is read from its start on. -/
inductive Boundary (chunk : Chunk) : Nat → Prop
  | start : Boundary chunk 0
  | next {ip next : Nat} {i : Instruction} (h : Boundary chunk ip)
      (hfetch : Instruction.fetch chunk ip = .ok (i, next)) : Boundary chunk next

/-- The end of code that a chunk holds is a boundary if the code's start is one. -/
theorem Boundary.of_holds {chunk : Chunk} {offset : Nat} {code : List Line}
    (h : Boundary chunk offset) (hholds : Holds chunk offset code) :
    Boundary chunk (offset + size code) := by
  induction code generalizing offset with
  | nil => exact h
  | cons l code ih =>
    obtain ⟨⟨hfetch, -⟩, hrest⟩ := hholds
    have hnext := ih (h.next hfetch) hrest
    rwa [Nat.add_assoc] at hnext

/-- A machine at an offset keeps to the heights of the code: a line starts at the offset, and the
operand stack has the height of the line. -/
structure Tracks (code : List Line) (ip : Nat) (m : Machine) : Prop where
  reaches : Reaches code ip m.operands.length
  valid : m.Valid

variable {chunk : Chunk} {code : List Line} {ip : Nat} {m m' : Machine}

/-- Where the run is, there is a line that has what it needs. -/
theorem Tracks.admits (h : Tracks code ip m) (hadmits : AdmitsAll code [] code) :
    ∃ before l after, code = before ++ l :: after ∧ size before = ip ∧
      gain before = m.operands.length ∧ Admits code before l := by
  obtain ⟨before, l, after, hcode, hsize, hgain⟩ := h.reaches
  exact ⟨before, l, after, hcode, hsize, hgain, hadmits.admits hcode⟩

/-- What can follow a step: another line of the code at its height, the end without operands, or a
failure that lies in the program. -/
def Keeps (code : List Line) : EStateM.Result Cause Machine Progress → Prop
  | .ok (.goto ip) m => Tracks code ip m
  | .ok (.stop _) m => m.operands = []
  | .error cause _ => cause.isRaised = true

/-- A step keeps to the heights of the code. -/
theorem Tracks.step (h : Tracks code ip m) (hholds : Holds chunk 0 code)
    (hadmits : AdmitsAll code [] code) : Keeps code (step chunk ip m) := by
  obtain ⟨before, l, after, hcode, rfl, hgain, hline⟩ := h.admits hadmits
  have hholds' := hholds.line hcode
  rw [Nat.zero_add] at hholds'
  rw [step_of_holds hholds']
  have hpops : l.instruction.pops ≤ m.operands.length := by
    have hoperands := hline.operands
    omega
  have houtcome := execute_outcome h.valid hpops hline.back
  revert houtcome
  rcases execute l.instruction (size before + l.instruction.size) m with ⟨_ | _, m'⟩ | ⟨cause, m'⟩
  · rintro ⟨hip, hvalid, hlength⟩
    refine ⟨?_, hvalid⟩
    have hreaches := hline.targets _ hip
    rw [gain_append, gain_cons, gain_nil, hgain] at hreaches
    convert hreaches using 1
    omega
  · rintro ⟨hnil, rfl⟩
    have hzero := hline.stop hnil
    rw [hgain] at hzero
    exact List.eq_nil_of_length_eq_zero (by omega)
  · rintro ⟨hraised, -⟩
    exact hraised

/-- Steps keep to the heights of the code. -/
theorem Tracks.steps {a b : Nat × Machine} (hsteps : Steps chunk a b) (h : Tracks code a.1 a.2)
    (hholds : Holds chunk 0 code) (hadmits : AdmitsAll code [] code) : Tracks code b.1 b.2 := by
  induction hsteps with
  | refl => exact h
  | tail _ hstep ih =>
    have hkeeps := ih.step hholds hadmits
    rw [hstep] at hkeeps
    exact hkeeps

/-- A run that keeps to the heights of the code is at the start of an instruction. -/
theorem Tracks.boundary (h : Tracks code ip m) (hholds : Holds chunk 0 code) :
    Boundary chunk ip := by
  obtain ⟨before, l, after, hcode, rfl, -⟩ := h.reaches
  rw [hcode, holds_append] at hholds
  simpa using Boundary.start.of_holds hholds.1

/-- The operand stack has the height of the offset. -/
theorem Tracks.length_operands (h : Tracks code ip m) :
    (m.operands.length : Int) = heightAt code ip := by
  obtain ⟨before, l, after, rfl, rfl, hgain⟩ := h.reaches
  rw [heightAt_size, hgain]

/-- The instruction has a place in the source. -/
theorem Tracks.isSome_span (h : Tracks code ip m) (hholds : Holds chunk 0 code) :
    (chunk.spans[ip]?).isSome = true := by
  obtain ⟨before, l, after, hcode, rfl, -⟩ := h.reaches
  have hholds' := hholds.line hcode
  rw [Nat.zero_add] at hholds'
  rw [(holds_singleton.mp hholds').2]
  rfl

/-- How a run of well-behaved code can end: without operands, or with a placed error whose reason
lies in the program. -/
def EndsWell : Except Error Completion × Machine → Prop
  | (.ok _, m) => m.operands = []
  | (.error e, _) => e.cause.isRaised = true ∧ e.span.isSome = true

/-- A run that starts at a line of the code, at the height of the line, ends well. -/
theorem Tracks.runFrom {budget : Nat} {r : Except Error Completion × Machine}
    (h : Tracks code ip m) (hholds : Holds chunk 0 code) (hadmits : AdmitsAll code [] code)
    (hrun : runFrom chunk budget ip m = some r) : EndsWell r := by
  induction budget generalizing ip m with
  | zero => cases hrun
  | succ budget ih =>
    have hkeeps := h.step hholds hadmits
    rw [Machine.runFrom] at hrun
    split at hrun
    · rename_i hstep
      rw [hstep] at hkeeps
      exact ih hkeeps hrun
    · rename_i hstep
      rw [hstep] at hkeeps
      cases hrun
      exact hkeeps
    · rename_i hstep
      rw [hstep] at hkeeps
      cases hrun
      exact ⟨hkeeps, h.isSome_span hholds⟩

/-- A run of a compiled program starts at its first line, without operands. -/
theorem Tracks.start (p : Program) (hm : m.memory.Valid) :
    Tracks (Codegen.programCode p) 0 { m with operands := [] } := by
  have hne : Codegen.programCode p ≠ [] := by simp [Codegen.programCode]
  exact ⟨reaches_of_append (List.nil_append _).symm hne, Valid.start hm⟩

end Machine

open Assembly Codegen Machine

/-- A compiled program keeps to the heights of its source. A statement at any depth starts without
operands, and a value leaves one more operand than there was. In every state that a run reaches,
the offset is the start of an instruction and determines the number of operands; a step that fails
does so for a reason that lies in the program, at a place, and a step that ends the run leaves no
operands. So do the runs as a whole, except that the flush at the end can fail too. -/
theorem operands_of_compile {p : Program} {chunk : Chunk}
    (hcompile : Codegen.compile p = .ok chunk) {m : Machine} (hm : m.memory.Valid) :
    (∀ offset stmt, StatementAt p.inputCount 0 p.statements offset stmt →
      heightAt (programCode p) offset = 0 ∧
      ∀ start whole offset' e, EvaluatedAt p.inputCount offset stmt start whole →
        PartAt start whole offset' e →
        heightAt (programCode p) (offset' + size (valueCode e)) =
          heightAt (programCode p) offset' + 1) ∧
    (∀ ip m', Steps chunk (0, { m with operands := [] }) (ip, m') →
      Boundary chunk ip ∧ (m'.operands.length : Int) = heightAt (programCode p) ip ∧
      (∀ cause last, step chunk ip m' = .error cause last →
        cause.isRaised = true ∧ (chunk.spans[ip]?).isSome = true) ∧
      ∀ c last, step chunk ip m' = .ok (.stop c) last → last.operands = []) ∧
    ∀ budget result last, m.run budget chunk = some (result, last) →
      EndsWell (result, last) ∨
        result = .error (.unplaced (.output Sink.flushDetail)) ∧ last.operands = [] := by
  obtain ⟨hexecutable, -, -⟩ := compile_eq_ok hcompile
  have hholds := holds_of_compile hcompile
  have hadmits := admitsAll_programCode hexecutable
  refine ⟨fun offset stmt hstmt => ?_, fun ip m' hsteps => ?_, fun budget result last hrun => ?_⟩
  · have hplaced : Placed (programCode p) 0 (statementsCode p.inputCount p.statements) :=
      ⟨[], _, rfl, rfl⟩
    obtain ⟨hstmt', hplaced', hheight⟩ :=
      hstmt.placed hexecutable hplaced (heightAt_size [] (programCode p))
    refine ⟨hheight, fun start whole offset' e hwhole hpart => ?_⟩
    obtain ⟨hwhole', hplacedWhole⟩ := hwhole.placed hstmt' hplaced'
    obtain ⟨he, hplacedPart⟩ := hpart.placed hwhole' hplacedWhole
    rw [hplacedPart.heightAt_add, gain_valueCode he]
  · have htracks := Tracks.steps hsteps (Tracks.start p hm) hholds hadmits
    have hkeeps := htracks.step hholds hadmits
    refine ⟨htracks.boundary hholds, htracks.length_operands, fun cause last hstep => ?_,
      fun c last hstep => ?_⟩
    · rw [hstep] at hkeeps
      exact ⟨hkeeps, htracks.isSome_span hholds⟩
    · rw [hstep] at hkeeps
      exact hkeeps
  · unfold Machine.run at hrun
    split at hrun
    · rename_i result' last' hfrom
      have hends := (Tracks.start p hm).runFrom hholds hadmits hfrom
      cases hrun
      cases result' with
      | error e => exact Or.inl hends
      | ok c =>
        by_cases hflush : last.out.flushFails = true
        · exact Or.inr ⟨by simp [flushed, hflush], hends⟩
        · have hok : last.flushed (.ok c) = .ok c := by simp [flushed, hflush]
          rw [hok]
          exact Or.inl hends
    · cases hrun

/-- A loop that prints a variable and the sum of the variable and a popped object. -/
def poppedInLoop : Program :=
  let x : Expr := .var "x" false .nowhere
  ⟨[.loop (.lengthOf x .nowhere)
    [.print [x, .binary x .add (.pop x .nowhere) .nowhere] .nowhere] [] .nowhere], 0⟩

/-- The body of the loop starts without operands, and the pop adds one to the two operands below
it; the offset determines the number of operands throughout. -/
theorem operands_poppedInLoop : ∃ chunk, Codegen.compile poppedInLoop = .ok chunk ∧
    (Machine.new .unlimited).memory.Valid ∧
    heightAt (programCode poppedInLoop) 7 = 0 ∧
    heightAt (programCode poppedInLoop) 16 = heightAt (programCode poppedInLoop) 13 + 1 ∧
    ∀ ip m, Steps chunk (0, Machine.new .unlimited) (ip, m) →
      (m.operands.length : Int) = heightAt (programCode poppedInLoop) ip := by
  have hok : (Codegen.compile poppedInLoop).isOk = true := by decide +kernel
  cases hcompile : Codegen.compile poppedInLoop with
  | error e =>
    rw [hcompile] at hok
    cases hok
  | ok chunk =>
    have hvalid := Memory.new_valid .unlimited
    obtain ⟨hheights, hsteps, -⟩ := operands_of_compile hcompile hvalid
    obtain ⟨hbody, hvalues⟩ := hheights 7 _ (.inThen (.head _ _ _))
    have hpop := hvalues 10 _ 13 _ (.print _ [_] _ [] _) (.right (.self _ _))
    exact ⟨chunk, rfl, hvalid, hbody, hpop, fun ip m h => (hsteps ip m h).2.1⟩

end Smil
