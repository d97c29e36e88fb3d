import Smil.Proofs.Chains
import Smil.Proofs.Names

/-!
# The parts of readers

The readers of programs are put together from a few that look at the text or at the state
themselves. Here the others are taken apart into these. Where no text is left, a reader that repeats
answers as it does without a budget.
-/

namespace Smil.Expr.Parser

/-! ### What readers are made of -/

/-- Looks at the pending expression. -/
def pendingExpr : Reader (Option Expr) := do
  return (← get).pending

/-- Looks at the number of inputs so far. -/
def countSoFar : Reader Nat := do
  return (← get).inputCount

/-- Reads the further sigils of an input, and counts the input. -/
def inputIndex : Reader Nat := do
  let s ← get
  let index := inputRun 0 s.cursor.rest
  set { s with cursor := s.cursor.skip (2 * index), inputCount := max s.inputCount (index + 1) }
  return index

/-- Reads the rest of a line. -/
def lineText : Reader String := do
  let s ← get
  let (text, cursor) := s.cursor.readLine
  set { s with cursor }
  return text

/-- An input is its index. -/
theorem inputRef_eq (span : Span) :
    inputRef span = (do return .input (← inputIndex) span) := rfl

/-- A comment is its text. -/
theorem commentLine_eq (span : Span) :
    commentLine span = (do return .comment (← lineText) span) := rfl

/-- An assignment is its target, which is pending, and a value. -/
theorem assignment_eq (sub : Reader Expr) (span : Span) :
    assignment sub span = (do
      match ← pendingExpr with
      | none => throw (.placed .missingTarget span)
      | some e =>
        let target ← expectAssignable e
        return .assign target (← value sub) span) := rfl

/-- Reads what the sigil of `token` introduces inside an operator chain. -/
def operandBehind (sub : Reader Expr) (token : Token) : Reader Expr :=
  match token.kind with
  | .sigil .varStart => variableRef sub false token.span
  | .sigil .negatedVarStart => variableRef sub true token.span
  | .sigil .input => inputRef token.span
  | .sigil .lengthOf => return .lengthOf (← value sub) token.span
  | _ => throw (.placed (.expectedOperand token.text) token.span)

/-- An operand is its token and what this introduces. -/
theorem operand_eq (sub : Reader Expr) : operand sub = nextToken >>= operandBehind sub := rfl

/-- A program is its statements and the number of inputs behind them. -/
theorem program_eq (budget : Nat) :
    program budget = (do
      let token ← peekToken
      if token.kind = .sigil .programStart then
        discard nextToken
      let statements ← statementsFrom (expression budget) budget []
      return ⟨statements, ← countSoFar⟩) := rfl

/-! ### Names -/

/-- The cursor behind a name or in front of a nested one. -/
def NameScan.cursor? : NameScan → Option Cursor
  | closed _ after => some after
  | nested inside => some inside
  | unterminated | missing => none

/-- The scan of a name is reading on. -/
theorem readsTo_scanName {rest name : List Char} {position : Position} {c : Cursor}
    (h : (scanName rest name position).cursor? = some c) : Cursor.ReadsTo ⟨rest, position⟩ c := by
  fun_induction scanName rest name position with
  | case1 =>
    cases h
    exact Cursor.readsTo_token _
  | case2 =>
    cases h
    exact Cursor.readsTo_skipWhile _ _
  | case3 => cases h
  | case4 => cases h
  | case5 name position c rest _ _ _ _ _ ih => exact Cursor.ReadsTo.trans ⟨[c], rfl, rfl⟩ (ih h)

/-- A name is read by moving the cursor on, or it is not terminated. -/
theorem nameOrNested_cases (span : Span) (s : Reading) :
    (∃ found c, s.cursor.ReadsTo c ∧ nameOrNested span s = .ok (found, { s with cursor := c })) ∨
      nameOrNested span s = .error (.placed (.unterminated "variable") span) := by
  unfold nameOrNested
  rw [run_bind_of_ok (x := get) rfl]
  cases hscan : scanName s.cursor.rest [] s.cursor.position with
  | closed name after => exact Or.inl ⟨_, after, readsTo_scanName (by rw [hscan]; rfl), rfl⟩
  | nested inside => exact Or.inl ⟨none, inside, readsTo_scanName (by rw [hscan]; rfl), rfl⟩
  | unterminated => exact Or.inr rfl
  | missing => exact Or.inr rfl

/-! ### At the end of the text -/

section AtEnd

variable {sub : Reader Expr} {span : Span} {budget : Nat} {s : Reading} (h : s.cursor.rest = [])

include h

/-- Where no text is left, the end of the input is seen. -/
theorem peekToken_at_end : peekToken s =
    .ok (⟨.endOfInput, "", s.cursor.position.spanTo s.cursor.position⟩, s) := by
  obtain ⟨⟨rest, position⟩, pending, count⟩ := s
  obtain rfl : rest = [] := h
  rfl

/-- Where no text is left, no operator is seen. -/
theorem peekOperator_at_end : peekOperator s = .ok (none, s) := by
  unfold peekOperator
  rw [run_bind_of_ok (peekToken_at_end h)]
  rfl

/-- The arguments of a print are not closed where no text is left. -/
theorem printArgs_at_end (args : List Expr) :
    printArgs sub span budget args s = .error (.placed (.unterminated "print") span) := by
  cases budget with
  | zero => rfl
  | succ budget =>
    rw [printArgs, run_bind_of_ok (peekToken_at_end h)]
    rfl

/-- The conditions of a loop are not closed where no text is left. -/
theorem loopCondition_at_end (last : Option Expr) :
    loopCondition sub span budget last s = .error (.placed (.unterminated "loop") span) := by
  cases budget with
  | zero => rfl
  | succ budget =>
    rw [loopCondition, run_bind_of_ok (peekToken_at_end h)]
    rfl

/-- A section of a loop is not closed where no text is left. -/
theorem loopSection_at_end (closing : Sigil) (body : List Expr) :
    loopSection sub closing span budget body s = .error (.placed (.unterminated "loop") span) := by
  cases budget with
  | zero => rfl
  | succ budget =>
    rw [loopSection, run_bind_of_ok (peekToken_at_end h)]
    rfl

/-- A chain is closed where no text is left. -/
theorem chainFrom_at_end (chain : Chain) : chainFrom sub budget chain s = .ok (chain.close, s) := by
  cases budget with
  | zero => rfl
  | succ budget =>
    rw [chainFrom, run_bind_of_ok (peekOperator_at_end h)]
    rfl

/-- The statements end where no text is left. -/
theorem statementsFrom_at_end (body : List Expr) :
    statementsFrom sub budget body s = .ok (body.reverse, s) := by
  cases budget with
  | zero => rfl
  | succ budget =>
    rw [statementsFrom, run_bind_of_ok (peekToken_at_end h)]
    rfl

/-- An expression fails where no text is left, as it does without a budget. -/
theorem expression_at_end : expression budget s = expression 0 s := by
  have hnext : nextToken s =
      .ok (⟨.endOfInput, "", s.cursor.position.spanTo s.cursor.position⟩, s) := by
    obtain ⟨⟨rest, position⟩, pending, count⟩ := s
    obtain rfl : rest = [] := h
    rfl
  cases budget with
  | zero => rfl
  | succ budget =>
    rw [expression, expression, chained, run_bind_of_ok hnext, run_bind_of_ok hnext]
    rfl

end AtEnd

end Smil.Expr.Parser
