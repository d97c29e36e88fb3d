import Smil.Cursor
import Smil.Error
import Smil.Expr.Display
import Smil.Expr.Yard

/-!
# Reading programs

Recursive descent over the tokens of a cursor. Nesting is open: each construct takes the reader
`sub` of the expressions inside it, and `expression` ties the knot on a budget. A construct
consumes its sigil before it reads what is inside, so a budget of the number of unread
characters is never used up early; where it is used up no text is left, and each reader then
answers as it does at the end of the input.

Names and comments are plain characters, not tokens. The last expression that is no statement is
pending: it is the target of an assignment sigil that follows.
-/

namespace Smil.Expr.Parser

/-- The state of reading: what is left, the pending target, and one more than the highest input
index seen. -/
structure Reading where
  cursor : Cursor
  pending : Option Expr
  inputCount : Nat
deriving Inhabited

/-- A reader consumes text and yields a result or the first error. -/
abbrev Reader := StateT Reading (Except Error)

/-- Reads the next token. -/
def nextToken : Reader Token := do
  let s ← get
  let (token, cursor) := s.cursor.token
  set { s with cursor }
  return token

/-- Looks at the next token. -/
def peekToken : Reader Token := do
  return (← get).cursor.peek

/-- Looks at the next token, if it is an operator. -/
def peekOperator : Reader (Option (Operator × Span)) := do
  let token ← peekToken
  return token.kind.operator?.map fun op => (op, token.span)

/-- Remembers an expression as the target of an assignment that may follow. -/
def setPending (e : Expr) : Reader Unit :=
  modify fun s => { s with pending := some e }

/-- Adds a statement to a body held in reverse; anything else becomes pending. -/
def collect (e : Expr) (body : List Expr) : Reader (List Expr) := do
  if e.isStatement then
    return e :: body
  else
    setPending e
    return body

/-- Accepts only an expression that yields a value. -/
def expectValue (e : Expr) : Reader Expr :=
  if e.yieldsValue then return e
  else throw (.placed (.expectedValue e.display) e.span)

/-- Accepts only an expression that names a variable. -/
def expectAssignable (e : Expr) : Reader Expr :=
  if e.isAssignable then return e
  else throw (.placed (.invalidTarget e.display) e.span)

/-- Reads an expression that yields a value. -/
def value (sub : Reader Expr) : Reader Expr := do
  expectValue (← sub)

/-- Reads the given sigil. -/
def expectSigil (sigil : Sigil) : Reader Unit := do
  let token ← nextToken
  if token.kind = .sigil sigil then return ()
  else throw (.placed (.expectedToken sigil.text token.text) token.span)

/-- Fails on a token that starts nothing. -/
def unexpected (token : Token) : Reader Expr :=
  throw (.placed (.unexpectedToken token.text) token.span)

/-- How the text behind the opening sigil of a variable goes on. -/
inductive NameScan where
  /-- A closing sigil ends the name, and the cursor stands behind that sigil. -/
  | closed (name : List Char) (after : Cursor)
  /-- Only white space precedes another opening sigil, at which the cursor stands. -/
  | nested (inside : Cursor)
  /-- The input ends before the name does. -/
  | unterminated
  /-- There is no character where a token has been seen. -/
  | missing
deriving Repr, Inhabited

/-- Reads a name character by character up to a token that ends it. `name` holds in reverse what has
been read. -/
def scanName : List Char → List Char → Position → NameScan
  | rest, name, position =>
    let cursor : Cursor := ⟨rest, position⟩
    let kind := cursor.peek.kind
    if kind = .sigil .varEnd then
      .closed name.reverse cursor.token.2
    else if kind = .sigil .varStart && (Text.trimChars name.reverse).isEmpty then
      .nested (cursor.skipWhile Cursor.isGap)
    else if kind = .endOfInput then
      .unterminated
    else
      match rest with
      | [] => .missing
      | c :: rest => scanName rest (c :: name) (position.after c)

/-- Reads a variable after its opening sigil. The name is the text that is read, trimmed, or the
value of a nested expression. -/
def variableRef (sub : Reader Expr) (inverted : Bool) (span : Span) : Reader Expr := do
  let s ← get
  match scanName s.cursor.rest [] s.cursor.position with
  | .closed name after =>
    set { s with cursor := after }
    return .var (String.ofList (Text.trimChars name)) inverted span
  | .nested inside =>
    set { s with cursor := inside }
    let name ← value sub
    expectSigil .varEnd
    return .namedVar name span
  | .unterminated | .missing => throw (.placed (.unterminated "variable") span)

/-- Counts the input sigils that follow each other without a gap, starting from `count`. -/
def inputRun (count : Nat) : List Char → Nat
  | ':' :: '$' :: rest => inputRun (count + 1) rest
  | _ => count

/-- Reads an input after its first sigil: each further sigil raises the index by one. -/
def inputRef (span : Span) : Reader Expr := do
  let s ← get
  let index := inputRun 0 s.cursor.rest
  set { s with cursor := s.cursor.skip (2 * index), inputCount := max s.inputCount (index + 1) }
  return .input index span

/-- Reads an assignment after its sigil. Its target is the pending expression. -/
def assignment (sub : Reader Expr) (span : Span) : Reader Expr := do
  match (← get).pending with
  | none => throw (.placed .missingTarget span)
  | some e =>
    let target ← expectAssignable e
    return .assign target (← value sub) span

/-- Reads a comment after its sigil. -/
def commentLine (span : Span) : Reader Expr := do
  let s ← get
  let (text, cursor) := s.cursor.readLine
  set { s with cursor }
  return .comment text span

/-- Reads the arguments of a print up to its closing sigil. -/
def printArgs (sub : Reader Expr) (span : Span) : Nat → List Expr → Reader (List Expr)
  | 0, _ => throw (.placed (.unterminated "print") span)
  | budget + 1, args => do
    match (← peekToken).kind with
    | .sigil .printEnd =>
      discard nextToken
      return args.reverse
    | .endOfInput | .sigil .programEnd => throw (.placed (.unterminated "print") span)
    | _ =>
      let arg ← value sub
      printArgs sub span budget (arg :: args)

/-- Reads the expressions before the first bar of a loop and returns the last. Each one that
another follows becomes pending, so that the condition may be an assignment. -/
def loopCondition (sub : Reader Expr) (span : Span) : Nat → Option Expr → Reader (Option Expr)
  | 0, _ => throw (.placed (.unterminated "loop") span)
  | budget + 1, last => do
    match (← peekToken).kind with
    | .sigil .loopThen =>
      discard nextToken
      return last
    | .endOfInput | .sigil .programEnd => throw (.placed (.unterminated "loop") span)
    | _ =>
      match last with
      | some e => setPending e
      | none => pure ()
      let e ← sub
      loopCondition sub span budget (some e)

/-- Reads the statements of a loop section up to its closing sigil. -/
def loopSection (sub : Reader Expr) (closing : Sigil) (span : Span) :
    Nat → List Expr → Reader (List Expr)
  | 0, _ => throw (.placed (.unterminated "loop") span)
  | budget + 1, body => do
    let token ← peekToken
    if token.kind = .sigil closing then
      discard nextToken
      return body.reverse
    else
      match token.kind with
      | .sigil .loopThen | .sigil .loopElse | .sigil .loopEnd =>
        throw (.placed (.expectedToken closing.text token.text) token.span)
      | .endOfInput | .sigil .programEnd => throw (.placed (.unterminated "loop") span)
      | _ =>
        let e ← sub
        let body ← collect e body
        loopSection sub closing span budget body

/-- Reads a loop after its opening sigil. -/
def loopStatement (sub : Reader Expr) (budget : Nat) (span : Span) : Reader Expr := do
  match ← loopCondition sub span budget none with
  | none => throw (.placed (.expectedValue "an empty loop condition") span)
  | some e =>
    let condition ← expectValue e
    let thenBody ← loopSection sub .loopElse span budget []
    let elseBody ← loopSection sub .loopEnd span budget []
    return .loop condition thenBody elseBody span

/-- Reads what the sigil of `token` introduces. -/
def construct (sub : Reader Expr) (budget : Nat) (token : Token) : Reader Expr :=
  match token.kind with
  | .sigil .varStart => variableRef sub false token.span
  | .sigil .negatedVarStart => variableRef sub true token.span
  | .sigil .input => inputRef token.span
  | .sigil .assign => assignment sub token.span
  | .sigil .comment => commentLine token.span
  | .sigil .printStart => return .print (← printArgs sub token.span budget []) token.span
  | .sigil .hello => return .hello token.span
  | .sigil .nop => return .nop token.span
  | .sigil .exit => return .exit 0 token.span
  | .sigil .stackPush => return .push (← value sub) token.span
  | .sigil .stackPop => do return .pop (← expectAssignable (← sub)) token.span
  | .sigil .stackClear => return .clear token.span
  | .sigil .loopStart => loopStatement sub budget token.span
  | .sigil .lengthOf => return .lengthOf (← value sub) token.span
  | _ => unexpected token

/-- Reads an operand inside an operator chain: a variable, an input or a length. -/
def operand (sub : Reader Expr) : Reader Expr := do
  let token ← nextToken
  match token.kind with
  | .sigil .varStart => variableRef sub false token.span
  | .sigil .negatedVarStart => variableRef sub true token.span
  | .sigil .input => inputRef token.span
  | .sigil .lengthOf => return .lengthOf (← value sub) token.span
  | _ => throw (.placed (.expectedOperand token.text) token.span)

/-- Reads the operators and operands that continue a chain, and builds its tree. -/
def operators (sub : Reader Expr) (first : Operator × Span) : Nat → Yard → Reader Expr
  | 0, yard => yard.tree first
  | budget + 1, yard => do
    match ← peekOperator with
    | none => yard.tree first
    | some (op, span) =>
      discard nextToken
      let e ← operand sub
      operators sub first budget (yard.push op span e)

/-- Reads a construct and the operator chain that it may start. -/
def chained (sub : Reader Expr) (budget : Nat) : Reader Expr := do
  let token ← nextToken
  let e ← construct sub budget token
  match ← peekOperator with
  | none => return e
  | some first => operators sub first budget (.single (← expectValue e))

/-- Reads an expression. The budget bounds how deep expressions nest and how long they are. -/
def expression : Nat → Reader Expr
  | 0 => do unexpected (← nextToken)
  | budget + 1 => chained (expression budget) budget

/-- Reads statements up to the end marker or the end of the input. -/
def statementsFrom (sub : Reader Expr) : Nat → List Expr → Reader (List Expr)
  | 0, body => return body.reverse
  | budget + 1, body => do
    match (← peekToken).kind with
    | .endOfInput | .sigil .programEnd => return body.reverse
    | _ =>
      let e ← sub
      let body ← collect e body
      statementsFrom sub budget body

/-- Reads a program: an optional start marker, then statements. -/
def program (budget : Nat) : Reader Program := do
  if (← peekToken).kind = .sigil .programStart then
    discard nextToken
  let statements ← statementsFrom (expression budget) budget []
  return ⟨statements, (← get).inputCount⟩

end Smil.Expr.Parser

namespace Smil

/-- Reads a whole source. -/
def parse (source : String) : Except Error Program :=
  let cursor := Cursor.ofString source
  (Expr.Parser.program cursor.rest.length).run' ⟨cursor, none, 0⟩

end Smil
