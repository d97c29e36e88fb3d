import Mathlib.Data.List.Perm.Subperm
import Smil.Proofs.Consumption

/-!
# Reading as a machine with open calls

The readers of programs nest and repeat on a budget, so nothing is to be learned from the fact that
they end. Here reading is a machine without one. A call that waits for the answer of another is
open, and a step of the machine opens a call, answers the last one that is open, or lets it go on
with the next turn of its loop. Nothing in the machine makes it stop.

What it cannot do is stay where it is. The weight of a call is its number of unread characters, with
a rank as a tie-break: a loop may look at a token and call for an expression before it has read
anything, but an expression takes its sigil first. Whatever a call does next has less weight than
the call itself, so weights fall from each open call to the next one, and the calls for expressions
and operands that are open at once start with different numbers of unread characters.
-/

namespace Smil

namespace Cursor

/-- A character that is taken is no longer left. -/
theorem length_next?_lt {c after : Cursor} {ch : Char} (h : c.next? = some (ch, after)) :
    after.rest.length < c.rest.length := by
  unfold next? at h
  split at h
  · cases h
  · rename_i ch' rest hrest
    cases h
    rw [hrest]
    exact Nat.lt_succ_self _

/-- An input sigil right at the cursor is also the next token: there is no gap before it. -/
theorem peek_kind_of_scan {c : Cursor} (h : c.scan.1.kind = .sigil .input) :
    c.peek.kind = .sigil .input := by
  obtain ⟨rest, position⟩ := c
  obtain ⟨tail, rfl⟩ := (scan_kind_eq_sigil _ (by decide)).mp h
  rfl

end Cursor

namespace Expr.Parser

/-- The number of characters that are left to read. -/
def Reading.unread (s : Reading) : Nat :=
  s.cursor.rest.length

end Expr.Parser

namespace Descent

open Expr.Parser

/-! ### What a call does -/

/-- One of the two bodies of a loop, with what has been read of the loop before it. -/
inductive Branch where
  | first (condition : Expr)
  | second (condition : Expr) (thenBody : List Expr)

/-- The sigil behind a body. -/
def Branch.closing : Branch → Sigil
  | first _ => .loopElse
  | second _ _ => .loopEnd

/-- A point at which reading can be called, or comes round again with what it has read so far. -/
inductive Point where
  | program
  | statements (body : List Expr)
  | expression
  | operand
  | name (inverted : Bool) (span : Span) (read : List Char)
  | inputs (span : Span) (index : Nat)
  | arguments (span : Span) (args : List Expr)
  | conditions (span : Span) (last : Option Expr)
  | branch (part : Branch) (span : Span) (body : List Expr)
  | chain (first : Operator × Span) (yard : Expr.Yard)

/-- How a call ends: with an answer for the call that made it, or with the end of all reading. -/
inductive Outcome where
  | answer (e : Expr) (s : Reading)
  | finish (program : Program)
  | fail (error : Error)

/-- What a call does from some moment on: it ends, or it makes another call and goes on with the
answer, or it goes on at a point, which is the next turn of a loop. -/
inductive Script where
  | done (outcome : Outcome)
  | call (callee : Point) (s : Reading) (next : Expr → Reading → Script)
  | again (point : Point) (s : Reading)

namespace Script

/-- Answers the call. -/
def answer (e : Expr) (s : Reading) : Script :=
  .done (.answer e s)

/-- Ends all reading with an error at a place. -/
def fail (cause : Cause) (span : Span) : Script :=
  .done (.fail (.placed cause span))

/-- Reads without a call, and goes on with what is read. -/
def reads {α : Type} (r : Reader α) (s : Reading) (next : α → Reading → Script) : Script :=
  match r s with
  | .ok (a, s) => next a s
  | .error e => .done (.fail e)

/-- Calls for an expression that yields a value. -/
def value (s : Reading) (next : Expr → Reading → Script) : Script :=
  .call .expression s fun e s => reads (expectValue e) s next

/-- What the sigil of a token introduces. -/
def construct (token : Token) (s : Reading) (next : Expr → Reading → Script) : Script :=
  match token.kind with
  | .sigil .varStart => .call (.name false token.span []) s next
  | .sigil .negatedVarStart => .call (.name true token.span []) s next
  | .sigil .input => .call (.inputs token.span 0) s next
  | .sigil .assign =>
    match s.pending with
    | none => fail .missingTarget token.span
    | some e =>
      reads (expectAssignable e) s fun target s =>
        value s fun e s => next (.assign target e token.span) s
  | .sigil .comment => reads (commentLine token.span) s next
  | .sigil .printStart => .call (.arguments token.span []) s next
  | .sigil .hello => next (.hello token.span) s
  | .sigil .nop => next (.nop token.span) s
  | .sigil .exit => next (.exit 0 token.span) s
  | .sigil .stackPush => value s fun e s => next (.push e token.span) s
  | .sigil .stackPop =>
    .call .expression s fun e s =>
      reads (expectAssignable e) s fun target s => next (.pop target token.span) s
  | .sigil .stackClear => next (.clear token.span) s
  | .sigil .loopStart => .call (.conditions token.span none) s next
  | .sigil .lengthOf => value s fun e s => next (.lengthOf e token.span) s
  | _ => fail (.unexpectedToken token.text) token.span

/-- An expression that may start an operator chain. -/
def chained (e : Expr) (s : Reading) : Script :=
  reads peekOperator s fun found s =>
    match found with
    | none => answer e s
    | some first => reads (expectValue e) s fun e s => .call (.chain first (.single e)) s answer

/-- An expression: its token, what the token introduces, and the chain that may follow. -/
def expression (s : Reading) : Script :=
  reads nextToken s fun token s => construct token s chained

/-- An operand inside an operator chain. -/
def operand (s : Reading) : Script :=
  reads nextToken s fun token s =>
    match token.kind with
    | .sigil .varStart => .call (.name false token.span []) s answer
    | .sigil .negatedVarStart => .call (.name true token.span []) s answer
    | .sigil .input => .call (.inputs token.span 0) s answer
    | .sigil .lengthOf => value s fun e s => answer (.lengthOf e token.span) s
    | _ => fail (.expectedOperand token.text) token.span

/-- Whether a token ends every construct that is still open. -/
def isEnd (kind : Token.Kind) : Bool :=
  kind = .endOfInput || kind = .sigil .programEnd

/-- A turn of the statements of a program. -/
def statements (body : List Expr) (s : Reading) : Script :=
  if isEnd s.cursor.peek.kind then
    .done (.finish ⟨body.reverse, s.inputCount⟩)
  else
    .call .expression s fun e s =>
      reads (collect e body) s fun body s => .again (.statements body) s

/-- The start of a program. -/
def program (s : Reading) : Script :=
  if s.cursor.peek.kind = .sigil .programStart then
    reads nextToken s fun _ s => .again (.statements []) s
  else
    .again (.statements []) s

/-- A turn of a name, with the characters read so far in reverse. -/
def name (inverted : Bool) (span : Span) (read : List Char) (s : Reading) : Script :=
  if s.cursor.peek.kind = .sigil .varEnd then
    reads nextToken s fun _ s =>
      answer (.var (String.ofList (Text.trimChars read.reverse)) inverted span) s
  else if s.cursor.peek.kind = .sigil .varStart && (Text.trimChars read.reverse).isEmpty then
    value { s with cursor := s.cursor.skipWhile Cursor.isGap } fun name s =>
      reads (expectSigil .varEnd) s fun _ s => answer (.namedVar name span) s
  else if s.cursor.peek.kind = .endOfInput then
    fail (.unterminated "variable") span
  else
    match s.cursor.next? with
    | none => fail (.unterminated "variable") span
    | some (c, cursor) => .again (.name inverted span (c :: read)) { s with cursor }

/-- A turn of the sigils of an input, which follow each other without a gap. -/
def inputs (span : Span) (index : Nat) (s : Reading) : Script :=
  if s.cursor.scan.1.kind = .sigil .input then
    reads nextToken s fun _ s => .again (.inputs span (index + 1)) s
  else
    answer (.input index span) { s with inputCount := max s.inputCount (index + 1) }

/-- A turn of the arguments of a print. -/
def arguments (span : Span) (args : List Expr) (s : Reading) : Script :=
  if s.cursor.peek.kind = .sigil .printEnd then
    reads nextToken s fun _ s => answer (.print args.reverse span) s
  else if isEnd s.cursor.peek.kind then
    fail (.unterminated "print") span
  else
    value s fun arg s => .again (.arguments span (arg :: args)) s

/-- Remembers a condition that another one follows. -/
def setLast : Option Expr → Reader Unit
  | some e => setPending e
  | none => pure ()

/-- A turn of the conditions of a loop. -/
def conditions (span : Span) (last : Option Expr) (s : Reading) : Script :=
  if s.cursor.peek.kind = .sigil .loopThen then
    reads nextToken s fun _ s =>
      match last with
      | none => fail (.expectedValue "an empty loop condition") span
      | some e =>
        reads (expectValue e) s fun condition s => .again (.branch (.first condition) span []) s
  else if isEnd s.cursor.peek.kind then
    fail (.unterminated "loop") span
  else
    reads (setLast last) s fun _ s =>
      .call .expression s fun e s => .again (.conditions span (some e)) s

/-- The end of a body of a loop: the second one follows the first. -/
def close (span : Span) (body : List Expr) : Branch → Reading → Script
  | .first condition, s => .again (.branch (.second condition body) span []) s
  | .second condition thenBody, s => answer (.loop condition thenBody body span) s

/-- A turn of a body of a loop. -/
def branch (part : Branch) (span : Span) (body : List Expr) (s : Reading) : Script :=
  if s.cursor.peek.kind = .sigil part.closing then
    reads nextToken s fun _ s => close span body.reverse part s
  else if s.cursor.peek.kind = .sigil .loopThen ∨ s.cursor.peek.kind = .sigil .loopElse ∨
      s.cursor.peek.kind = .sigil .loopEnd then
    fail (.expectedToken part.closing.text s.cursor.peek.text) s.cursor.peek.span
  else if isEnd s.cursor.peek.kind then
    fail (.unterminated "loop") span
  else
    .call .expression s fun e s =>
      reads (collect e body) s fun body s => .again (.branch part span body) s

/-- A turn of an operator chain. -/
def chain (first : Operator × Span) (yard : Expr.Yard) (s : Reading) : Script :=
  reads peekOperator s fun found s =>
    match found with
    | none => reads (yard.tree first) s answer
    | some (op, span) =>
      reads nextToken s fun _ s =>
        .call .operand s fun e s => .again (.chain first (yard.push op span e)) s

end Script

/-- What a call does at a point. -/
def body : Point → Reading → Script
  | .program => Script.program
  | .statements body => Script.statements body
  | .expression => Script.expression
  | .operand => Script.operand
  | .name inverted span read => Script.name inverted span read
  | .inputs span index => Script.inputs span index
  | .arguments span args => Script.arguments span args
  | .conditions span last => Script.conditions span last
  | .branch part span body => Script.branch part span body
  | .chain first yard => Script.chain first yard

/-! ### The machine -/

/-- A call that is open: the point it is at, where the present turn began there, and what the call
that made it does with the answer. -/
structure Frame where
  point : Point
  start : Reading
  next : Expr → Reading → Script

/-- The machine at work, with the open calls, the last one first; or the result of all reading. -/
inductive Config where
  | running (script : Script) (calls : List Frame)
  | halted (result : Except Error Program)

namespace Config

/-- The open calls. -/
def calls : Config → List Frame
  | running _ calls => calls
  | halted _ => []

/-- One step. A machine with nothing to do stays as it is, which is not an end. -/
def step : Config → Config
  | running (.done (.answer e s)) (f :: calls) => running (f.next e s) calls
  | running (.done (.finish program)) _ => halted (.ok program)
  | running (.done (.fail error)) _ => halted (.error error)
  | running (.call p s next) calls => running (body p s) (⟨p, s, next⟩ :: calls)
  | running (.again p s) (f :: calls) => running (body p s) (⟨p, s, f.next⟩ :: calls)
  | c => c

/-- The machine after a number of steps. -/
def after : Nat → Config → Config
  | 0, c => c
  | n + 1, c => after n c.step

/-- The machine at the start of a source. -/
def start (source : String) : Config :=
  running (.call .program ⟨Cursor.ofString source, none, 0⟩ Script.answer) []

end Config

/-! ### Weights -/

namespace Point

/-- Whether the point is the start of an expression or of an operand. -/
def isEntry : Point → Bool
  | expression | operand => true
  | _ => false

/-- Which of two points weighs more if as much is left to read. -/
def rank : Point → Nat
  | expression | operand => 0
  | program => 2
  | _ => 1

/-- The weight of a call at a point: above all, what is left to read. -/
def weight (p : Point) (s : Reading) : Nat :=
  3 * s.unread + p.rank

/-- The start of an expression or of an operand weighs nothing but what is left to read. -/
theorem weight_of_isEntry {p : Point} (h : p.isEntry = true) (s : Reading) :
    p.weight s = 3 * s.unread := by
  cases p <;> simp_all [isEntry, weight, rank]

/-- A point inside a loop is not the start of an expression or of an operand. -/
theorem not_isEntry_of_rank {p : Point} (h : p.rank = 1) : p.isEntry = false := by
  cases p <;> simp_all [isEntry, rank]

/-- A point that is no entry weighs more than an entry, if as much is left to read. -/
theorem rank_of_not_isEntry {p : Point} (h : p.isEntry = false) : 1 ≤ p.rank := by
  cases p <;> simp_all [isEntry, rank]

/-- All points that are no entry have the same rank, except for the start of a program. -/
theorem rank_eq_one {p : Point} (h : p.isEntry = false) (hprogram : p ≠ .program) : p.rank = 1 := by
  cases p <;> simp_all [isEntry, rank]

end Point

namespace Script

variable {bound : Nat} {turns : Bool} {s : Reading}

/-- Whatever the script does, for any answers that its calls may have, is below a weight: its calls,
its further turns, which only a loop may have, and what an answer leaves to read. -/
def Below (bound : Nat) (turns : Bool) : Script → Prop
  | done (.answer _ s) => 3 * s.unread < bound
  | done _ => True
  | call p s next => p.weight s < bound ∧
    ∀ e s', 3 * s'.unread < p.weight s → (next e s').Below bound turns
  | again p s => turns = true ∧ p.isEntry = false ∧ p.weight s < bound

/-- What follows a reader may count on what the reader has consumed. -/
theorem below_reads {α : Type} {r : Reader α} {n : Nat} {P : α → Prop} (hr : Consumes n r P)
    {next : α → Reading → Script}
    (h : ∀ a s', s'.unread + n ≤ s.unread → (next a s').Below bound turns) :
    (reads r s next).Below bound turns := by
  unfold reads
  split
  · rename_i a s' hread
    exact h a s' (hr s a s' hread).2
  · trivial

/-- A token that has been seen is there to be read. -/
theorem below_token (hkind : s.cursor.peek.kind ≠ .endOfInput) {next : Token → Reading → Script}
    (h : ∀ token s', s'.unread + 2 ≤ s.unread → (next token s').Below bound turns) :
    (reads nextToken s next).Below bound turns :=
  h _ _ (two_le_of_nextToken (nextToken_eq s) hkind)

/-- At the end of the input nothing may follow the token. -/
theorem below_nextToken {next : Token → Reading → Script}
    (hend : ∀ token s', token.kind = .endOfInput → (next token s').Below bound turns)
    (h : ∀ token s', s'.unread + 2 ≤ s.unread → (next token s').Below bound turns) :
    (reads nextToken s next).Below bound turns := by
  by_cases hkind : s.cursor.peek.kind = .endOfInput
  · exact hend _ _ hkind
  · exact below_token hkind h

/-- A call for an expression or an operand leaves less to read than there was. -/
theorem below_entry {p : Point} (hp : p.isEntry = true) (hbound : 3 * s.unread < bound)
    {next : Expr → Reading → Script}
    (h : ∀ e s', s'.unread < s.unread → (next e s').Below bound turns) :
    (call p s next).Below bound turns := by
  have hweight := Point.weight_of_isEntry hp s
  refine ⟨hweight ▸ hbound, ?_⟩
  intro e s' hs'
  exact h e s' (by omega)

/-- A call for a value lies below any weight beyond what is left to read, and consumes something. -/
theorem below_value (hbound : 3 * s.unread < bound) {next : Expr → Reading → Script}
    (h : ∀ e s', s'.unread < s.unread → (next e s').Below bound turns) :
    (value s next).Below bound turns := by
  apply below_entry rfl hbound
  intro e s' hs'
  apply below_reads (consumes_expectValue e)
  intro e s'' hs''
  exact h e s'' (by omega)

/-- A loop weighs more than an expression, but not more than a character. -/
theorem below_loop {p : Point} (hp : p.rank = 1) (hbound : 3 * s.unread + 1 < bound)
    {next : Expr → Reading → Script}
    (h : ∀ e s', s'.unread ≤ s.unread → (next e s').Below bound turns) :
    (call p s next).Below bound turns := by
  have hweight : p.weight s = 3 * s.unread + 1 := by rw [Point.weight, hp]
  refine ⟨hweight ▸ hbound, ?_⟩
  intro e s' hs'
  exact h e s' (by omega)

/-- What follows a token lies below any weight beyond that of a loop that starts here. -/
theorem below_construct (token : Token) (hbound : 3 * s.unread + 1 < bound)
    {next : Expr → Reading → Script}
    (h : ∀ e s', s'.unread ≤ s.unread → (next e s').Below bound turns) :
    (construct token s next).Below bound turns := by
  have hvalue : ∀ build : Expr → Expr,
      (value s fun e s => next (build e) s).Below bound turns := by
    intro build
    apply below_value (by omega)
    intro e s' hs'
    exact h (build e) s' (Nat.le_of_lt hs')
  have hhere : ∀ e, (next e s).Below bound turns := fun e => h e s (Nat.le_refl _)
  unfold construct
  split
  case h_1 => exact below_loop rfl hbound h
  case h_2 => exact below_loop rfl hbound h
  case h_3 => exact below_loop rfl hbound h
  case h_4 =>
    split
    · trivial
    · apply below_reads (consumes_expectAssignable _)
      intro target s' hs'
      apply below_value (by omega)
      intro e s'' hs''
      exact h _ s'' (by omega)
  case h_5 =>
    apply below_reads (consumes_commentLine _)
    intro e s' hs'
    exact h e s' hs'
  case h_6 => exact below_loop rfl hbound h
  case h_7 => exact hhere _
  case h_8 => exact hhere _
  case h_9 => exact hhere _
  case h_10 => exact hvalue (.push · _)
  case h_11 =>
    apply below_entry rfl (by omega)
    intro e s' hs'
    apply below_reads (consumes_expectAssignable e)
    intro target s'' hs''
    exact h _ s'' (by omega)
  case h_12 => exact hhere _
  case h_13 => exact below_loop rfl hbound h
  case h_14 => exact hvalue (.lengthOf · _)
  case h_15 => trivial

/-- The operators behind an expression lie below any weight beyond that of a chain that starts
here. -/
theorem below_chained (e : Expr) (hbound : 3 * s.unread + 1 < bound) :
    (chained e s).Below bound turns := by
  apply below_reads consumes_peekOperator
  intro found s' hs'
  split
  · exact (by omega : 3 * s'.unread < bound)
  · apply below_reads (consumes_expectValue e)
    intro e s'' hs''
    apply below_loop rfl (by omega)
    intro e s₃ hs₃
    exact (by omega : 3 * s₃.unread < bound)

/-- The first turn of an expression lies below the expression, since its token has been consumed. -/
theorem below_expression (s : Reading) : (expression s).Below (3 * s.unread) turns := by
  apply below_nextToken
  · intro token s' hkind
    unfold construct
    rw [hkind]
    trivial
  · intro token s' hs'
    apply below_construct token (by omega)
    intro e s'' hs''
    exact below_chained e (by omega)

/-- The first turn of an operand lies below the operand. -/
theorem below_operand (s : Reading) : (operand s).Below (3 * s.unread) turns := by
  apply below_nextToken
  · intro token s' hkind
    rw [hkind]
    trivial
  · intro token s' hs'
    have hanswer : ∀ e s'', s''.unread ≤ s'.unread →
        (answer e s'').Below (3 * s.unread) turns :=
      fun e s'' hs'' => (by omega : 3 * s''.unread < 3 * s.unread)
    split
    case h_1 => exact below_loop rfl (by omega) hanswer
    case h_2 => exact below_loop rfl (by omega) hanswer
    case h_3 => exact below_loop rfl (by omega) hanswer
    case h_4 =>
      apply below_value (by omega)
      intro e s'' hs''
      exact hanswer _ s'' (Nat.le_of_lt hs'')
    case h_5 => trivial

/-! ### Turns of loops -/

/-- Another turn of a loop needs something to have been read. -/
theorem below_again {p : Point} {s' : Reading} (hp : p.rank = 1) (h : s'.unread < s.unread) :
    (again p s').Below (3 * s.unread + 1) true := by
  refine ⟨rfl, Point.not_isEntry_of_rank hp, ?_⟩
  rw [Point.weight, hp]
  omega

/-- The answer of a loop may leave all there was. -/
theorem below_answer {s' : Reading} (e : Expr) (h : s'.unread ≤ s.unread) :
    (answer e s').Below (3 * s.unread + 1) turns :=
  (by omega : 3 * s'.unread < 3 * s.unread + 1)

/-- A sigil is not the end of the text. -/
theorem ne_endOfInput {kind : Token.Kind} {sigil : Sigil} (h : kind = .sigil sigil) :
    kind ≠ .endOfInput := by
  rw [h]
  exact Token.Kind.noConfusion

/-- Each turn of a program reads something or ends the program. -/
theorem below_statements (body : List Expr) (s : Reading) :
    (statements body s).Below (3 * s.unread + 1) true := by
  unfold statements
  split
  · trivial
  · apply below_entry rfl (by omega)
    intro e s' hs'
    apply below_reads (consumes_collect e body)
    intro body s'' hs''
    exact below_again rfl (by omega)

/-- A program leads to its statements, which weigh less. -/
theorem below_program (s : Reading) : (program s).Below (3 * s.unread + 2) true := by
  have hagain : ∀ s', s'.unread ≤ s.unread →
      (again (.statements []) s').Below (3 * s.unread + 2) true := by
    intro s' hs'
    refine ⟨rfl, rfl, ?_⟩
    change 3 * s'.unread + 1 < _
    omega
  unfold program
  split
  · exact below_reads consumes_nextToken fun _ s' hs' => hagain s' hs'
  · exact hagain s (Nat.le_refl _)

/-- Each turn of a name takes a character or ends the name. -/
theorem below_name (inverted : Bool) (span : Span) (read : List Char) (s : Reading) :
    (name inverted span read s).Below (3 * s.unread + 1) true := by
  unfold name
  split
  · exact below_reads consumes_nextToken fun _ s' hs' => below_answer _ hs'
  split
  · have hskip : (s.cursor.skipWhile Cursor.isGap).rest.length ≤ s.unread :=
      (s.cursor.readsTo_skipWhile Cursor.isGap).length_le
    apply below_value
    · change 3 * (s.cursor.skipWhile Cursor.isGap).rest.length < _
      omega
    · intro name s' hs'
      change s'.unread < (s.cursor.skipWhile Cursor.isGap).rest.length at hs'
      apply below_reads (consumes_expectSigil .varEnd)
      intro _ s'' hs''
      exact below_answer _ (by omega)
  split
  · trivial
  split
  · trivial
  · rename_i c cursor hnext
    exact below_again rfl (Cursor.length_next?_lt hnext)

/-- Each turn of an input takes a sigil or ends the input. -/
theorem below_inputs (span : Span) (index : Nat) (s : Reading) :
    (inputs span index s).Below (3 * s.unread + 1) true := by
  unfold inputs
  split
  · rename_i hkind
    apply below_token (ne_endOfInput (Cursor.peek_kind_of_scan hkind))
    intro _ s' hs'
    exact below_again rfl (by omega)
  · exact below_answer _ (Nat.le_refl s.unread)

/-- Each turn of the arguments of a print reads something or ends them. -/
theorem below_arguments (span : Span) (args : List Expr) (s : Reading) :
    (arguments span args s).Below (3 * s.unread + 1) true := by
  unfold arguments
  split
  · exact below_reads consumes_nextToken fun _ s' hs' => below_answer _ hs'
  split
  · trivial
  · apply below_value (by omega)
    intro arg s' hs'
    exact below_again rfl hs'

/-- Setting the last condition aside reads nothing. -/
theorem consumes_setLast (last : Option Expr) : Consumes 0 (setLast last) fun _ => True := by
  cases last with
  | none =>
    intro s a s' hread
    cases hread
    exact ⟨trivial, Nat.le_refl _⟩
  | some e => exact consumes_setPending e

/-- Each turn of the conditions of a loop reads something or ends them. -/
theorem below_conditions (span : Span) (last : Option Expr) (s : Reading) :
    (conditions span last s).Below (3 * s.unread + 1) true := by
  unfold conditions
  split
  · rename_i hkind
    apply below_token (ne_endOfInput hkind)
    intro _ s' hs'
    split
    · trivial
    · apply below_reads (consumes_expectValue _)
      intro condition s'' hs''
      exact below_again rfl (by omega)
  split
  · trivial
  · apply below_reads (consumes_setLast last)
    intro _ s' hs'
    apply below_entry rfl (by omega)
    intro e s'' hs''
    exact below_again rfl (by omega)

/-- Each turn of a body of a loop reads something or ends it. -/
theorem below_branch (part : Branch) (span : Span) (body : List Expr) (s : Reading) :
    (branch part span body s).Below (3 * s.unread + 1) true := by
  unfold branch
  split
  · rename_i hkind
    apply below_token (ne_endOfInput hkind)
    intro _ s' hs'
    cases part with
    | first condition => exact below_again rfl (by omega)
    | second condition thenBody => exact below_answer _ (by omega)
  split
  · trivial
  split
  · trivial
  · apply below_entry rfl (by omega)
    intro e s' hs'
    apply below_reads (consumes_collect e body)
    intro body s'' hs''
    exact below_again rfl (by omega)

/-- Each turn of a chain takes an operator and an operand, or ends the chain. -/
theorem below_chain (first : Operator × Span) (yard : Expr.Yard) (s : Reading) :
    (chain first yard s).Below (3 * s.unread + 1) true := by
  apply below_reads consumes_peekOperator
  intro found s' hs'
  split
  · apply below_reads (consumes_tree yard first)
    intro e s'' hs''
    exact below_answer e (by omega)
  · apply below_reads consumes_nextToken
    intro _ s'' hs''
    apply below_entry rfl (by omega)
    intro e s₃ hs₃
    exact below_again rfl (by omega)

end Script

/-- Whatever a call does is below its weight. -/
theorem below_body (p : Point) (s : Reading) : (body p s).Below (p.weight s) (!p.isEntry) := by
  cases p with
  | program => exact Script.below_program s
  | statements body => exact Script.below_statements body s
  | expression => exact Script.below_expression s
  | operand => exact Script.below_operand s
  | name inverted span read => exact Script.below_name inverted span read s
  | inputs span index => exact Script.below_inputs span index s
  | arguments span args => exact Script.below_arguments span args s
  | conditions span last => exact Script.below_conditions span last s
  | branch part span body => exact Script.below_branch part span body s
  | chain first yard => exact Script.below_chain first yard s

/-! ### The order of the open calls -/

/-- The weight of an open call. -/
def Frame.weight (f : Frame) : Nat :=
  f.point.weight f.start

section Order

variable (size : Nat)

/-- The weight that whatever comes next is below: that of the last open call. -/
def ceiling : List Frame → Nat
  | [] => size
  | f :: _ => f.weight

/-- Whether the last open call is a loop, which may have a further turn. -/
def inLoop : List Frame → Bool
  | [] => false
  | f :: _ => !f.point.isEntry

/-- Each open call weighs less than the one that made it, and so does what follows its answer. -/
def Ordered : List Frame → Prop
  | [] => True
  | f :: calls => f.weight < ceiling size calls ∧
    (∀ e s, 3 * s.unread < f.weight → (f.next e s).Below (ceiling size calls) (inLoop calls)) ∧
    Ordered calls

/-- The open calls are in order, and what the machine does next goes on from them. -/
def Config.Falls : Config → Prop
  | running script calls =>
    script.Below (ceiling size calls) (inLoop calls) ∧ Ordered size calls
  | halted _ => True

end Order

variable {size : Nat}

/-- A step keeps the order. -/
theorem Config.Falls.step {c : Config} (h : c.Falls size) : c.step.Falls size := by
  unfold Config.step
  split
  case h_1 e s f calls =>
    obtain ⟨hanswer, _, hnext, hcalls⟩ := h
    exact ⟨hnext e s hanswer, hcalls⟩
  case h_2 => trivial
  case h_3 => trivial
  case h_4 p s next calls =>
    obtain ⟨⟨hweight, hnext⟩, hcalls⟩ := h
    exact ⟨below_body p s, hweight, hnext, hcalls⟩
  case h_5 p s f calls =>
    -- The turn takes the place of a call that weighs more, so its answers are among those foreseen.
    obtain ⟨⟨_, _, hweight⟩, hcall, hnext, hcalls⟩ := h
    refine ⟨below_body p s, Nat.lt_trans hweight hcall, ?_, hcalls⟩
    intro e s' hs'
    exact hnext e s' (Nat.lt_trans hs' hweight)
  case h_6 => exact h

/-- Any number of steps keeps the order. -/
theorem Config.Falls.after {c : Config} (h : c.Falls size) (n : Nat) : (c.after n).Falls size := by
  induction n generalizing c with
  | zero => exact h
  | succ n ih => exact ih h.step

/-- At the start there is no open call, and a program is called for. -/
theorem Config.falls_start (source : String) :
    (Config.start source).Falls (3 * source.length + 3) := by
  have hroom : Point.program.weight ⟨Cursor.ofString source, none, 0⟩ < 3 * source.length + 3 := by
    change 3 * source.toList.length + 2 < _
    rw [String.length_toList]
    omega
  refine ⟨⟨hroom, ?_⟩, trivial⟩
  intro e s hs
  exact Nat.lt_trans hs hroom

/-- What is below the last open call is below all of them. -/
theorem Ordered.lt_weight {calls : List Frame} (h : Ordered size calls) {n : Nat}
    (hn : n < ceiling size calls) : ∀ f ∈ calls, n < f.weight := by
  induction calls generalizing n with
  | nil => exact fun f hf => absurd hf List.not_mem_nil
  | cons g calls ih =>
    intro f hf
    rcases List.mem_cons.mp hf with rfl | hf
    · exact hn
    · exact ih h.2.2 (Nat.lt_trans hn h.1) f hf

/-- No open call weighs as much as the whole source allows. -/
theorem Ordered.weight_lt {calls : List Frame} (h : Ordered size calls) :
    ∀ f ∈ calls, f.weight < size := by
  induction calls with
  | nil => exact fun f hf => absurd hf List.not_mem_nil
  | cons g calls ih =>
    have hceiling : ceiling size calls ≤ size := by
      cases calls with
      | nil => exact Nat.le_refl size
      | cons g' calls => exact Nat.le_of_lt (ih h.2.2 g' List.mem_cons_self)
    intro f hf
    rcases List.mem_cons.mp hf with rfl | hf
    · exact Nat.lt_of_lt_of_le h.1 hceiling
    · exact ih h.2.2 f hf

/-- Weights rise from each open call to all that are around it. -/
theorem Ordered.pairwise {calls : List Frame} (h : Ordered size calls) :
    calls.Pairwise fun f g => f.weight < g.weight := by
  induction calls with
  | nil => exact List.Pairwise.nil
  | cons f calls ih => exact List.pairwise_cons.mpr ⟨h.2.2.lt_weight h.1, ih h.2.2⟩

/-! ### Calls for expressions and operands -/

/-- The open calls for expressions and operands. -/
def entries (calls : List Frame) : List Frame :=
  calls.filter (·.point.isEntry)

/-- The calls that are counted as entries are entries. -/
theorem isEntry_of_mem_entries {calls : List Frame} {f : Frame} (h : f ∈ entries calls) :
    f.point.isEntry = true :=
  (List.mem_filter.mp h).2

/-- Calls for expressions and operands that are open at once start with different numbers of unread
characters, so there are not more of them than characters and one. -/
theorem Ordered.length_entries_le {source : String} {calls : List Frame}
    (h : Ordered (3 * source.length + 3) calls) : (entries calls).length ≤ source.length + 1 := by
  have hrise : ((entries calls).map (·.start.unread)).Pairwise (· < ·) := by
    rw [List.pairwise_map]
    apply (h.pairwise.filter _).imp_of_mem
    intro f g hf hg hlt
    change f.point.weight f.start < g.point.weight g.start at hlt
    rw [Point.weight_of_isEntry (isEntry_of_mem_entries hf),
      Point.weight_of_isEntry (isEntry_of_mem_entries hg)] at hlt
    omega
  have hrange : (entries calls).map (·.start.unread) ⊆ List.range (source.length + 1) := by
    intro n hn
    obtain ⟨f, hf, rfl⟩ := List.mem_map.mp hn
    have hlt := h.weight_lt f (List.mem_filter.mp hf).1
    change f.point.weight f.start < _ at hlt
    rw [Point.weight_of_isEntry (isEntry_of_mem_entries hf)] at hlt
    rw [List.mem_range]
    omega
  -- Numbers that rise are distinct, and there are only so many from zero to the length.
  have hdistinct : ((entries calls).map (·.start.unread)).Nodup := hrise.imp Nat.ne_of_lt
  have hle := (hdistinct.subperm hrange).length_le
  rwa [List.length_map, List.length_range] at hle

/-- What reading has achieved at a moment, for a source of `length` characters. -/
structure Config.Progresses (length : Nat) (c : Config) : Prop where
  /-- An expression or an operand is answered with fewer unread characters than it was called
  with. -/
  answered : ∀ e s f calls, c = running (.done (.answer e s)) (f :: calls) →
    f.point.isEntry = true → s.unread < f.start.unread
  /-- A further turn is one of a loop, and it starts with fewer unread characters than the turn
  before. -/
  turned : ∀ p s f calls, c = running (.again p s) (f :: calls) →
    f.point.isEntry = false ∧ p.isEntry = false ∧
      (f.point ≠ .program → s.unread < f.start.unread)
  /-- An expression or an operand is called for with fewer unread characters than any around it. -/
  nested : ∀ p s next calls, c = running (.call p s next) calls → p.isEntry = true →
    ∀ f ∈ entries calls, s.unread < f.start.unread
  /-- Expressions and operands nest no deeper than the source has characters, and one. -/
  shallow : (entries c.calls).length ≤ length + 1

/-- Progress is what the order of the open calls comes to. -/
theorem Config.Falls.progresses {source : String} {c : Config}
    (h : c.Falls (3 * source.length + 3)) : c.Progresses source.length where
  answered := by
    rintro e s f calls rfl hf
    have hanswer : 3 * s.unread < f.point.weight f.start := h.1
    rw [Point.weight_of_isEntry hf] at hanswer
    omega
  turned := by
    rintro p s f calls rfl
    obtain ⟨hloop, hp, hweight⟩ := h.1
    have hf : f.point.isEntry = false := by simpa [inLoop] using hloop
    refine ⟨hf, hp, fun hprogram => ?_⟩
    have hrank := Point.rank_of_not_isEntry hp
    have hrank' := Point.rank_eq_one hf hprogram
    change 3 * s.unread + p.rank < 3 * f.start.unread + f.point.rank at hweight
    omega
  nested := by
    rintro p s next calls rfl hp f hf
    have hlt := h.2.lt_weight h.1.1 f (List.mem_filter.mp hf).1
    change p.weight s < f.point.weight f.start at hlt
    rw [Point.weight_of_isEntry hp, Point.weight_of_isEntry (isEntry_of_mem_entries hf)] at hlt
    omega
  shallow := by
    cases c with
    | running script calls => exact h.2.length_entries_le
    | halted result => exact Nat.zero_le _

/-- Reading makes progress at every moment. -/
theorem progresses_after (source : String) (n : Nat) :
    ((Config.start source).after n).Progresses source.length :=
  ((Config.falls_start source).after n).progresses

-- A variable with a nested name: the inner expression is open inside the outer one.
example : (entries ((Config.start ":(:(a:):)").after 6).calls).map (·.start.unread) = [7, 9] := by
  decide +kernel

end Descent

end Smil
