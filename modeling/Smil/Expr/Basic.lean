import Smil.Token

/-!
# Expressions

There is one kind of tree for everything the language says. An expression is a statement if it
does something on its own, yields a value if it can stand as an operand, and is assignable if it
names a variable; an assignment and a pop are both statement and value.
-/

namespace Smil

/-- A node of a program. The span is that of the sigil that introduces the node. -/
inductive Expr where
  /-- The rest of a line. -/
  | comment (text : String) (span : Span)
  /-- The input with the given index. -/
  | input (index : Nat) (span : Span)
  /-- A variable by name; an inverted one turns an assignment into a truth test. -/
  | var (name : String) (inverted : Bool) (span : Span)
  /-- A variable whose name is the text of a value. -/
  | namedVar (name : Expr) (span : Span)
  /-- Stores a value in a variable. -/
  | assign (target value : Expr) (span : Span)
  /-- An operator applied to two values; the span is the operator's. -/
  | binary (left : Expr) (op : Operator) (right : Expr) (span : Span)
  /-- Prints values on one line. -/
  | print (args : List Expr) (span : Span)
  /-- Greets the first input, or the world. -/
  | hello (span : Span)
  /-- Does nothing. -/
  | nop (span : Span)
  /-- Ends the program with a status. -/
  | exit (code : Int32) (span : Span)
  /-- Pushes a value onto the evaluation stack. -/
  | push (value : Expr) (span : Span)
  /-- Pops the evaluation stack into a variable. -/
  | pop (target : Expr) (span : Span)
  /-- Empties the evaluation stack. -/
  | clear (span : Span)
  /-- Repeats `thenBody` while the condition is positive; runs `elseBody` if it never was. -/
  | loop (condition : Expr) (thenBody elseBody : List Expr) (span : Span)
  /-- The number of characters of a value's text. -/
  | lengthOf (operand : Expr) (span : Span)
  /-- A token that starts nothing. -/
  | unknown (token : Token)
deriving Repr, Inhabited

namespace Expr

/-- Where a node stands. -/
def span : Expr → Span
  | comment _ span | input _ span | var _ _ span | namedVar _ span | assign _ _ span
  | binary _ _ _ span | print _ span | hello span | nop span | exit _ span | push _ span
  | pop _ span | clear span | loop _ _ _ span | lengthOf _ span => span
  | unknown token => token.span

/-- Whether a node names a variable. -/
def isAssignable : Expr → Bool
  | var .. | namedVar .. => true
  | _ => false

/-- Whether a node does something on its own. -/
def isStatement : Expr → Bool
  | assign .. | print .. | hello _ | exit .. | loop .. | push .. | pop .. | clear _ => true
  | _ => false

/-- Whether a node evaluates to an object. -/
def yieldsValue : Expr → Bool
  | input .. | var .. | namedVar .. | assign .. | binary .. | pop .. | lengthOf .. => true
  | _ => false

/-- Whether a node is an inverted variable. -/
def isInverted : Expr → Bool
  | var _ inverted _ => inverted
  | _ => false

end Expr

/-- A program: its statements, and one more than the highest input index it mentions. -/
structure Program where
  statements : List Expr
  inputCount : Nat
deriving Repr, Inhabited

end Smil
