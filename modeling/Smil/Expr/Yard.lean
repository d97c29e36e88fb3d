import Smil.Error
import Smil.Expr.Basic

/-!
# Operator chains

A chain is a row of operands joined by operators. Its tree is built in two passes. The first puts
the row, read from left to right, into postfix order: an operand goes straight to the output queue,
and an operator waits until one comes that binds no more tightly, or until the row ends. So equal
precedences group to the left. The second pass runs over the queue with a stack of trees, on which
each operator takes the two topmost as its sides.
-/

namespace Smil.Expr

/-- A word of an operator chain. -/
inductive Item where
  | operand (e : Expr)
  | operator (op : Operator) (span : Span)
deriving Repr, Inhabited

/-- A chain in the first pass: the output queue, the last word first, and the operators that wait,
the innermost first. -/
structure Yard where
  queue : List Item
  waiting : List (Operator × Span)
deriving Repr, Inhabited

namespace Yard

/-- A chain of one operand. -/
def single (e : Expr) : Yard :=
  ⟨[.operand e], []⟩

/-- Moves the waiting operators that bind before `op` to the queue. -/
def release (op : Operator) : List Item → List (Operator × Span) → Yard
  | queue, [] => ⟨queue, []⟩
  | queue, (top, span) :: waiting =>
    if top.bindsBefore op then release op (.operator top span :: queue) waiting
    else ⟨queue, (top, span) :: waiting⟩

/-- Adds an operator and the operand after it. -/
def push (yard : Yard) (op : Operator) (span : Span) (operand : Expr) : Yard :=
  let released := release op yard.queue yard.waiting
  ⟨.operand operand :: released.queue, (op, span) :: released.waiting⟩

/-- The whole chain in postfix order: the queue, and behind it the operators that still wait. -/
def output (yard : Yard) : List Item :=
  (yard.waiting.foldl (fun queue w => .operator w.1 w.2 :: queue) yard.queue).reverse

/-- Runs over words in postfix order with a stack of trees. It fails at an operator for which there
are not two trees. -/
def build : List Item → List Expr → Except Error (List Expr)
  | [], trees => .ok trees
  | .operand e :: items, trees => build items (e :: trees)
  | .operator op span :: items, right :: left :: trees =>
    build items (.binary left op right span :: trees)
  | .operator op span :: _, _ => .error (.placed (.expectedOperand op.text) span)

/-- The tree of a chain. It fails at the chain's first operator if there is not one tree in the
end. -/
def tree (yard : Yard) (first : Operator × Span) : Except Error Expr :=
  match build yard.output [] with
  | .ok [e] => .ok e
  | .ok _ => .error (.placed (.expectedOperand first.1.text) first.2)
  | .error e => .error e

end Yard

end Smil.Expr
