import Smil.Expr.Basic
import Smil.Text.Blank
import Smil.Text.Decimal

/-!
# Expressions in messages

The description of a node that error messages and program dumps show.
-/

namespace Smil.Expr

mutual

/-- The description of a node. -/
def display : Expr → String
  | comment text _ => "comment \"" ++ Text.trim text ++ "\""
  | input index _ => "input " ++ Text.decimal index
  | var name false _ => "var \"" ++ name ++ "\""
  | var name true _ => "inverted var \"" ++ name ++ "\""
  | namedVar name _ => "named var (" ++ display name ++ ")"
  | assign target value _ => "init: " ++ display target ++ " = " ++ display value
  | binary left op right _ =>
    "Binop(" ++ display left ++ " " ++ op.text ++ " " ++ display right ++ ")"
  | print args _ => displayArgs "print:" args
  | hello _ => "hello print"
  | nop _ => "nop"
  | exit code _ => "exit " ++ Text.decimal code.toInt
  | push value _ => "push: " ++ display value
  | pop target _ => "pop into: " ++ display target
  | clear _ => "clear stack"
  | loop condition thenBody elseBody _ =>
    displayBody (displayBody ("loop: | " ++ display condition ++ " | then |") thenBody ++ " else |")
      elseBody
  | lengthOf operand _ => "get length of: " ++ display operand
  | unknown token => "unknown expression '" ++ token.text ++ "'"

/-- Adds each argument to `shown` after a blank. -/
def displayArgs (shown : String) : List Expr → String
  | [] => shown
  | arg :: args => displayArgs (shown ++ " " ++ display arg) args

/-- Adds each statement of a loop body to `shown`, closed by a bar. -/
def displayBody (shown : String) : List Expr → String
  | [] => shown
  | stmt :: stmts => displayBody (shown ++ " " ++ display stmt ++ " |") stmts

end

end Smil.Expr
