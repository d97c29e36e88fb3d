/-!
# Binary operators

The two logical operators bind tightest, then multiplication, division and remainder, then
addition and subtraction.
-/

namespace Smil

/-- A binary operator. -/
inductive Operator where
  | add
  | subtract
  | multiply
  | divide
  | modulo
  | and
  | or
deriving DecidableEq, Repr, Inhabited

/-- How tightly an operator binds. -/
inductive Precedence where
  | low
  | normal
  | high
deriving DecidableEq, Repr, Inhabited

/-- Precedences as numbers, tighter ones being larger. -/
def Precedence.rank : Precedence → Nat
  | low => 0
  | normal => 1
  | high => 2

namespace Operator

/-- The precedence of an operator. -/
def precedence : Operator → Precedence
  | and | or => .high
  | multiply | divide | modulo => .normal
  | add | subtract => .low

/-- Whether `a`, standing to the left of `b`, takes the operand between them. -/
def bindsBefore (a b : Operator) : Bool :=
  b.precedence.rank ≤ a.precedence.rank

/-- The operator as it is shown in messages. -/
def text : Operator → String
  | add => "+"
  | subtract => "-"
  | multiply => "*"
  | divide => "/"
  | modulo => "%"
  | and => "&&"
  | or => "||"

end Operator

end Smil
