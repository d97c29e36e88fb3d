import Smil.Error
import Smil.Operator
import Smil.Text.Edit
import Smil.Value.Basic

/-!
# Operators on values

Two integers are combined by wrapping 64-bit arithmetic. As soon as one side is a text, addition
joins texts, subtraction removes, multiplication repeats, division keeps a front part and the
remainder rotates; every other combination is an error. A text and an integer may stand in
either order.
-/

namespace Smil.Value

/-- An operator on integers. Division cuts toward zero. -/
def integers (op : Operator) (a b : Int64) : Except Cause Int64 :=
  match op with
  | .add => .ok (a + b)
  | .subtract => .ok (a - b)
  | .multiply => .ok (a * b)
  | .divide => if b = 0 then .error .divisionByZero else .ok (a / b)
  | .modulo => if b = 0 then .error .divisionByZero else .ok (a % b)
  | .and => .ok (a &&& b)
  | .or => .ok (a ||| b)

/-- Joins two texts, unless the result is too large. -/
def joined (a b : String) : Except Cause String :=
  if a.utf8ByteSize + b.utf8ByteSize > maxTextBytes then .error .textTooLarge
  else .ok (a ++ b)

/-- `n` copies of a text, unless the result is too large; nothing if `n` is not positive. -/
def repeated (s : String) (n : Int64) : Except Cause String :=
  if n ≤ 0 then .ok ""
  else if s.utf8ByteSize * n.toNatClampNeg > maxTextBytes then .error .textTooLarge
  else .ok (Text.replicate s n.toNatClampNeg)

/-- The first `length / n` characters. -/
def divided (s : String) (n : Int64) : Except Cause String :=
  if n = 0 then .error .divisionByZero else .ok (Text.fraction s n)

/-- The text rotated to the left by `n` modulo its length. -/
def rotated (s : String) (n : Int64) : Except Cause String :=
  if s.isEmpty then .error .divisionByZero else .ok (Text.rotateLeft s n)

/-- The error that an operator does not take these operands. -/
def mismatch (op : Operator) (a b : Value) : Cause :=
  .invalidOperation a.typeName op.text b.typeName

/-- An operator on a text and an integer. `invalid` is the error for an operator without meaning
here. -/
def textAndInteger (op : Operator) (s : String) (n : Int64) (invalid : Cause) :
    Except Cause String :=
  match op with
  | .subtract => .ok (Text.dropTail s n)
  | .multiply => repeated s n
  | .divide => divided s n
  | .modulo => rotated s n
  | .add | .and | .or => .error invalid

/-- An operator with a text on one side at least. -/
def texts (op : Operator) (a b : Value) : Except Cause String :=
  if op = .add then joined a.toText b.toText
  else
    match a, b with
    | text s, text t =>
      if op = .subtract then .ok (Text.removeAll s t) else .error (mismatch op a b)
    | text s, integer n => textAndInteger op s n (mismatch op a b)
    | integer n, text s => textAndInteger op s n (mismatch op a b)
    | integer _, integer _ => .error (mismatch op a b)

/-- Applies an operator to two values. -/
def operate (op : Operator) (a b : Value) : Except Cause Value :=
  match a, b with
  | integer m, integer n => (integers op m n).map integer
  | _, _ => (texts op a b).map text

end Smil.Value
