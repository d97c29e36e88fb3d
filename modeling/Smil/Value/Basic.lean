import Smil.Text.Decimal

/-!
# Values

A value is a signed 64-bit integer or a text. Either can be viewed as the other: an integer has
its decimal text, and a text has the integer that it starts with.
-/

namespace Smil

/-- An object of the running program. -/
inductive Value where
  | integer (n : Int64)
  | text (s : String)
deriving DecidableEq, Repr

namespace Value

instance : Inhabited Value := ⟨integer 0⟩

/-- The value of a program argument: an integer if the trimmed argument is a numeral in range,
otherwise the argument as it stands. -/
def ofInput (arg : String) : Value :=
  match Text.readInt64? (Text.trimChars arg.toList) with
  | some n => integer n
  | none => text arg

/-- The name of the value's type in messages. -/
def typeName : Value → String
  | integer _ => "integer"
  | text _ => "string"

/-- Only the integer zero is not truthy. -/
def isTruthy : Value → Bool
  | integer n => n != 0
  | text _ => true

/-- The decimal text of an integer, or the text itself. -/
def toText : Value → String
  | integer n => Text.decimal n.toInt
  | text s => s

/-- The integer itself, or the one that the text starts with. -/
def toInteger : Value → Int64
  | integer n => n
  | text s => Text.leadingInt64 s.toList

/-- The number of characters of the text. -/
def length (v : Value) : Nat :=
  v.toText.length

/-- The integer one for true and zero for false. -/
def ofBool (b : Bool) : Value :=
  integer (if b then 1 else 0)

end Value

end Smil
