import Smil.Operator

/-!
# Sigils

Every word of the language is a sigil of two characters; only the end marker has three. A sigil
of two characters is found again by its spelling.
-/

namespace Smil

/-- A word of the language. -/
inductive Sigil where
  | programStart
  | programEnd
  | comment
  | varStart
  | varEnd
  | negatedVarStart
  | input
  | assign
  | printStart
  | printEnd
  | hello
  | nop
  | exit
  | stackPush
  | stackPop
  | stackClear
  | loopStart
  | loopThen
  | loopElse
  | loopEnd
  | lengthOf
  | operator (op : Operator)
deriving DecidableEq, Repr, Inhabited

namespace Sigil

/-- The spelling of a sigil. -/
def text : Sigil → String
  | programStart => "<3"
  | programEnd => "</3"
  | comment => ":#"
  | varStart => ":("
  | varEnd => ":)"
  | negatedVarStart => ";("
  | input => ":$"
  | assign => ":="
  | printStart => ":P"
  | printEnd => ":D"
  | hello => "o/"
  | nop => ":|"
  | exit => ":X"
  | stackPush => ":^"
  | stackPop => ":v"
  | stackClear => ":@"
  | loopStart => "8)"
  | loopThen => "8|"
  | loopElse => "8("
  | loopEnd => "8D"
  | lengthOf => ":L"
  | operator .add => ":+"
  | operator .subtract => ":-"
  | operator .multiply => ":*"
  | operator .divide => ":/"
  | operator .modulo => ":%"
  | operator .and => "&&"
  | operator .or => "||"

/-- The sigil that two characters spell. The end marker is not among them. -/
def ofPair? : Char → Char → Option Sigil
  | '<', '3' => some programStart
  | ':', '#' => some comment
  | ':', '(' => some varStart
  | ':', ')' => some varEnd
  | ';', '(' => some negatedVarStart
  | ':', '$' => some input
  | ':', '=' => some assign
  | ':', 'P' => some printStart
  | ':', 'D' => some printEnd
  | 'o', '/' => some hello
  | ':', '|' => some nop
  | ':', 'X' => some exit
  | ':', '^' => some stackPush
  | ':', 'v' => some stackPop
  | ':', '@' => some stackClear
  | '8', ')' => some loopStart
  | '8', '|' => some loopThen
  | '8', '(' => some loopElse
  | '8', 'D' => some loopEnd
  | ':', 'L' => some lengthOf
  | ':', '+' => some (operator .add)
  | ':', '-' => some (operator .subtract)
  | ':', '*' => some (operator .multiply)
  | ':', '/' => some (operator .divide)
  | ':', '%' => some (operator .modulo)
  | '&', '&' => some (operator .and)
  | '|', '|' => some (operator .or)
  | _, _ => none

/-- The two-character sigil that a text spells. -/
def ofText? (s : String) : Option Sigil :=
  match s.toList with
  | [a, b] => ofPair? a b
  | _ => none

/-- Every sigil but the end marker is found by its spelling. -/
theorem ofText?_text (s : Sigil) (h : s ≠ programEnd) : ofText? s.text = some s := by
  cases s with
  | programEnd => exact absurd rfl h
  | operator op => cases op <;> rfl
  | _ => rfl

/-- The operator that a sigil stands for, if it is one. -/
def operator? : Sigil → Option Operator
  | operator op => some op
  | _ => none

end Sigil

/-- The name of the variable that holds input `index`: the input sigil, once more than the
index. -/
def inputName (index : Nat) : String :=
  String.join (List.replicate (index + 1) Sigil.input.text)

end Smil
