import Smil.Sigil
import Smil.Span

/-!
# Tokens

A token is a lexeme of the source with its span. Two characters that spell no sigil are a token
too, and so is the place where fewer than two characters are left.
-/

namespace Smil

/-- What a token is. -/
inductive Token.Kind where
  | sigil (s : Sigil)
  | unknown
  | endOfInput
deriving DecidableEq, Repr, Inhabited

namespace Token.Kind

/-- The spelling, where the kind has one. -/
def spelling? : Token.Kind → Option String
  | sigil s => some s.text
  | unknown => none
  | endOfInput => none

/-- The kind as it is shown in messages. -/
def text : Token.Kind → String
  | sigil s => s.text
  | unknown => "<unknown>"
  | endOfInput => "end of input"

/-- The operator that a token of this kind stands for. -/
def operator? : Token.Kind → Option Operator
  | sigil s => s.operator?
  | unknown => none
  | endOfInput => none

end Token.Kind

/-- A lexeme of the source with its place. -/
structure Token where
  kind : Token.Kind
  lexeme : String
  span : Span
deriving DecidableEq, Repr, Inhabited

/-- The token as it is shown in messages: its lexeme, or its kind if it has none. -/
def Token.text (t : Token) : String :=
  if t.lexeme.isEmpty then t.kind.text else t.lexeme

end Smil
