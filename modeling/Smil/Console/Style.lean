/-!
# Terminal styles

Styled text is put between an escape sequence that switches the style on and one that resets it. A
reset inside the text is followed by the style again, so that the rest keeps it. Without colour
the text is left as it is.
-/

namespace Smil.Console

/-- How a piece of text is shown. -/
inductive Style where
  | dimmed
  | red
  | yellow
  | cyan
  | boldCyan
  | boldGreen
deriving DecidableEq, Repr, Inhabited

/-- The parameters of the escape sequence for a style. -/
def Style.code : Style → String
  | dimmed => "2"
  | red => "31"
  | yellow => "33"
  | cyan => "36"
  | boldCyan => "1;36"
  | boldGreen => "1;32"

/-- Switches all styles off. -/
def styleReset : String := "\x1b[0m"

/-- Switches a style on. -/
def Style.opening (style : Style) : String :=
  "\x1b[" ++ style.code ++ "m"

/-- Shows a text in a style, if there is colour. -/
def paint (colour : Bool) (style : Style) (text : String) : String :=
  if colour then
    style.opening ++ text.replace styleReset (styleReset ++ style.opening) ++ styleReset
  else
    text

end Smil.Console
