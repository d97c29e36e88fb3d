import Smil.Console.Style

/-!
# Help texts

What the command line and the interactive session show about themselves.
-/

namespace Smil.Console

/-- The version of the tool. -/
def version : String := "0.1.0"

/-- Lines of text, each closed by a newline. -/
def unlines (lines : List String) : String :=
  String.join (lines.map (· ++ "\n"))

/-- How to run a file. -/
def usage : String := "smil run [-v] <file.smil> [inputs...]"

/-- The overview of the language. -/
def languageHelp (colour : Bool) : String :=
  unlines [
    paint colour .yellow "LANGUAGE:",
    "  <3 ... </3           Program start / end (optional)",
    "  :( name :)           Variable, ;( name :) inverted",
    "  :( :( expr :) :)     Variable named by an expression",
    "  :$  :$:$  ...        First, second, ... program input",
    "  :(x:) := expr        Assignment",
    "  :+ :- :* :/ :% && || Operators (&& || bind tightest)",
    "  :P a b :D            Print",
    "  o/                   Hello, <first input>!",
    "  :^ expr  :v :(x:)  :@  Push, pop into x, clear the stack",
    "  8) c 8| ... 8( ... 8D  Loop while c > 0, else branch if never",
    "  :L expr              Length",
    "  :# text              Comment",
    "  :|  :X               No-op, exit"]

/-- The help of the command line. -/
def commandHelp (colour : Bool) : String :=
  unlines [
    paint colour .boldCyan "SMIL",
    "A scripting language written in two-character sigils",
    paint colour .cyan "Version" ++ " " ++ version,
    "",
    paint colour .yellow "USAGE:",
    "  " ++ usage ++ "   Execute a SMIL file",
    "  smil repl                              Start interactive REPL",
    "  smil help                              Show this help message",
    "  smil version                           Show version",
    "",
    paint colour .yellow "OPTIONS:",
    "  -v, --verbose   Log code generation and dump the bytecode",
    "  RUST_LOG=...    Override the log filter",
    "",
    paint colour .yellow "EXAMPLES:",
    "  smil run demos/hello.smil Ada",
    "  smil -v demos/countdown.smil 3",
    ""] ++ languageHelp colour

/-- The greeting of the interactive session. -/
def banner (colour : Bool) : String :=
  unlines [
    paint colour .boldCyan "SMIL" ++ " " ++ paint colour .cyan version ++ " - " ++
      paint colour .dimmed "two characters at a time",
    "Type " ++ paint colour .yellow "exit" ++ " to exit, " ++ paint colour .yellow "help" ++
      " for help",
    ""]

/-- The help of the interactive session. -/
def sessionHelp (colour : Bool) : String :=
  unlines [
    paint colour .yellow "REPL Commands:",
    "  exit, quit   Exit the REPL",
    "  clear        Forget all variables and the stack",
    "  help         Show this help",
    ""] ++ languageHelp colour

end Smil.Console
