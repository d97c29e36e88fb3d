import Smil.Console.Help
import Smil.Interpreter
import Smil.Text.Backspace

/-!
# The interactive session

Each line is a command of the session or a program of its own. Programs share one machine, so
variables and the evaluation stack last from line to line; inputs are not bound.
-/

namespace Smil.Console

open Bytecode

/-- The answer to a line: the machine afterwards, unless the session is over, and what is written
to the two streams. -/
structure Reply where
  machine : Option Machine
  out : String
  err : String
deriving Inhabited

/-- The last words of a session. -/
def farewell (colour : Bool) : String :=
  paint colour .cyan "Goodbye!" ++ "\n"

/-- An error in a line, shown with the line. -/
def complaint (colour : Bool) (line : String) (e : Error) : String :=
  paint colour .red (e.withSource line).render ++ "\n"

/-- Runs a line as a program. -/
def replyToProgram (colour : Bool) (budget : Nat) (m : Machine) (line : String) : Option Reply :=
  match compile line with
  | .error e => some ⟨some m, "", complaint colour line e⟩
  | .ok (_, chunk) =>
    match m.run budget chunk with
    | none => none
    | some (result, m) =>
      let (out, m) := m.drain
      match result with
      | .ok .finished => some ⟨some m, out, ""⟩
      | .ok (.exit code) =>
        some ⟨none,
          out ++ paint colour .dimmed "exit" ++ " " ++ Text.decimal code.toNat ++ "\n", ""⟩
      | .error e => some ⟨some m, out, complaint colour line e⟩

/-- Answers a line. Its backspaces are carried out first and then it is trimmed. There is no answer
if the budget of steps is used up. -/
def reply (colour : Bool) (budget : Nat) (m : Machine) (line : String) : Option Reply :=
  match Text.trim (Text.applyBackspaces line) with
  | "" => some ⟨some m, "", ""⟩
  | "exit" | "quit" => some ⟨none, farewell colour, ""⟩
  | "help" => some ⟨some m, sessionHelp colour, ""⟩
  | "clear" => some ⟨some m.reset, paint colour .dimmed "State cleared." ++ "\n", ""⟩
  | line => replyToProgram colour budget m line

/-- Answers lines one after another until the session is over or the lines end. -/
def converse (colour : Bool) (budget : Nat) :
    List String → Machine → String → String → Option (String × String)
  | [], _, out, err => some (out ++ farewell colour, err)
  | line :: lines, m, out, err =>
    match reply colour budget m line with
    | none => none
    | some r =>
      match r.machine with
      | none => some (out ++ r.out, err ++ r.err)
      | some m => converse colour budget lines m (out ++ r.out) (err ++ r.err)

end Smil.Console
