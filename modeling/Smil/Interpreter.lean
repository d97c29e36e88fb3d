import Smil.Codegen
import Smil.Expr.Parser
import Smil.Machine.Run

/-!
# From source to output

Compiling reads a source and generates its code. Running also binds the arguments and collects
what the program writes; output that precedes an error is lost with it.
-/

namespace Smil

open Bytecode

/-- Reads a source and generates its code. -/
def compile (source : String) : Except Error (Program × Chunk) := do
  let program ← parse source
  let chunk ← Codegen.compile program
  return (program, chunk)

/-- What a completed run has written, and how it ended. -/
structure Execution where
  output : String
  completion : Completion
deriving DecidableEq, Repr, Inhabited

/-- Runs a source on arguments. There is no result if the budget of steps is used up. -/
def run (budget : Nat) (source : String) (inputs : List String) :
    Option (Except Error Execution) :=
  match compile source with
  | .error e => some (.error e)
  | .ok (program, chunk) =>
    match (Machine.new .unlimited).bindInputs program.inputCount inputs with
    | .error e => some (.error e)
    | .ok m =>
      match m.run budget chunk with
      | none => none
      | some (.error e, _) => some (.error e)
      | some (.ok completion, m) => some (.ok ⟨m.drain.1, completion⟩)

end Smil
