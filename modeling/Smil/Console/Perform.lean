import Smil.Bytecode.Listing
import Smil.Console.Command
import Smil.Console.Folder
import Smil.Console.Session

/-!
# Carrying out commands

What a command writes to the two output streams and the status it ends with. Running a file
writes the program's output to the first stream; errors, and the dump of a verbose run, go to the
second. The log lines that a verbose run also writes there are left out: they hold times.
-/

namespace Smil.Console

open Bytecode

/-- The result of a command. -/
structure Outcome where
  status : Nat
  out : String
  err : String
deriving DecidableEq, Repr, Inhabited

/-- The start of an error line. -/
def errorLine (colour : Bool) (message : String) : String :=
  paint colour .red "error" ++ ": " ++ message ++ "\n"

/-- The statements and the code of a program, as a verbose run shows them. -/
def dump (colour : Bool) (title : String) (program : Program) (chunk : Chunk) : String :=
  unlines (paint colour .dimmed "=== Program ===" :: program.statements.map Expr.display ++
    [paint colour .dimmed ((chunk.listing? title).getD ""), paint colour .dimmed "=== Output ==="])

/-- Runs a compiled program; `err` is what the second stream has received before. -/
def runCompiled (colour : Bool) (budget : Nat) (source : String) (inputs : List String)
    (program : Program) (chunk : Chunk) (err : String) : Option Outcome :=
  match (Machine.new .unlimited).bindInputs program.inputCount inputs with
  | .error e => some ⟨1, "", err ++ errorLine colour e.render⟩
  | .ok m =>
    match m.run budget chunk with
    | none => none
    | some (result, m) =>
      let out := m.drain.1
      match result with
      | .ok .finished => some ⟨0, out, err⟩
      | .ok (.exit code) => some ⟨code.toNat, out, err⟩
      | .error e => some ⟨1, out, err ++ (e.withSource source).render ++ "\n"⟩

/-- Runs a source. With the verbose flag the second stream starts with the dump; log lines are left
out. -/
def runSource (colour : Bool) (budget : Nat) (options : RunOptions) (source : String) :
    Option Outcome :=
  match compile source with
  | .error e => some ⟨1, "", (e.withSource source).render ++ "\n"⟩
  | .ok (program, chunk) =>
    let err := if options.verbose then dump colour options.path program chunk else ""
    runCompiled colour budget source options.inputs program chunk err

/-- The text of a file. -/
def decode (contents : Except ReadFault ByteArray) : Except ReadFault String := do
  match String.fromUTF8? (← contents) with
  | some source => return source
  | none => throw .notText

/-- Runs a file with the given contents. -/
def runFile (colour : Bool) (budget : Nat) (options : RunOptions)
    (contents : Except ReadFault ByteArray) : Option Outcome :=
  match decode contents with
  | .error fault =>
    some ⟨1, "", errorLine colour ("cannot read file '" ++ options.path ++ "': " ++ fault.message)⟩
  | .ok source => runSource colour budget options source

/-- Holds an interactive session on the lines of `stdin`. -/
def runSession (colour : Bool) (budget : Nat) (stdin : String) : Option Outcome :=
  match converse colour budget (Text.lines stdin) (Machine.new .unlimited) (banner colour) "" with
  | none => none
  | some (out, err) => some ⟨0, out, err⟩

/-- Carries out a command; `read` gives the contents of files. There is no outcome if the budget of
steps for a program is used up. -/
def perform (colour : Bool) (budget : Nat) (read : String → Except ReadFault ByteArray)
    (stdin : String) : Command → Option Outcome
  | .run options => runFile colour budget options (read options.path)
  | .missingFile =>
    some ⟨1, "", errorLine colour "missing file argument" ++ "Usage: " ++ usage ++ "\n"⟩
  | .repl => runSession colour budget stdin
  | .help => some ⟨0, commandHelp colour, ""⟩
  | .version => some ⟨0, "SMIL " ++ version ++ "\n", ""⟩
  | .unknown word =>
    some ⟨1, commandHelp colour, errorLine colour ("unknown command '" ++ word ++ "'")⟩

end Smil.Console
