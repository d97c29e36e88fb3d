import Smil.Console.Perform

/-!
# The command line

Connects the commands to the terminal and to files.
-/

namespace Smil.Console

/-- More steps than a run can take. -/
def endless : Nat := 0x4000_0000_0000_0000

/-- Reads a file and tells the common failures apart. -/
def readContents (path : String) : IO (Except ReadFault ByteArray) := do
  try
    return .ok (← IO.FS.readBinFile path)
  catch
    | .noFileOrDirectory .. => return .error .notFound
    | .inappropriateType _ code _ =>
      return .error (if code = 20 then .notDirectory else .isDirectory)
    | e => return .error (.other (toString e))

/-- Writes to the two output streams. -/
def emit (out err : String) : IO Unit := do
  (← IO.getStdout).putStr out
  (← IO.getStdout).flush
  (← IO.getStderr).putStr err

/-- Answers lines of standard input until the session is over. -/
partial def talk (colour prompt : Bool) (m : Machine) : IO Unit := do
  if prompt then
    emit (paint colour .boldGreen "smil>" ++ " ") ""
  let line ← (← IO.getStdin).getLine
  if line.isEmpty then
    emit (farewell colour) ""
  else
    match reply colour endless m line with
    | none => return ()
    | some r =>
      emit r.out r.err
      match r.machine with
      | none => return ()
      | some m => talk colour prompt m

/-- Carries out a command on the terminal and returns its status. -/
def performOnTerminal (command : Command) : IO UInt32 := do
  let terminal ← (← IO.getStdout).isTty
  let colour := terminal && (← IO.getEnv "NO_COLOR").isNone
  match command with
  | .repl =>
    emit (banner colour) ""
    talk colour terminal (Machine.new .unlimited)
    return 0
  | command =>
    let contents ←
      match command with
      | .run options => readContents options.path
      | _ => pure (.error .notFound)
    match perform colour endless (fun _ => contents) "" command with
    | none => return 1
    | some outcome =>
      emit outcome.out outcome.err
      return outcome.status.toUInt32

end Smil.Console

/-- Carries out the command that the arguments ask for. -/
def main (args : List String) : IO UInt32 :=
  Smil.Console.performOnTerminal (Smil.Console.Command.ofArgs args)
