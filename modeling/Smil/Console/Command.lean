/-!
# Commands

The arguments of the command line, read as a command. Without a command word the first argument
may be a flag or a program file, which is told by its ending.
-/

namespace Smil.Console

/-- A file to run: flags come before its path, and everything after the path is an input. -/
structure RunOptions where
  verbose : Bool
  path : String
  inputs : List String
deriving DecidableEq, Repr, Inhabited

namespace RunOptions

/-- Reads flags, a path and inputs; there has to be a path. -/
def ofArgs? (verbose : Bool) : List String → Option RunOptions
  | [] => none
  | arg :: args =>
    if arg = "-v" || arg = "--verbose" then ofArgs? true args
    else some ⟨verbose, arg, args⟩

end RunOptions

/-- What the command line asks for. -/
inductive Command where
  | run (options : RunOptions)
  | missingFile
  | repl
  | help
  | version
  | unknown (word : String)
deriving DecidableEq, Repr, Inhabited

namespace Command

/-- The ending of program files. -/
def fileEnding : String := ".smil"

/-- Reads arguments that start with no command word: a file to run if they start with a flag or
name a program file. -/
def ofFileArgs (word : String) (args : List String) : Command :=
  match RunOptions.ofArgs? false (word :: args) with
  | some options =>
    if word.startsWith "-" || options.path.endsWith fileEnding then run options
    else unknown word
  | none => unknown word

/-- Reads the arguments of the command line. -/
def ofArgs : List String → Command
  | [] => help
  | "run" :: args =>
    match RunOptions.ofArgs? false args with
    | some options => run options
    | none => missingFile
  | "repl" :: _ => repl
  | "help" :: _ | "--help" :: _ | "-h" :: _ => help
  | "version" :: _ | "--version" :: _ | "-V" :: _ => version
  | word :: args => ofFileArgs word args

end Command

end Smil.Console
