/-!
# Files

A program file is looked up by its path. Here the files stand in a single folder; paths go
through it component by component, and everything outside the folder is unknown.
-/

namespace Smil.Console

/-- Why a file cannot be read. -/
inductive ReadFault where
  | notFound
  | notDirectory
  | isDirectory
  | nameTooLong
  | notText
  | other (detail : String)
deriving DecidableEq, Repr, Inhabited

/-- The wording of a fault. -/
def ReadFault.message : ReadFault → String
  | notFound => "No such file or directory (os error 2)"
  | notDirectory => "Not a directory (os error 20)"
  | isDirectory => "Is a directory (os error 21)"
  | nameTooLong => "File name too long (os error 36)"
  | notText => "stream did not contain valid UTF-8"
  | other detail => detail

/-- A folder that holds files only. -/
structure Folder where
  files : List (String × ByteArray)

namespace Folder

/-- The longest name of a file in bytes. -/
def maxNameBytes : Nat := 255

/-- The longest path in bytes. -/
def maxPathBytes : Nat := 4095

/-- Where a path has led so far. -/
inductive Place where
  | folder
  | outside
  | file (contents : ByteArray)

/-- Follows one component of a path. -/
def enter (f : Folder) (place : Place) (component : String) : Except ReadFault Place :=
  match place with
  | .file _ => .error .notDirectory
  | .folder =>
    if component = "" || component = "." then .ok .folder
    else if component = ".." then .ok .outside
    else if component.utf8ByteSize > maxNameBytes then .error .nameTooLong
    else
      match f.files.lookup component with
      | some contents => .ok (.file contents)
      | none => .error .notFound
  | .outside =>
    if component = "" || component = "." || component = ".." then .ok .outside
    else if component.utf8ByteSize > maxNameBytes then .error .nameTooLong
    else .error .notFound

/-- The bytes of the file at a path. -/
def read (f : Folder) (path : String) : Except ReadFault ByteArray := do
  if path.isEmpty then
    throw .notFound
  if path.utf8ByteSize > maxPathBytes then
    throw .nameTooLong
  let start : Place := if path.startsWith "/" then .outside else .folder
  match ← (path.splitOn "/").foldlM f.enter start with
  | .file contents => return contents
  | .folder | .outside => throw .isDirectory

end Folder

end Smil.Console
