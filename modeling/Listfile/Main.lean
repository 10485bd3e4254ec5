import Listfile.Command.Format

/-! The formatter on the files of the machine it runs on. All files are read
first; what is printed and logged is then a function of their texts. -/

namespace Listfile.Main

/-- Read a file. A failure that has no place among the reading faults ends the program. -/
def readFile (path : Path) : IO (Except ReadFault Text) := do
  if path.hasNul then return .error .missing
  try
    return textOfBytes (← IO.FS.readBinFile path.string).toList
  catch
    | .noFileOrDirectory _ _ _ => return .error .missing
    -- A directory can be opened and then not be read, which the system numbers 21.
    | .inappropriateType _ 21 _ => return .error .isDirectory
    | .inappropriateType _ _ _ => return .error .notDirectory
    | e@(.invalidArgument _ code _) =>
      -- The number of a name that is too long comes with either sign.
      if code = 36 || code = 0 - 36 then return .error .nameTooLong else throw e
    | e => throw e

/-- Look a path up among the files that were read. -/
def lookUp (files : List (Path × Except ReadFault Text)) : ReadFile := fun path =>
  ((files.find? (·.1 = path)).map (·.2)).getD (.error .missing)

end Listfile.Main

open Listfile in
/-- Format the files that the command line names. -/
def main (words : List String) : IO UInt32 := do
  let words := words.map String.toList
  let files ← (Command.Format.paths words).mapM fun path => return (path, ← Main.readFile path)
  match Command.Format.carryOut (Main.lookUp files) words with
  | .ok outcome =>
    IO.print (String.ofList outcome.output)
    IO.eprint (String.ofList outcome.log)
    return UInt32.ofNat outcome.exit
  | .error broken =>
    IO.print (String.ofList broken.output)
    IO.eprint (String.ofList broken.log)
    IO.eprintln broken.reason.message
    return 1
