import Listfile.CommandLine.Match
import Listfile.Files.Disk
import Listfile.Layout.Page

/-! What a run of a program leaves behind: an exit code, its output and its log;
or the reason why it broke off. -/

namespace Listfile

structure Outcome where
  exit : Nat
  output : Text
  log : Text
  deriving DecidableEq, Repr

namespace Outcome

def printed (output : Text) : Outcome := ⟨0, output, []⟩

/-- A run that ends with a message and no output. -/
def failed (message : String) : Outcome := ⟨1, [], message.toList ++ ['\n']⟩

/-- A command line that was not carried out. -/
def stopped (program : String) : CommandLine.Stop → Outcome
  | .help => ⟨0, [], []⟩
  | stop => ⟨2, [], (program ++ ": error: " ++ stop.message ++ "\n").toList⟩

end Outcome

/-- Why a run breaks off. -/
inductive Abort
  /-- The file that the run is about could not be read. -/
  | unreadable (path : Path) (fault : ReadFault)
  /-- A path holds a character that no file name can hold. -/
  | nulInPath
  /-- A source or a style file nests too deeply. -/
  | tooDeep
  /-- A layout needs a run of one character that is too long. -/
  | tooWide
  /-- The value of the option for the style file is gone. -/
  | noStyleFile
  /-- The value of an option for a count is gone. -/
  | noCount
  deriving DecidableEq, Repr

def Abort.message : Abort → String
  | .unreadable path fault => fault.message path
  | .nulInPath => "embedded null byte"
  | .tooDeep => "maximum recursion depth exceeded"
  | .tooWide => Layout.Page.Fault.tooWide.message
  | .noStyleFile => "'list' object has no attribute 'read_text'"
  | .noCount => "'>' not supported between instances of 'int' and 'list'"

/-- Read a command line and go on with its settings. -/
def Outcome.ofCommandLine {σ ε : Type} (g : CommandLine.Grammar σ) (start : σ) (words : List Text)
    (run : σ → Except ε Outcome) : Except ε Outcome :=
  match CommandLine.parse g start words with
  | .ok settings => run settings
  | .error stop => .ok (.stopped g.program stop)

/-- A way to read the text of files. -/
abbrev ReadFile := Path → Except ReadFault Text

/-- Read a file that a run cannot do without. -/
def ReadFile.require (read : ReadFile) (path : Path) : Except Abort Text :=
  if path.hasNul then .error .nulInPath
  else match read path with
    | .ok text => .ok text
    | .error fault => .error (.unreadable path fault)

end Listfile
