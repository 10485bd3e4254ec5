import Listfile.Command.Outcome
import Listfile.Format

/-! A survey of all listfiles below a directory: how many there are, how many
cannot be parsed, how many statements the others hold at top level, and how
many of them formatting with the standard style would change. -/

namespace Listfile

/-! ### Finding listfiles -/

/-- Whether a file name is that of a listfile. -/
def isListfileName (name : Text) : Bool :=
  name = "CMakeLists.txt".toList || ".cmake".toList.isSuffixOf name

/-- Order by components, each by its characters. -/
def componentsBefore (a b : List Text) : Bool :=
  List.lex a b fun s t => List.lex s t fun c d => c.toNat < d.toNat

/-- The components below a directory that lead to its listfiles, in order. -/
def Disk.listfilesBelow (d : Disk) (place : List Text) : List (List Text) :=
  let below := d.files.filterMap fun f =>
    if place.isPrefixOf f.1 then some (f.1.drop place.length) else none
  (below.filter fun parts => (parts.getLast?.map isListfileName).getD false).mergeSort
    fun a b => !componentsBefore b a

/-- The paths of all listfiles below a directory. -/
def Disk.listfiles (d : Disk) (root : Path) : List Path :=
  match d.resolve root with
  | .ok place => (d.listfilesBelow place).map root.below
  | .error _ => []

/-! ### Counting -/

structure Survey where
  statements : Nat
  changed : Nat
  failed : Nat
  deriving DecidableEq, Repr

namespace Survey

/-- Count one more source. -/
def add (s : Survey) (source : Source) : Survey :=
  if source.hasErrors then { s with failed := s.failed + 1 }
  else
    { s with
      statements := s.statements + source.statements.length
      changed := s.changed + if source.changes .standard then 1 else 0 }

/-- The text of a file in which faulty bytes are replaced. -/
def sourceText (d : Disk) (path : Path) : Text :=
  match d.bytes path with
  | .ok bytes => unifyBreaks (Utf8.decodeLenient bytes)
  | .error _ => []

/-- Count one more file. -/
def addFile (d : Disk) (s : Survey) (path : Path) : Except Abort Survey :=
  match Source.parse? (sourceText d path) with
  | none => .error .tooDeep
  | some source => .ok (s.add source)

def ofFiles (d : Disk) (paths : List Path) : Except Abort Survey :=
  paths.foldlM (addFile d) ⟨0, 0, 0⟩

def text (root : Path) (files : Nat) (s : Survey) : String :=
  s!"Dataset: {root.string}\nFiles: {files} (failed to parse: {s.failed}, would change: {s.changed})\nTop-level statements: {s.statements}\n"

end Survey

namespace Command.Survey

structure Settings where
  root : Path := .ofText []
  runs : Option Int := some 5
  warmups : Option Int := some 1
  noProgress : Bool := false
  profile : Bool := false
  profileTop : Option Int := some 30

def grammar : CommandLine.Grammar Settings where
  program := "time_format.py"
  choices :=
    [.help,
      .integer "--runs" fun n s => { s with runs := n },
      .integer "--warmups" fun n s => { s with warmups := n },
      .flag ["--no-progress"] fun s => { s with noProgress := true },
      .flag ["--profile"] fun s => { s with profile := true },
      .integer "--profile-top" fun n s => { s with profileTop := n }]
  positional := "root"
  many := false
  setPositional := fun words s => { s with root := (words.head?.map Path.ofText).getD s.root }

/-- A count that a run cannot do without. -/
def require : Option Int → Except Abort Int
  | some n => .ok n
  | none => .error .noCount

/-- Count what some files hold. The files are gone through for the warm-up and for the measured
runs, and the result is the same each time. -/
def measure (d : Disk) (s : Settings) (files : List Path) : Except Abort Survey := do
  if 0 < (← require s.warmups) then discard (Survey.ofFiles d files)
  discard (require s.runs)
  let survey ← Survey.ofFiles d files
  if s.profile then discard (require s.profileTop)
  return survey

/-- Survey the directory that a command line names. -/
def perform (d : Disk) (s : Settings) : Except Abort Outcome :=
  let invalid : Outcome := .failed ("Invalid root: " ++ s.root.string)
  if s.root.hasNul then .ok invalid
  else match d.resolve s.root with
    | .error .nameTooLong => .error (.unreadable s.root .nameTooLong)
    | .error _ => .ok invalid
    | .ok place =>
      if d.isDirectory place then
        let files := d.listfiles s.root
        if files.isEmpty then .ok (.failed ("No listfiles found under " ++ s.root.string))
        else do return .printed ((← measure d s files).text s.root files.length).toList
      else .ok invalid

def run (d : Disk) (words : List Text) : Except Abort Outcome :=
  Outcome.ofCommandLine grammar {} words (perform d)

end Command.Survey

end Listfile
