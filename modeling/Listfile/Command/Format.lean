import Listfile.Command.Outcome
import Listfile.Definitions
import Listfile.Format
import Listfile.Json.Reader

/-! The formatter as a program. Each file gives a block of output or a line in
the log, from its own text and the style alone, and the run fails if a file
does. The style comes from the standard one, changed by a style file, changed by
options. -/

namespace Listfile.Command.Format

/-! ### Command line -/

/-- What the style of a run starts from. -/
inductive Base
  | standard
  | file (path : Path)
  /-- A style file was asked for, and its path is gone. -/
  | unnamed

structure Settings where
  files : List Path := []
  base : Base := .standard
  /-- Options that change the style, by the name of their field. -/
  style : List (Json.Letters × Json.Value) := []
  listDefinitions : Bool := false
  progress : Bool := false
  verbose : Bool := false

def setStyle (field : Style.Field) (value : Json.Value) (s : Settings) : Settings :=
  { s with style := Json.insert s.style (.ofString field.name) value }

/-- The value of a count option; one that is gone leaves an empty list. -/
def countValue : Option Int → Json.Value
  | some n => .int n
  | none => .array []

def countOption (name : String) (c : Style.Count) : CommandLine.Choice Settings :=
  .integer name fun n => setStyle (.count c) (countValue n)

def switchOption (names : List String) (w : Style.Switch) : CommandLine.Choice Settings :=
  .toggle names fun b => setStyle (.switch w) (.bool b)

def grammar : CommandLine.Grammar Settings where
  program := "cmakepy"
  choices :=
    [.help,
      .word "--config" fun word s =>
        { s with base := (word.map fun t => Base.file (.ofText t)).getD .unnamed },
      countOption "--indent-width" .indentWidth,
      countOption "--column-limit" .columnLimit,
      countOption "--allowed-blank-lines" .allowedBlankLines,
      switchOption ["--trim-comments"] .trimComments,
      switchOption ["--blank-lines-around-functions"] .spaceDefinitions,
      switchOption ["--blank-lines-around-conditionals-and-loops", "--blank-lines-around-if"]
        .spaceControl,
      switchOption ["--align-after-open-bracket"] .alignArguments,
      countOption "--continuation-indent-width" .continuationIndent,
      .flag ["--list-definitions"] fun s => { s with listDefinitions := true },
      .flag ["--progress"] fun s => { s with progress := true },
      .flag ["-v", "--verbose"] fun s => { s with verbose := true }]
  positional := "FILE"
  many := true
  setPositional := fun words s => { s with files := words.map .ofText }

/-! ### Style -/

/-- Why there is no style to format with. -/
inductive StyleFault
  | unnamed
  | nulInPath
  | unreadable (path : Path) (fault : ReadFault)
  | malformed (path : Path) (source : Text) (fault : Json.Fault)
  | notObject (path : Path)
  | refused (fault : Style.Fault)

/-- What a run without a style comes to. -/
def StyleFault.outcome : StyleFault → Except Abort Outcome
  | .unnamed => .error .noStyleFile
  | .nulInPath => .ok (.failed ("Invalid format options: " ++ Abort.nulInPath.message))
  | .unreadable path (.encoding fault) =>
    .ok (.failed ("Invalid format options: " ++ (ReadFault.encoding fault).message path))
  | .unreadable path fault =>
    .ok (.failed ("Invalid --config: " ++ path.string ++ ": " ++ fault.message path))
  | .malformed _ _ .tooDeep => .error .tooDeep
  | .malformed _ source (.longInteger digits) =>
    .ok (.failed ("Invalid format options: " ++ (Json.Fault.longInteger digits).message source))
  | .malformed path source fault =>
    .ok (.failed ("Invalid --config: " ++ path.string ++ ": " ++ fault.message source))
  | .notObject path =>
    .ok (.failed ("Invalid --config: " ++ path.string ++ ": expected a JSON object"))
  | .refused fault => .ok (.failed ("Invalid format options: " ++ fault.message))

/-- Change a style by settings. -/
def change (settings : List (Json.Letters × Json.Value)) (style : Style) :
    Except StyleFault Style :=
  match style.override settings with
  | .ok style => .ok style
  | .error fault => .error (.refused fault)

/-- The deepest nesting of values in a style file. -/
def maxStyleDepth : Nat := 985

/-- The settings in a style file. -/
def settingsOf (read : ReadFile) (path : Path) :
    Except StyleFault (List (Json.Letters × Json.Value)) :=
  if path.hasNul then .error .nulInPath
  else match read path with
    | .error fault => .error (.unreadable path fault)
    | .ok source =>
      match Json.parse maxStyleDepth source with
      | .error fault => .error (.malformed path source fault)
      | .ok (.object settings) => .ok settings
      | .ok _ => .error (.notObject path)

/-- The style that the options of a run change. A style file has to be right by itself. -/
def baseStyle (read : ReadFile) : Base → Except StyleFault Style
  | .standard => .ok .standard
  | .file path => do change (← settingsOf read path) .standard
  | .unnamed => .error .unnamed

/-- The style of a run. -/
def styleOf (read : ReadFile) (s : Settings) : Except StyleFault Style := do
  change s.style (← baseStyle read s.base)

/-! ### Files -/

/-- What one file comes to. -/
inductive Result
  | block (output : Text) (changed : Bool)
  | failure (fault : Diagnostic) (source : Text)

/-- A text with a line feed at its end, unless it is empty. -/
def endLine (t : Text) : Text := if t.isEmpty || t.getLast? = some '\n' then t else t ++ ['\n']

/-- The block of a file: its formatted text, its path, and its definitions if they are asked for. -/
def block (formatted : Text) (listDefinitions : Bool) (path : Path) (s : Source) : Text :=
  endLine formatted ++ "# ".toList ++ path.text ++ ['\n'] ++
    if listDefinitions then Definition.listing (Definition.ofStatements s.statements) else []

/-- Format one file, from its text or from the wording of the fault that keeps it from being read.
`fits` says which sources do not nest too deeply. A layout that cannot be carried out breaks the run
off. -/
def formatFile (fits : Source → Bool) (style : Style) (listDefinitions : Bool) (path : Path) :
    Except String Text → Except Abort Result
  | .error wording =>
    .ok (.failure (.worded .readFailed (Diagnostic.Code.summary .readFailed ++ ": " ++ wording)
      (.point 0)) [])
  | .ok text =>
    let s := Source.parse text
    if fits s then
      match Diagnostic.firstError? s.diagnostics with
      | some fault => .ok (.failure fault text)
      | none =>
        match s.format? style with
        | .ok formatted => .ok (.block (block formatted listDefinitions path s) (formatted ≠ text))
        | .error _ => .error .tooWide
    else .ok (.failure (.ofCode .nestingTooDeep (.point 0)) text)

namespace Result

def output : Result → Text
  | .block output _ => output
  | .failure _ _ => []

def isFailure : Result → Bool
  | .block _ _ => false
  | .failure _ _ => true

/-- The line that a file leaves in the log; successes are told only if `verbose`. -/
def log (verbose : Bool) (path : Path) : Result → Text
  | .block _ changed =>
    if verbose then
      path.text ++ (if changed then ": reformatted\n" else ": already formatted\n").toList
    else []
  | .failure fault source => (fault.line path.string source).toList ++ ['\n']

end Result

/-- The last line of the log, if a file failed. -/
def tally (results : List Result) : Text :=
  let failures := (results.filter (·.isFailure)).length
  if failures = 0 then []
  else s!"{failures} of {results.length} file(s) failed\n".toList

/-- What reading a file gives, with faults in words. -/
def contentsOf (read : ReadFile) (path : Path) : Except String Text :=
  (read path).mapError (·.message path)

/-- Read a file. A path that no file can have breaks the run off. -/
def load (read : ReadFile) (path : Path) : Except Abort (Except String Text) :=
  if path.hasNul then .error .nulInPath else .ok (contentsOf read path)

/-- What the file at a path comes to. -/
def treat (fits : Source → Bool) (read : ReadFile) (style : Style) (listDefinitions : Bool)
    (path : Path) : Except Abort Result := do
  formatFile fits style listDefinitions path (← load read path)

/-- What a run leaves behind that breaks off: the reason, and its output and its log up to there. -/
structure Broken where
  reason : Abort
  output : Text
  log : Text
  deriving DecidableEq, Repr

/-- The files up to the first at which a run breaks off, each with what it comes to, and why the run
breaks off there. -/
def treatAll (treat : Path → Except Abort Result) :
    List Path → List (Path × Result) × Option Abort
  | [] => ([], none)
  | path :: rest =>
    match treat path with
    | .error reason => ([], some reason)
    | .ok result =>
      let (results, reason?) := treatAll treat rest
      ((path, result) :: results, reason?)

/-- Format the files of a run one after the other. -/
def formatFiles (treat : Path → Except Abort Result) (s : Settings) : Except Broken Outcome :=
  let (results, reason?) := treatAll treat s.files
  let output := results.flatMap (·.2.output)
  let log := results.flatMap fun r => r.2.log s.verbose r.1
  match reason? with
  | some reason => .error ⟨reason, output, log⟩
  | none =>
    .ok ⟨if results.any (·.2.isFailure) then 1 else 0, output, log ++ tally (results.map (·.2))⟩

/-- Carry out a run. -/
def perform (fits : Source → Bool) (read : ReadFile) (s : Settings) : Except Broken Outcome :=
  match styleOf read s with
  | .error fault => fault.outcome.mapError (⟨·, [], []⟩)
  | .ok style => formatFiles (treat fits read style s.listDefinitions) s

/-- The paths that a command line asks to be read. -/
def paths (words : List Text) : List Path :=
  match CommandLine.parse grammar {} words with
  | .error _ => []
  | .ok settings =>
    match settings.base with
    | .file path => path :: settings.files
    | _ => settings.files

/-- Run the formatter on the words of a command line. -/
def carryOut (read : ReadFile) (words : List Text) : Except Broken Outcome :=
  Outcome.ofCommandLine grammar {} words (perform Source.fits read)

/-- What a run comes to, or why it breaks off. -/
def run (read : ReadFile) (words : List Text) : Except Abort Outcome :=
  (carryOut read words).mapError (·.reason)

end Listfile.Command.Format
