import Listfile.Json.Value

/-! How listfiles are laid out, and how a style is changed by named settings.
Each setting has a plain name and one or more names for style files. Settings
are resolved in the order they are given, the last one for a field wins, and
only then are the fields checked, in the order in which they are declared. -/

namespace Listfile

structure Style where
  /-- Spaces for each enclosing block. -/
  indentWidth : Nat := 4
  /-- The width up to which an argument list stays on one line. -/
  columnLimit : Nat := 50
  /-- The most blank lines in a row. -/
  allowedBlankLines : Nat := 1
  /-- Line comments are written as `# text` with the text trimmed. -/
  trimComments : Bool := true
  /-- Blank lines stand around definitions. -/
  spaceDefinitions : Bool := true
  /-- Blank lines stand around conditionals and loops. -/
  spaceControl : Bool := true
  /-- Wrapped arguments are aligned with the first; otherwise they are indented. -/
  alignArguments : Bool := true
  /-- The indentation of wrapped arguments that are not aligned. -/
  continuationIndent : Nat := 4
  columnLimit_pos : 0 < columnLimit := by decide
  deriving DecidableEq, Repr

namespace Style

/-- The style where nothing else is asked for. -/
def standard : Style := {}

/-! ### Settings -/

/-- The fields that hold a number. -/
inductive Count
  | indentWidth
  | columnLimit
  | allowedBlankLines
  | continuationIndent
  deriving DecidableEq, Repr

/-- The fields that are on or off. -/
inductive Switch
  | trimComments
  | spaceDefinitions
  | spaceControl
  | alignArguments
  deriving DecidableEq, Repr

inductive Field
  | count (c : Count)
  | switch (s : Switch)
  deriving DecidableEq, Repr

def Count.name : Count → String
  | .indentWidth => "indent_width"
  | .columnLimit => "column_limit"
  | .allowedBlankLines => "allowed_blank_lines"
  | .continuationIndent => "continuation_indent_width"

def Switch.name : Switch → String
  | .trimComments => "trim_comments"
  | .spaceDefinitions => "blank_lines_around_functions"
  | .spaceControl => "blank_lines_around_conditionals_and_loops"
  | .alignArguments => "align_after_open_bracket"

/-- All fields, in the order in which they are declared. -/
def Field.all : List Field :=
  [.count .indentWidth, .count .columnLimit, .count .allowedBlankLines, .switch .trimComments,
    .switch .spaceDefinitions, .switch .spaceControl, .switch .alignArguments,
    .count .continuationIndent]

def Field.name : Field → String
  | .count c => c.name
  | .switch s => s.name

/-- The names that style files use. -/
def styleFileNames : List (String × Field) :=
  [("IndentWidth", .count .indentWidth), ("ColumnLimit", .count .columnLimit),
    ("AllowedBlankLines", .count .allowedBlankLines), ("TrimComments", .switch .trimComments),
    ("BlankLinesAroundFunctions", .switch .spaceDefinitions),
    ("BlankLinesAroundIf", .switch .spaceControl),
    ("BlankLinesAroundConditionalsAndLoops", .switch .spaceControl),
    ("AlignAfterOpenBracket", .switch .alignArguments),
    ("ContinuationIndentWidth", .count .continuationIndent)]

/-- Every name of a field. -/
def fieldNames : List (String × Field) :=
  styleFileNames ++ Field.all.map fun f => (f.name, f)

/-- The field of a name. -/
def field? (key : Json.Letters) : Option Field :=
  (fieldNames.find? fun n => .ofString n.1 = key).map (·.2)

/-- The words that say whether arguments are aligned. -/
def alignmentWords : List (String × Bool) :=
  [("BAS_Align", true), ("Align", true), ("BAS_DontAlign", false), ("DontAlign", false)]

def alignment? (word : Json.Letters) : Option Bool :=
  (alignmentWords.find? fun w => .ofString w.1 = word).map (·.2)

/-! ### Faults -/

inductive Fault
  | unknownName (key : Json.Letters)
  | unknownAlignment (word : Json.Letters)
  | notSwitch (field : Switch) (value : Json.Value)
  | notCount (field : Count) (value : Json.Value)
  | negative (field : Count)
  | zeroColumnLimit

def Fault.message : Fault → String
  | .unknownName key => "Unknown format option: " ++ String.ofList key.quote
  | .unknownAlignment word =>
    "Unsupported AlignAfterOpenBracket value: " ++ String.ofList word.quote
  | .notSwitch field value => field.name ++ " must be a bool, got " ++ String.ofList value.shown
  | .notCount field value => field.name ++ " must be an int, got " ++ String.ofList value.shown
  | .negative field => field.name ++ " cannot be negative"
  | .zeroColumnLimit => "column_limit must be at least 1"

/-! ### Changing a style -/

def count (s : Style) : Count → Nat
  | .indentWidth => s.indentWidth
  | .columnLimit => s.columnLimit
  | .allowedBlankLines => s.allowedBlankLines
  | .continuationIndent => s.continuationIndent

def switch (s : Style) : Switch → Bool
  | .trimComments => s.trimComments
  | .spaceDefinitions => s.spaceDefinitions
  | .spaceControl => s.spaceControl
  | .alignArguments => s.alignArguments

/-- The field that a setting is for and the value it gives; alignment may be given as a word. -/
def resolve (setting : Json.Letters × Json.Value) : Except Fault (Field × Json.Value) :=
  match field? setting.1 with
  | none => .error (.unknownName setting.1)
  | some field =>
    match field, setting.2 with
    | .switch .alignArguments, .string word =>
      match alignment? word with
      | none => .error (.unknownAlignment word)
      | some b => .ok (field, .bool b)
    | _, value => .ok (field, value)

/-- The last value given for a field. -/
def lastFor (field : Field) (changes : List (Field × Json.Value)) : Option Json.Value :=
  (changes.reverse.find? (·.1 = field)).map (·.2)

/-- The new value of a number. -/
def changedCount (changes : List (Field × Json.Value)) (s : Style) (c : Count) :
    Except Fault Nat :=
  match lastFor (.count c) changes with
  | none => .ok (s.count c)
  | some (.int n) => if n < 0 then .error (.negative c) else .ok n.toNat
  | some value => .error (.notCount c value)

/-- The new value of a switch. -/
def changedSwitch (changes : List (Field × Json.Value)) (s : Style) (w : Switch) :
    Except Fault Bool :=
  match lastFor (.switch w) changes with
  | none => .ok (s.switch w)
  | some (.bool b) => .ok b
  | some value => .error (.notSwitch w value)

/-- Change a style by settings, given as the members of an object. -/
def override (settings : List (Json.Letters × Json.Value)) (s : Style) : Except Fault Style := do
  let changes ← settings.mapM resolve
  let indentWidth ← changedCount changes s .indentWidth
  let columnLimit ← changedCount changes s .columnLimit
  let allowedBlankLines ← changedCount changes s .allowedBlankLines
  let trimComments ← changedSwitch changes s .trimComments
  let spaceDefinitions ← changedSwitch changes s .spaceDefinitions
  let spaceControl ← changedSwitch changes s .spaceControl
  let alignArguments ← changedSwitch changes s .alignArguments
  let continuationIndent ← changedCount changes s .continuationIndent
  if h : 0 < columnLimit then
    return ⟨indentWidth, columnLimit, allowedBlankLines, trimComments, spaceDefinitions,
      spaceControl, alignArguments, continuationIndent, h⟩
  else .error .zeroColumnLimit

/-- The style of a list of settings over the standard style. -/
def ofSettings (settings : List (Json.Letters × Json.Value)) : Except Fault Style :=
  override settings standard

end Style

end Listfile
