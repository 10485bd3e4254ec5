import Listfile.Text.Span
import Listfile.Text.Location

/-! Reports on a source text. The code of a report fixes its standard wording,
its hint and the part of the program that gives it; a report may carry a
wording of its own and always carries the span it is about. -/

namespace Listfile

/-- What a report is about. -/
inductive Diagnostic.Code
  | unterminatedQuoted
  | unterminatedBracket
  | expectedCommand
  | expectedOpenParen
  | unterminatedArguments
  | missingDefinitionName
  | unmatchedBlockEnd
  | unterminatedBlock
  | misplacedBranch
  | readFailed
  | nestingTooDeep
  deriving DecidableEq, Repr

/-- How serious a report is. -/
inductive Diagnostic.Severity
  | error
  | warning
  /-- A level with a name of its own; it is no error. -/
  | other (name : String)
  deriving DecidableEq, Repr

structure Diagnostic where
  code : Diagnostic.Code
  message : String
  span : Span
  severity : Diagnostic.Severity
  deriving DecidableEq, Repr

namespace Diagnostic

def Code.all : List Code :=
  [.unterminatedQuoted, .unterminatedBracket, .expectedCommand, .expectedOpenParen,
    .unterminatedArguments, .missingDefinitionName, .unmatchedBlockEnd, .unterminatedBlock,
    .misplacedBranch, .readFailed, .nestingTooDeep]

def Code.name : Code → String
  | .unterminatedQuoted => "LEXER_UNTERMINATED_QUOTED_ARGUMENT"
  | .unterminatedBracket => "LEXER_UNTERMINATED_BRACKET"
  | .expectedCommand => "PARSER_EXPECTED_COMMAND"
  | .expectedOpenParen => "PARSER_EXPECTED_LPAREN"
  | .unterminatedArguments => "PARSER_UNTERMINATED_ARGUMENTS"
  | .missingDefinitionName => "PARSER_MISSING_DEFINITION_NAME"
  | .unmatchedBlockEnd => "PARSER_UNMATCHED_BLOCK_END"
  | .unterminatedBlock => "PARSER_UNTERMINATED_BLOCK"
  | .misplacedBranch => "PARSER_MISPLACED_BRANCH"
  | .readFailed => "IO_READ_FAILED"
  | .nestingTooDeep => "FORMAT_NESTING_TOO_DEEP"

def Code.ofName? (name : String) : Option Code := all.find? (·.name = name)

/-- The standard wording of a report. -/
def Code.summary : Code → String
  | .unterminatedQuoted => "Unterminated quoted argument."
  | .unterminatedBracket => "Unterminated bracket argument or comment."
  | .expectedCommand => "Expected a command invocation"
  | .expectedOpenParen => "Expected `(` after command name"
  | .unterminatedArguments => "Argument list is missing its closing `)`"
  | .missingDefinitionName => "Function or macro definition is missing its name"
  | .unmatchedBlockEnd => "Block terminator without a matching opening command"
  | .unterminatedBlock => "Block is missing its terminating command"
  | .misplacedBranch => "`elseif`/`else` outside of an `if` block or after `else`"
  | .readFailed => "Could not read input file"
  | .nestingTooDeep => "Input nests too deeply to be formatted"

def Code.hint? : Code → Option String
  | .unterminatedQuoted => some "Close the argument with a double quote (`\"`)."
  | .unterminatedBracket =>
    some "Close the bracket with `]` followed by the same number of `=` and `]`."
  | .nestingTooDeep => some "Reduce the nesting depth of argument groups or blocks."
  | _ => none

/-- The part of the program that gives the report. -/
def Code.category : Code → String
  | .unterminatedQuoted | .unterminatedBracket => "lexer"
  | .readFailed => "io"
  | .nestingTooDeep => "format"
  | _ => "parser"

def Severity.name : Severity → String
  | .error => "error"
  | .warning => "warning"
  | .other name => name

def Severity.ofName (name : String) : Severity :=
  if name = "error" then .error else if name = "warning" then .warning else .other name

/-- An error in the standard wording of its code. -/
def ofCode (code : Code) (span : Span) : Diagnostic := ⟨code, code.summary, span, .error⟩

/-- An error in a wording of its own. -/
def worded (code : Code) (message : String) (span : Span) : Diagnostic :=
  ⟨code, message, span, .error⟩

def isError (d : Diagnostic) : Bool := d.severity = .error

def hasErrors (ds : List Diagnostic) : Bool := ds.any isError

def firstError? (ds : List Diagnostic) : Option Diagnostic := ds.find? isError

/-- Reports in the order of their start offsets; equal starts keep their order. -/
def sortByStart (ds : List Diagnostic) : List Diagnostic :=
  ds.mergeSort fun a b => a.span.start ≤ b.span.start

/-- One line of report: path, code, place and wording. A start past the end of
the source is placed at its end. -/
def line (path : String) (d : Diagnostic) (source : Text) : String :=
  let place := (LineIndex.ofText source).location (min d.span.start source.length)
  s!"{path}: {d.code.name} line {place.line}, {place.column}: {d.message}"

end Diagnostic

end Listfile
