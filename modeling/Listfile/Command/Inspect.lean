import Listfile.Command.Outcome
import Listfile.Parse.Source
import Listfile.Token.Listing
import Listfile.Tree.Outline

/-! Two programs that show how one file is read: its tokens, or its syntax tree
and the reports on it. -/

namespace Listfile.Command

/-- A program that takes one path. -/
def onePath (program : String) : CommandLine.Grammar Path where
  program
  choices := [.help]
  positional := "path"
  many := false
  setPositional := fun words path => (words.head?.map Path.ofText).getD path

/-- Print the tokens of a file. -/
def tokens (read : ReadFile) (words : List Text) : Except Abort Outcome :=
  Outcome.ofCommandLine (onePath "dump_tokens.py") (.ofText []) words fun path => do
    let tokens := Token.scan (← read.require path)
    return .printed (Token.listing tokens (some (Token.faults tokens))).toList

/-- The outline of a source: its statements, then a line for each report. -/
def outline (s : Source) : Except Abort Text :=
  let statements := Outline.tuple (Outline.ofStatements s.statements)
  if Outline.maxDepth < statements.depth then .error .tooDeep
  else .ok (statements.layout 0 0 ++ ['\n'] ++
    s.diagnostics.flatMap fun d => (Outline.ofDiagnostic d).inline ++ ['\n'])

/-- Print the syntax tree of a file. -/
def tree (read : ReadFile) (words : List Text) : Except Abort Outcome :=
  Outcome.ofCommandLine (onePath "dump_ast.py") (.ofText []) words fun path => do
    match Source.parse? (← read.require path) with
    | none => .error .tooDeep
    | some s => return .printed (← outline s)

end Listfile.Command
