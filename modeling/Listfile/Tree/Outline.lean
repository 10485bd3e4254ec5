import Listfile.Diagnostic
import Listfile.Text.Folded
import Listfile.Tree.Basic

/-! A printed outline of a syntax tree. Nodes are records with named fields,
lists are tuples. What fits into the eighty columns of a line stays on it; a
record or tuple that does not is broken into one line for each of its parts,
aligned behind the opening parenthesis, and a string is folded. -/

namespace Listfile

inductive Outline
  | leaf (text : Text)
  | string (contents : Text)
  | tuple (parts : List Outline)
  | record (name : Text) (fields : List (Text × Outline))

namespace Outline

/-- The width of a line. -/
def lineWidth : Nat := 80

/-- What closes a tuple of `n` parts: a tuple of one has a comma. -/
def tupleEnd (n : Nat) : Text := if n = 1 then ",)".toList else [')']

/-! ### On one line -/

mutual

def inline : Outline → Text
  | .leaf text => text
  | .string contents => Text.quote contents
  | .tuple parts => '(' :: (Text.commas (inlineAll parts) ++ tupleEnd parts.length)
  | .record name fields => name ++ '(' :: (Text.commas (inlineFields fields) ++ [')'])

def inlineAll : List Outline → List Text
  | [] => []
  | o :: rest => o.inline :: inlineAll rest

def inlineFields : List (Text × Outline) → List Text
  | [] => []
  | (name, o) :: rest => (name ++ '=' :: o.inline) :: inlineFields rest

end

/-! ### On several lines -/

/-- A comma, a line break and the spaces up to `column`. -/
def nextLine (column : Nat) : Text := ',' :: '\n' :: Text.spaces column

mutual

/-- An outline that starts at `column` and has `allowance` columns to be kept free behind it. -/
def layout (column allowance : Nat) (o : Outline) : Text :=
  if (inline o).length + column + allowance ≤ lineWidth then inline o
  else match o with
    | .leaf text => text
    | .string contents =>
      Text.join ('\n' :: Text.spaces column)
        (Text.foldedLiterals ((lineWidth : Int) - column) allowance contents)
    | .tuple parts => '(' :: layoutParts (column + 1) allowance (tupleEnd parts.length) parts
    | .record name fields =>
      let inner := column + name.length + 1
      name ++ '(' :: (layoutFields inner allowance fields ++ [')'])

/-- The parts of a tuple and its end, at `column`. -/
def layoutParts (column allowance : Nat) (stop : Text) : List Outline → Text
  | [] => stop
  | [o] => layout column (allowance + stop.length) o ++ stop
  | o :: rest => layout column 1 o ++ nextLine column ++ layoutParts column allowance stop rest

/-- The fields of a record, at `column`. -/
def layoutFields (column allowance : Nat) : List (Text × Outline) → Text
  | [] => []
  | [(name, o)] => name ++ '=' :: layout (column + name.length + 1) allowance o
  | (name, o) :: rest =>
    name ++ '=' :: (layout (column + name.length + 1) 1 o ++ nextLine column ++
      layoutFields column allowance rest)

end

/-! ### Nesting -/

mutual

/-- The number of records and tuples around the innermost part. -/
def depth : Outline → Nat
  | .leaf _ => 0
  | .string _ => 0
  | .tuple parts => 1 + depthAll parts
  | .record _ fields => 1 + depthFields fields

def depthAll : List Outline → Nat
  | [] => 0
  | o :: rest => max o.depth (depthAll rest)

def depthFields : List (Text × Outline) → Nat
  | [] => 0
  | (_, o) :: rest => max o.depth (depthFields rest)

end

/-- The deepest outline that is printed. -/
def maxDepth : Nat := 325

/-! ### Outlines of trees -/

def word (s : String) : Outline := .leaf s.toList

def number (n : Nat) : Outline := .leaf (Nat.toDigits 10 n)

def truth (b : Bool) : Outline := word (if b then "True" else "False")

def entry (name : String) (o : Outline) : Text × Outline := (name.toList, o)

def node (name : String) (fields : List (Text × Outline)) : Outline := .record name.toList fields

def ofLocation : Option Location → Outline
  | none => word "None"
  | some l => node "SourceLocation" [entry "line" (number l.line), entry "column" (number l.column)]

mutual

def ofArgument : Argument → Outline
  | .unquoted text => node "AstUnquotedArgument" [entry "text" (.string text)]
  | .quoted text => node "AstQuotedArgument" [entry "text" (.string text)]
  | .bracket text fence location =>
    node "AstBracketArgument" [entry "text" (.string text), entry "fence_length" (number fence),
      entry "location" (ofLocation location)]
  | .group arguments => node "AstGroup" [entry "arguments" (.tuple (ofArguments arguments))]
  | .lineComment text location =>
    node "AstLineComment" [entry "text" (.string text), entry "trailing" (truth false),
      entry "location" (ofLocation location)]
  | .bracketComment text fence location =>
    node "AstBracketComment" [entry "text" (.string text), entry "fence_length" (number fence),
      entry "trailing" (truth false), entry "location" (ofLocation location)]
  | .unknown => word "None"

def ofArguments : List Argument → List Outline
  | [] => []
  | a :: rest => ofArgument a :: ofArguments rest

end

/-- A kind of node by its two names. -/
def ofKind (keyword : Text) : Outline :=
  .leaf ("<SyntaxKind.".toList ++ keyword.map Char.toUpper ++ ": ".toList ++ Text.quote keyword ++
    ['>'])

mutual

def ofStatement : Statement → Outline
  | .lineBreak location => node "AstNewline" [entry "location" (ofLocation location)]
  | .lineComment text trailing location =>
    node "AstLineComment" [entry "text" (.string text), entry "trailing" (truth trailing),
      entry "location" (ofLocation location)]
  | .bracketComment text fence trailing location =>
    node "AstBracketComment" [entry "text" (.string text), entry "fence_length" (number fence),
      entry "trailing" (truth trailing), entry "location" (ofLocation location)]
  | .bracket text fence location =>
    node "AstBracketArgument" [entry "text" (.string text), entry "fence_length" (number fence),
      entry "location" (ofLocation location)]
  | .command name arguments location =>
    node "AstCommandInvocation" [entry "identifier" (.string name),
      entry "arguments" (.tuple (ofArguments arguments)), entry "location" (ofLocation location)]
  | .definition kind name arguments body location =>
    node "AstDefinition" [entry "identifier" (.string name),
      entry "arguments" (.tuple (ofArguments arguments)),
      entry "body" (.tuple (ofStatements body)), entry "kind" (ofKind kind.keyword),
      entry "location" (ofLocation location)]
  | .conditional (.mk predicate body location) elseifs none =>
    node "AstConditional" [entry "predicate" (.tuple (ofArguments predicate)),
      entry "body" (.tuple (ofStatements body)),
      entry "else_branches" (.tuple (ofBranches elseifs)), entry "else_body" (word "None"),
      entry "location" (ofLocation location)]
  | .conditional (.mk predicate body location) elseifs (some arm) =>
    node "AstConditional" [entry "predicate" (.tuple (ofArguments predicate)),
      entry "body" (.tuple (ofStatements body)),
      entry "else_branches" (.tuple (ofBranches elseifs)), entry "else_body" (ofBranch arm),
      entry "location" (ofLocation location)]
  | .loop kind arguments body location =>
    node "AstLoop" [entry "arguments" (.tuple (ofArguments arguments)),
      entry "body" (.tuple (ofStatements body)), entry "kind" (ofKind kind.keyword),
      entry "location" (ofLocation location)]
  | .unknown => word "None"

def ofStatements : List Statement → List Outline
  | [] => []
  | s :: rest => ofStatement s :: ofStatements rest

def ofBranch : Branch → Outline
  | .mk predicate body location =>
    node "AstBranch" [entry "predicate" (.tuple (ofArguments predicate)),
      entry "body" (.tuple (ofStatements body)), entry "location" (ofLocation location)]

def ofBranches : List Branch → List Outline
  | [] => []
  | b :: rest => ofBranch b :: ofBranches rest

end

def ofDiagnostic (d : Diagnostic) : Outline :=
  let string (s : String) : Outline := .string s.toList
  node "Diagnostic" [entry "code" (string d.code.name), entry "message" (string d.message),
    entry "range" (word d.span.text), entry "severity" (string d.severity.name),
    entry "hint" ((d.code.hint?.map string).getD (word "None")),
    entry "category" (string d.code.category)]

end Outline

end Listfile
