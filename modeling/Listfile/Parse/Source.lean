import Listfile.Parse.Block

/-! A source text and all that reading it tells: its statements, its reports in
source order, and how deeply it nests. -/

namespace Listfile

structure Source where
  text : Text
  statements : List Statement
  diagnostics : List Diagnostic
  /-- The deepest nesting of blocks or of parentheses. -/
  depth : Nat

namespace Parse

/-- The tokens of a source that carry structure. -/
def significant (source : Text) : List Token := (Token.scan source).filter Token.isSignificant

/-- The items of a source. -/
def itemsOf (source : Text) : List Item :=
  items (.ofText source) (.point source.length) (significant source)

end Parse

namespace Source

/-- Read a text. Reports on tokens come before reports on commands that start at the same offset. -/
def parse (text : Text) : Source :=
  let r := Parse.read [] (Parse.itemsOf text)
  { text
    statements := r.statements
    diagnostics := Diagnostic.sortByStart (Token.faults (Token.scan text) ++ r.faults)
    depth := max (Parse.parenDepth 0 (Parse.significant text)) r.depth }

def hasErrors (s : Source) : Bool := Diagnostic.hasErrors s.diagnostics

/-- The deepest nesting that a source may have. -/
def maxDepth : Nat := 1000

/-- Whether a source nests no deeper than it may. -/
def fits (s : Source) : Bool := s.depth ≤ maxDepth

/-- Read a text, unless it nests more than `limit` deep. -/
def parseWithin (limit : Nat) (text : Text) : Option Source :=
  let s := parse text
  if s.depth ≤ limit then some s else none

/-- Read a text, unless it nests too deeply. -/
def parse? (text : Text) : Option Source := parseWithin maxDepth text

end Source

end Listfile
