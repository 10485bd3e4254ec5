import Listfile.Token.Reader

/-! Stepping through the tokens that carry structure. The cursor stays at the
end-of-file token once it is there. -/

namespace Listfile.Token

structure Cursor where
  /-- The tokens ahead, without spaces and without the end of the file. -/
  ahead : List Token
  stop : Token
  position : Nat

namespace Cursor

def start (source : Text) : Cursor :=
  ⟨(scan source).filter isSignificant,
    ⟨.endOfFile, [], .point source.length, false, false, true⟩, 0⟩

def current (c : Cursor) : Token := c.ahead.headD c.stop

/-- Step over the current token. -/
def bump (c : Cursor) : Token × Cursor :=
  match c.ahead with
  | [] => (c.stop, c)
  | t :: rest => (t, { c with ahead := rest, position := c.position + 1 })

def isAt (kind : Kind) (c : Cursor) : Bool := c.current.kind = kind

/-- Step over the current token if it is of the kind `kind`. -/
def eat (kind : Kind) (c : Cursor) : Bool × Cursor :=
  if c.isAt kind then (true, c.bump.2) else (false, c)

/-- A report of a given code: about the current token unless a span is given, in the standard
wording unless a message is given. -/
def report (code : Diagnostic.Code) (span : Option Span) (message : Option String) (c : Cursor) :
    Diagnostic :=
  .worded code (message.getD code.summary) (span.getD c.current.span)

/-- A mark at a position, to see whether a cursor has moved on since. -/
structure Mark where
  position : Option Nat

/-- Whether the cursor has moved on since the mark was set; the mark moves to the cursor. -/
def Mark.passed (m : Mark) (c : Cursor) : Bool × Mark :=
  ((match m.position with
    | none => true
    | some p => p < c.position), ⟨some c.position⟩)

/-- What is said about a cursor that does not move on. -/
def stalled (c : Cursor) : String :=
  "Parser stopped making progress at " ++ c.current.kind.name ++ " " ++ c.current.span.text

end Cursor

end Listfile.Token
