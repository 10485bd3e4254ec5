import Listfile.Style

/-! A page that is being written. Indentation is not written by a line break but
by the first text on the new line, so that blank lines hold no spaces and
closing a level never touches what is written already. Line breaks in a row are
counted, and one more than the style allows blank lines is refused. Two things
cannot be done: to close a level where none is open, and to write a run of
spaces that is longer than any text. -/

namespace Listfile.Layout

/-- The longest run of one character that a text can be built from. -/
def maxRun : Nat := 9223372036854775807

structure Page where
  /-- The text so far, last character first. -/
  written : Text
  /-- Open levels of indentation, innermost first, each with its width. -/
  levels : List Nat
  column : Nat
  atLineStart : Bool
  /-- Line breaks since the last text. -/
  breaks : Nat
  deriving DecidableEq, Repr

namespace Page

def empty : Page := ⟨[], [], 0, true, 0⟩

def text (p : Page) : Text := p.written.reverse

def isEmpty (p : Page) : Bool := p.written.isEmpty

/-- The indentation of the next line. -/
def indentation (p : Page) : Nat := p.levels.headD 0

/-- Characters since the last line break. -/
def currentColumn (p : Page) : Nat := if p.atLineStart then 0 else p.column

/-- Write a text, behind the indentation if it is the first of its line. -/
def write (t : Text) (p : Page) : Page :=
  if t.isEmpty then p
  else
    let body := if p.atLineStart then Text.spaces p.indentation ++ t else t
    { p with
      written := body.reverse ++ p.written
      column := Text.endColumn body p.currentColumn
      atLineStart := false
      breaks := 0 }

/-- Whether one more line break keeps within the allowed blank lines. -/
def canBreak (s : Style) (p : Page) : Bool := p.breaks ≤ s.allowedBlankLines

/-- Break the line, unless it would make too many blank lines. -/
def newline (s : Style) (p : Page) : Page :=
  if p.canBreak s then
    { p with
      written := '\n' :: p.written
      column := 0
      atLineStart := true
      breaks := p.breaks + 1 }
  else p

/-- Break the line if something stands on it. -/
def ensureLineStart (s : Style) (p : Page) : Page :=
  if p.atLineStart then p else p.newline s

/-- Open a level of indentation. -/
def indent (s : Style) (p : Page) : Page :=
  { p with levels := (p.indentation + s.indentWidth) :: p.levels }

/-- Close the innermost level of indentation. -/
def dedent (p : Page) : Page := { p with levels := p.levels.tail }

/-- Why something cannot be done with a page. -/
inductive Fault
  | noOpenLevel
  /-- A run of one character is too long. -/
  | tooWide
  deriving DecidableEq, Repr

def Fault.message : Fault → String
  | .noOpenLevel => "dedent() without a matching indent()"
  | .tooWide => "cannot fit 'int' into an index-sized integer"

/-- Close the innermost level of indentation, if one is open. -/
def dedent? (p : Page) : Except Fault Page :=
  if p.levels.isEmpty then .error .noOpenLevel else .ok p.dedent

/-- Whether a text stands behind more spaces than a run can have. -/
def overflows (t : Text) (p : Page) : Bool :=
  !t.isEmpty && p.atLineStart && maxRun < p.indentation

/-- Write a text, if the spaces before it are not too many. -/
def write? (t : Text) (p : Page) : Except Fault Page :=
  if p.overflows t then .error .tooWide else .ok (p.write t)

end Page

end Listfile.Layout
