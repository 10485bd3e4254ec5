import Listfile.Text.Basic

/-! Lines and columns. Lines are counted from one and end at line feeds;
columns are counted from zero. A `LineIndex` holds the offsets at which lines
start, and an offset is looked up by going through the starts at or before it. -/

namespace Listfile

/-- A line, counted from one, and a column, counted from zero. -/
structure Location where
  line : Nat
  column : Nat
  one_le_line : 1 ≤ line
  deriving DecidableEq, Repr

namespace Location

/-- Why two integers, or an offset, name no place in a text. -/
inductive Fault
  | lineBelowOne
  | columnNegative
  deriving DecidableEq, Repr

def Fault.message : Fault → String
  | .lineBelowOne => "SourceLocation line is 1-based"
  | .columnNegative => "SourceLocation column cannot be negative"

/-- The location of two integers; the line is checked first. -/
def ofInts (line column : Int) : Except Fault Location :=
  if h : line < 1 then .error .lineBelowOne
  else if column < 0 then .error .columnNegative
  else .ok ⟨line.toNat, column.toNat, by omega⟩

end Location

/-- The start offsets of every line but the first, which starts at zero. -/
structure LineIndex where
  starts : List Nat
  deriving DecidableEq, Repr

namespace LineIndex

/-- The offsets just after each line feed of `t`, where `t` begins at `offset`. -/
def startsFrom (offset : Nat) : Text → List Nat
  | [] => []
  | c :: t => if c = '\n' then (offset + 1) :: startsFrom (offset + 1) t
      else startsFrom (offset + 1) t

def ofText (t : Text) : LineIndex := ⟨startsFrom 0 t⟩

def lineCount (i : LineIndex) : Nat := i.starts.length + 1

/-- Go on to the last line that starts at or before an offset: how many lines stand before it, and
its start. `line` and `start` are those of the line reached so far. -/
def seek (offset line start : Nat) : List Nat → Nat × Nat
  | [] => (line, start)
  | s :: rest => if s ≤ offset then seek offset (line + 1) s rest else (line, start)

/-- The place of an offset. An offset past the end of the text lies on the last line. -/
def location (i : LineIndex) (offset : Nat) : Location :=
  let (line, start) := seek offset 0 0 i.starts
  ⟨line + 1, offset - start, Nat.le_add_left _ _⟩

theorem seek_start_le (offset line start : Nat) (h : start ≤ offset) (starts : List Nat) :
    (seek offset line start starts).2 ≤ offset := by
  induction starts generalizing line start with
  | nil => exact h
  | cons s starts ih =>
    rw [seek]
    split
    · next hs => exact ih _ _ hs
    · exact h

/-- The number of the line and the distance from its start are never refused. -/
theorem ofInts_seek (i : LineIndex) (offset : Nat) :
    Location.ofInts ((seek offset 0 0 i.starts).1 + 1)
      ((offset : Int) - (seek offset 0 0 i.starts).2) = .ok (i.location offset) := by
  have hle := seek_start_le offset 0 0 (Nat.zero_le _) i.starts
  unfold Location.ofInts location
  rw [dif_neg (by omega), if_neg (by omega)]
  simp only [Except.ok.injEq, Location.mk.injEq]
  omega

/-- The place of an integer offset; no line holds a negative one. -/
def locate (i : LineIndex) (offset : Int) : Except Location.Fault Location :=
  if offset < 0 then .error .lineBelowOne else .ok (i.location offset.toNat)

end LineIndex

end Listfile
