import Listfile.Text.Basic

/-! Half-open ranges of character offsets. A span always has its start at or
before its stop, so the only way to a bad one is through integers that come
from outside, and `ofInts` says which of the two faults they have. -/

namespace Listfile

/-- The offsets from `start` up to, and not including, `stop`. -/
structure Span where
  start : Nat
  stop : Nat
  start_le_stop : start ≤ stop
  deriving DecidableEq, Repr

namespace Span

/-- Why two integers are no span. -/
inductive Fault
  | negative
  | reversed
  deriving DecidableEq, Repr

def Fault.message : Fault → String
  | .negative => "TextRange positions cannot be negative"
  | .reversed => "TextRange invariant violated: start > end"

/-- The span of two integers; a negative offset is reported before a reversed pair. -/
def ofInts (start stop : Int) : Except Fault Span :=
  if h : start < 0 ∨ stop < 0 then .error .negative
  else if h' : stop < start then .error .reversed
  else .ok ⟨start.toNat, stop.toNat, by omega⟩

/-- The empty span at an offset. -/
def point (offset : Nat) : Span := ⟨offset, offset, Nat.le_refl _⟩

/-- The span of `length` characters from `start`. -/
def ofLength (start length : Nat) : Span := ⟨start, start + length, Nat.le_add_right _ _⟩

def length (s : Span) : Nat := s.stop - s.start

def isEmpty (s : Span) : Bool := s.start == s.stop

/-- The least span that holds both. -/
def cover (a b : Span) : Span :=
  ⟨min a.start b.start, max a.stop b.stop, by
    have := a.start_le_stop
    have := b.start_le_stop
    omega⟩

/-- The least span that holds all of a list, if there is any. -/
def coverAll : List Span → Option Span
  | [] => none
  | s :: rest => some (rest.foldl cover s)

/-- The part of a text inside the span; offsets past the end of the text hold nothing. -/
def slice (s : Span) (t : Text) : Text := (t.drop s.start).take s.length

/-- Order by start, then by stop. -/
def le (a b : Span) : Bool :=
  decide (a.start < b.start ∨ (a.start = b.start ∧ a.stop ≤ b.stop))

def sort (spans : List Span) : List Span := spans.mergeSort le

/-- The two offsets as a pair. -/
def pairText (s : Span) : String := s!"({s.start}, {s.stop})"

def text (s : Span) : String := "TextRange" ++ s.pairText

end Span

end Listfile
