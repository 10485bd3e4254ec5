import Listfile.Text.Quoted

/-! A text written as several literals, one below the other, where a single one
would be too wide. The text is cut behind its line ends. A line that is still
too wide is cut behind blank text, and each literal takes as many of its pieces
as fit. Columns are kept free behind the last literal only. -/

namespace Listfile.Text

/-- The characters that end a line of a literal. -/
def lineEnds : List Nat := [0x0A, 0x0B, 0x0C, 0x0D, 0x1C, 0x1D, 0x1E, 0x85, 0x2028, 0x2029]

/-- The lines of a text, each with what ends it. A carriage return and the line feed behind it end
one line. -/
def linesWithEnds : Text → List Text
  | [] => []
  | '\r' :: '\n' :: t => ['\r', '\n'] :: linesWithEnds t
  | c :: t =>
    if lineEnds.contains c.toNat then [c] :: linesWithEnds t
    else match linesWithEnds t with
      | [] => [[c]]
      | line :: rest => (c :: line) :: rest

/-- A text cut behind each run of blank characters. -/
def cutBehindBlank : Text → List Text
  | [] => []
  | c :: t =>
    match cutBehindBlank t with
    | [] => [[c]]
    | piece :: rest =>
      if isBlank c && !(piece.head?.map isBlank).getD false then [c] :: piece :: rest
      else (c :: piece) :: rest

/-- Pieces put together as long as their literal has at most `width` characters, or `lastWidth`
once it holds the last piece. `current` holds the pieces put together so far. -/
def fill (width lastWidth : Int) (current : Text) : List Text → List Text
  | [] => if current.isEmpty then [] else [current]
  | piece :: rest =>
    if (if rest.isEmpty then lastWidth else width) < (quote (current ++ piece)).length then
      if current.isEmpty then fill width lastWidth piece rest
      else current :: fill width lastWidth piece rest
    else fill width lastWidth (current ++ piece) rest

/-- The texts of the literals that a line is written as. -/
def foldLine (width lastWidth : Int) (line : Text) : List Text :=
  if (quote line).length ≤ lastWidth then [line]
  else fill width lastWidth [] (cutBehindBlank line)

/-- The texts of the literals that some lines are written as. -/
def foldLines (width allowance : Int) : List Text → List Text
  | [] => []
  | line :: rest =>
    foldLine width (if rest.isEmpty then width - allowance else width) line ++
      foldLines width allowance rest

/-- The literals of a text, each at most `width` wide as far as possible, with `allowance` columns
kept free behind the last one. An empty text has a literal too. -/
def foldedLiterals (width allowance : Int) (t : Text) : List Text :=
  if t.isEmpty then [quote t] else (foldLines width allowance (linesWithEnds t)).map quote

end Listfile.Text
