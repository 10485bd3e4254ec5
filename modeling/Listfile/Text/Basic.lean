/-! Text as a list of characters, with the few measures that the layout needs.
A line ends at a line feed and nowhere else; widths and columns count
characters. -/

namespace Listfile

/-- Source text, formatted text and the texts of tokens. -/
abbrev Text := List Char

namespace Text

/-- A run of `n` spaces. -/
def spaces (n : Nat) : Text := List.replicate n ' '

/-- Texts with a separator between them. -/
def join (separator : Text) : List Text → Text
  | [] => []
  | [t] => t
  | t :: rest => t ++ separator ++ join separator rest

/-- Words separated by single spaces. -/
def unwords (words : List Text) : Text := join [' '] words

/-- Texts separated by commas. -/
def commas (texts : List Text) : Text := join [',', ' '] texts

/-- The width of the first line. -/
def firstWidth (t : Text) : Nat := (t.takeWhile (· ≠ '\n')).length

/-- The column reached by writing one character at `column`. -/
def advance (column : Nat) (c : Char) : Nat :=
  if c = '\n' then 0 else column + 1

/-- The column reached by writing `t` from `column`. -/
def endColumn (t : Text) (column : Nat) : Nat := t.foldl advance column

theorem endColumn_append (s t : Text) (column : Nat) :
    endColumn (s ++ t) column = endColumn t (endColumn s column) := by
  simp [endColumn, List.foldl_append]

/-- ASCII letters in lower case, all else unchanged. -/
def lower (t : Text) : Text := t.map Char.toLower

end Text

end Listfile
