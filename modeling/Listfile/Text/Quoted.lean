import Listfile.Text.Hidden

/-! Texts written as quoted literals. The delimiter is an apostrophe, or a
double quote for a text that holds apostrophes and no double quote. The
delimiter and the backslash are escaped, and characters that do not show on a
page are written by number. -/

namespace Listfile.Text

/-- `n` in hexadecimal, filled up with zeros to `width` digits. -/
def hex (width n : Nat) : Text :=
  let digits := Nat.toDigits 16 n
  List.replicate (width - digits.length) '0' ++ digits

/-- A character by its number: two digits, four or eight. -/
def escapeByNumber (c : Char) : Text :=
  let n := c.toNat
  if n < 0x100 then '\\' :: 'x' :: hex 2 n
  else if n < 0x10000 then '\\' :: 'u' :: hex 4 n
  else '\\' :: 'U' :: hex 8 n

/-- One character of a literal between two `delimiter`s. -/
def escape (delimiter c : Char) : Text :=
  if c = delimiter || c = '\\' then ['\\', c]
  else if c = '\t' then ['\\', 't']
  else if c = '\n' then ['\\', 'n']
  else if c = '\r' then ['\\', 'r']
  else if isHidden c then escapeByNumber c
  else [c]

def delimiterFor (t : Text) : Char :=
  if t.contains '\x27' && !t.contains '"' then '"' else '\x27'

/-- The literal that stands for a text. -/
def quote (t : Text) : Text :=
  let d := delimiterFor t
  d :: (t.flatMap (escape d) ++ [d])

/-- The literal that stands for a string. -/
def quoteString (s : String) : String := String.ofList (quote s.toList)

end Listfile.Text
