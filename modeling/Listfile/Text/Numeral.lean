import Listfile.Text.Blank

/-! Whole numbers as people type them: blank text around the number, a sign,
digits of any script, and single underscores between digits. -/

namespace Listfile.Text

/-- The digit zero of every script that writes numbers in base ten; the other nine digits follow
it. -/
def zeroDigits : List Nat :=
  [0x30, 0x660, 0x6F0, 0x7C0, 0x966, 0x9E6, 0xA66, 0xAE6, 0xB66, 0xBE6, 0xC66, 0xCE6, 0xD66, 0xDE6,
    0xE50, 0xED0, 0xF20, 0x1040, 0x1090, 0x17E0, 0x1810, 0x1946, 0x19D0, 0x1A80, 0x1A90, 0x1B50,
    0x1BB0, 0x1C40, 0x1C50, 0xA620, 0xA8D0, 0xA900, 0xA9D0, 0xA9F0, 0xAA50, 0xABF0, 0xFF10, 0x104A0,
    0x10D30, 0x11066, 0x110F0, 0x11136, 0x111D0, 0x112F0, 0x11450, 0x114D0, 0x11650, 0x116C0,
    0x11730, 0x118E0, 0x11950, 0x11C50, 0x11D50, 0x11DA0, 0x16A60, 0x16AC0, 0x16B50, 0x1D7CE,
    0x1D7D8, 0x1D7E2, 0x1D7EC, 0x1D7F6, 0x1E140, 0x1E2F0, 0x1E950, 0x1FBF0]

/-- The value of a digit. -/
def digit? (c : Char) : Option Nat :=
  (zeroDigits.find? fun z => z ≤ c.toNat && c.toNat ≤ z + 9).map (c.toNat - ·)

/-- Blank characters that may stand around a number; the four that separate records may not. -/
def isNumeralBlank (c : Char) : Bool := isBlank c && !(0x1C ≤ c.toNat && c.toNat ≤ 0x1F)

/-- The digits of a number, in which each underscore stands between two digits. -/
def digitRun? : Text → Option (List Nat)
  | [] => none
  | [c] => (digit? c).map ([·])
  | c :: '_' :: t => do return (← digit? c) :: (← digitRun? t)
  | c :: t => do return (← digit? c) :: (← digitRun? t)

/-- The most digits that are converted to a number. -/
def maxNumeralDigits : Nat := 4300

/-- The number of a run of digits. -/
def natural? (t : Text) : Option Nat := do
  let digits ← digitRun? t
  if digits.length ≤ maxNumeralDigits then return digits.foldl (fun n d => 10 * n + d) 0 else none

/-- The whole number that a text stands for. -/
def integer? (t : Text) : Option Int :=
  let body := ((t.dropWhile isNumeralBlank).reverse.dropWhile isNumeralBlank).reverse
  match body with
  | '-' :: t => (natural? t).map fun n => -(n : Int)
  | '+' :: t => (natural? t).map fun n => (n : Int)
  | t => (natural? t).map fun n => (n : Int)

end Listfile.Text
