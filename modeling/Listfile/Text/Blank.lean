import Listfile.Text.Basic

/-! Blank characters and trimming. The blank characters are those of the
Unicode classes of separators and the control characters that separate lines,
records or fields. -/

namespace Listfile.Text

/-- Ranges of blank characters, in increasing order. -/
def blankRanges : List (Nat × Nat) :=
  [(0x09, 0x0D), (0x1C, 0x20), (0x85, 0x85), (0xA0, 0xA0), (0x1680, 0x1680), (0x2000, 0x200A),
    (0x2028, 0x2029), (0x202F, 0x202F), (0x205F, 0x205F), (0x3000, 0x3000)]

/-- Whether a character lies in one of some ranges, which are in increasing order. -/
def inRanges (c : Char) : List (Nat × Nat) → Bool
  | [] => false
  | (low, high) :: rest => low ≤ c.toNat && (c.toNat ≤ high || inRanges c rest)

def isBlank (c : Char) : Bool := inRanges c blankRanges

/-- The text without the blank characters at its end. -/
def trimEnd (t : Text) : Text := (t.reverse.dropWhile isBlank).reverse

/-- The text without the blank characters at its two ends. -/
def trim (t : Text) : Text := trimEnd (t.dropWhile isBlank)

end Listfile.Text
