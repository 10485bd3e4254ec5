import Listfile.Json.Value
import Listfile.Text.Location

/-! Reading a value from text. A fault is reported with the offset at which it
was noticed: a missing value or name where it should start, an open string at
its opening quote, a bad character inside a string where it stands. The
grammar is the usual one, with the additional numbers `NaN`, `Infinity` and
`-Infinity`, and with blank text made of spaces, tabs and line ends only. How
deeply values may be nested is up to the caller. -/

namespace Listfile.Json

/-- What is wrong with a text. -/
inductive Cause
  | expectedValue
  | expectedName
  | expectedColon
  | expectedComma
  | extraData
  | unterminatedString
  | controlCharacter
  | badEscape
  | badUnicodeEscape
  | byteOrderMark
  deriving DecidableEq, Repr

inductive Fault
  | malformed (cause : Cause) (offset : Nat)
  /-- A whole number with more digits than are converted. -/
  | longInteger (digits : Nat)
  /-- Values are nested more deeply than the caller allows. -/
  | tooDeep
  deriving DecidableEq, Repr

def Cause.message : Cause → String
  | .expectedValue => "Expecting value"
  | .expectedName => "Expecting property name enclosed in double quotes"
  | .expectedColon => "Expecting ':' delimiter"
  | .expectedComma => "Expecting ',' delimiter"
  | .extraData => "Extra data"
  | .unterminatedString => "Unterminated string starting at"
  | .controlCharacter => "Invalid control character at"
  | .badEscape => "Invalid \\escape"
  | .badUnicodeEscape => "Invalid \\uXXXX escape"
  | .byteOrderMark => "Unexpected UTF-8 BOM (decode using utf-8-sig)"

/-- The wording of a fault, with its line, column and offset in the source. -/
def Fault.message (source : Text) : Fault → String
  | .malformed cause offset =>
    let place := (LineIndex.ofText source).location offset
    s!"{cause.message}: line {place.line} column {place.column + 1} (char {offset})"
  | .longInteger digits =>
    s!"Exceeds the limit (4300 digits) for integer string conversion: value has {digits} digits; use sys.set_int_max_str_digits() to increase the limit"
  | .tooDeep => "Values are nested too deeply"

/-- A text and the offset at which it starts in the source. -/
structure Input where
  rest : Text
  offset : Nat

namespace Input

def drop (n : Nat) (i : Input) : Input := ⟨i.rest.drop n, i.offset + n⟩

def fail {α : Type} (cause : Cause) (i : Input) : Except Fault α :=
  .error (.malformed cause i.offset)

def isBlank (c : Char) : Bool := c = ' ' || c = '\t' || c = '\n' || c = '\r'

def skipBlank (i : Input) : Input := i.drop (i.rest.takeWhile isBlank).length

end Input

/-! ### Strings -/

def hexDigit? (c : Char) : Option Nat :=
  if '0' ≤ c && c ≤ '9' then some (c.toNat - 48)
  else if 'a' ≤ c && c ≤ 'f' then some (c.toNat - 87)
  else if 'A' ≤ c && c ≤ 'F' then some (c.toNat - 55)
  else none

/-- The number of a run of hexadecimal digits. -/
def hex? (t : Text) : Option Nat :=
  t.foldl (fun n c => do return 16 * (← n) + (← hexDigit? c)) (some 0)

/-- The character that a one-letter escape stands for. -/
def escape? (c : Char) : Option Char :=
  if c = '"' || c = '\\' || c = '/' then some c
  else if c = 'b' then some '\x08'
  else if c = 'f' then some '\x0c'
  else if c = 'n' then some '\n'
  else if c = 'r' then some '\r'
  else if c = 't' then some '\t'
  else none

def isHighSurrogate (n : Nat) : Bool := 0xD800 ≤ n && n ≤ 0xDBFF

def isLowSurrogate (n : Nat) : Bool := 0xDC00 ≤ n && n ≤ 0xDFFF

/-- The letter of a number: a surrogate without its partner stays what it is. -/
def letterOf (n : Nat) : Letter := if n.isValidChar then .char (Char.ofNat n) else .half n

/-- The second half of a surrogate pair at the front of a text: its number, or none if there is no
second escape. An escape at the very end of the text is not taken for a second half. -/
def lowHalf? : Text → Option (Option Nat)
  | '\\' :: 'u' :: a :: b :: c :: d :: _ :: _ => some (hex? [a, b, c, d])
  | _ => none

/-- The four digits of an escape by number; something has to follow them. -/
def fourDigits? : Text → Option Nat
  | a :: b :: c :: d :: _ :: _ => hex? [a, b, c, d]
  | _ => none

/-- The letter of an escape by number that starts behind its `u`, and the number of characters it
takes there. `offset` is the place of that `u`. -/
def unicodeEscape (offset : Nat) (t : Text) : Except Fault (Letter × Nat) :=
  match fourDigits? t with
  | none => .error (.malformed .badUnicodeEscape offset)
  | some high =>
    if isHighSurrogate high then
      match lowHalf? (t.drop 4) with
      | none => .ok (letterOf high, 4)
      | some none => .error (.malformed .badUnicodeEscape (offset + 6))
      | some (some low) =>
        if isLowSurrogate low then
          .ok (letterOf (0x10000 + (high - 0xD800) * 0x400 + (low - 0xDC00)), 10)
        else .ok (letterOf high, 4)
    else .ok (letterOf high, 4)

/-- The rest of a string behind its opening quote, which stands at `start`. -/
def stringTail (start : Nat) (offset : Nat) (t : Text) : Except Fault (Letters × Input) :=
  match t with
  | [] => .error (.malformed .unterminatedString start)
  | ['\\'] => .error (.malformed .unterminatedString start)
  | '\\' :: c :: t =>
    if c = 'u' then
      match unicodeEscape (offset + 1) t with
      | .error fault => .error fault
      | .ok (letter, n) => do
        let (s, i) ← stringTail start (offset + 2 + n) (t.drop n)
        return (letter :: s, i)
    else
      match escape? c with
      | none => .error (.malformed .badEscape offset)
      | some c => do
        let (s, i) ← stringTail start (offset + 2) t
        return (.char c :: s, i)
  | c :: t =>
    if c = '"' then .ok ([], ⟨t, offset + 1⟩)
    else if c.toNat ≤ 0x1F then .error (.malformed .controlCharacter offset)
    else do
      let (s, i) ← stringTail start (offset + 1) t
      return (.char c :: s, i)
termination_by t.length
decreasing_by all_goals simp_wf; try omega

/-! ### Numbers -/

def isDigit (c : Char) : Bool := '0' ≤ c && c ≤ '9'

def digitsValue (t : Text) : Nat := t.foldl (fun n c => 10 * n + (c.toNat - 48)) 0

/-- The digits before the point: a single zero, or a run that does not start with one. -/
def wholeDigits : Text → Text
  | [] => []
  | c :: t => if c = '0' then ['0'] else (c :: t).takeWhile isDigit

/-- The digits behind a point, if at least one follows it. -/
def fractionDigits : Text → Text
  | '.' :: t => t.takeWhile isDigit
  | _ => []

/-- The sign of an exponent and its digits, if at least one is there, with the length of all. -/
def exponentPart : Text → Option (Int × Nat)
  | c :: t =>
    if c = 'e' || c = 'E' then
      let (negative, signed) := match t with
        | '-' :: _ => (true, 1)
        | '+' :: _ => (false, 1)
        | _ => (false, 0)
      let digits := (t.drop signed).takeWhile isDigit
      if digits.isEmpty then none
      else
        let n : Int := digitsValue digits
        some (if negative then -n else n, 1 + signed + digits.length)
    else none
  | [] => none

/-- The most digits a whole number may have. -/
def maxDigits : Nat := 4300

def number (i : Input) : Except Fault (Value × Input) :=
  let negative := i.rest.head? = some '-'
  let body := if negative then i.drop 1 else i
  let whole := wholeDigits body.rest
  if whole.isEmpty then i.fail .expectedValue
  else
    let afterWhole := body.drop whole.length
    let fraction := fractionDigits afterWhole.rest
    let afterFraction :=
      if fraction.isEmpty then afterWhole else afterWhole.drop (1 + fraction.length)
    match fraction.isEmpty, exponentPart afterFraction.rest with
    | true, none =>
      if whole.length > maxDigits then .error (.longInteger whole.length)
      else
        let n : Int := digitsValue whole
        .ok (.int (if negative then -n else n), afterWhole)
    | _, exponent =>
      let (power, length) := exponent.getD (0, 0)
      .ok (.float (.ofDecimal negative (digitsValue (whole ++ fraction)) (power - fraction.length)),
        afterFraction.drop length)

/-! ### Values -/

/-- The words that stand for values. -/
def words : List (Text × Value) :=
  [("null".toList, .null), ("true".toList, .bool true), ("false".toList, .bool false),
    ("NaN".toList, .float .undefined), ("Infinity".toList, .float (.infinite false)),
    ("-Infinity".toList, .float (.infinite true))]

/-- A word or a number. -/
def atom (i : Input) : Except Fault (Value × Input) :=
  match words.find? fun w => w.1.isPrefixOf i.rest with
  | some (word, v) => .ok (v, i.drop word.length)
  | none => number i

mutual

/-- A value at the front of the input, nested at most `depth` deep. `fuel` bounds the number of
values and members ahead. -/
def value (fuel depth : Nat) (i : Input) : Except Fault (Value × Input) :=
  match fuel with
  | 0 => i.fail .expectedValue
  | fuel + 1 =>
    match i.rest, depth with
    | '"' :: t, _ => do
      let (s, i) ← stringTail i.offset (i.offset + 1) t
      return (.string s, i)
    | '[' :: _, 0 => .error .tooDeep
    | '[' :: _, depth + 1 => do
      let inner := (i.drop 1).skipBlank
      if inner.rest.head? = some ']' then return (.array [], inner.drop 1)
      let (elements, i) ← elements fuel depth inner
      return (.array elements, i)
    | '\x7b' :: _, 0 => .error .tooDeep
    | '\x7b' :: _, depth + 1 => do
      let inner := (i.drop 1).skipBlank
      if inner.rest.head? = some '\x7d' then return (.object [], inner.drop 1)
      let (members, i) ← members fuel depth inner
      return (.object (collect members), i)
    | _, _ => atom i

/-- The elements of an array and the bracket that closes it. -/
def elements (fuel depth : Nat) (i : Input) : Except Fault (List Value × Input) :=
  match fuel with
  | 0 => i.fail .expectedValue
  | fuel + 1 => do
    let (v, i) ← value fuel depth i
    let i := i.skipBlank
    match i.rest with
    | ']' :: _ => return ([v], i.drop 1)
    | ',' :: _ => do
      let (rest, i) ← elements fuel depth (i.drop 1).skipBlank
      return (v :: rest, i)
    | _ => i.fail .expectedComma

/-- The members of an object and the brace that closes it. -/
def members (fuel depth : Nat) (i : Input) : Except Fault (List (Letters × Value) × Input) :=
  match fuel with
  | 0 => i.fail .expectedValue
  | fuel + 1 =>
    match i.rest with
    | '"' :: t => do
      let (name, i) ← stringTail i.offset (i.offset + 1) t
      let i := i.skipBlank
      if i.rest.head? ≠ some ':' then i.fail .expectedColon
      let (v, i) ← value fuel depth (i.drop 1).skipBlank
      let i := i.skipBlank
      match i.rest with
      | '\x7d' :: _ => return ([(name, v)], i.drop 1)
      | ',' :: _ => do
        let (rest, i) ← members fuel depth (i.drop 1).skipBlank
        return ((name, v) :: rest, i)
      | _ => i.fail .expectedComma
    | _ => i.fail .expectedName

end

/-- Read a whole text as one value that is nested at most `depth` deep. -/
def parse (depth : Nat) (source : Text) : Except Fault Value := do
  let start : Input := ⟨source, 0⟩
  if source.head? = some '\uFEFF' then start.fail .byteOrderMark
  let (v, i) ← value (2 * source.length + 2) depth start.skipBlank
  let i := i.skipBlank
  if !i.rest.isEmpty then i.fail .extraData
  return v

end Listfile.Json
