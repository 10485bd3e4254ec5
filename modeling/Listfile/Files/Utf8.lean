import Listfile.Text.Basic

/-! Decoding UTF-8. Bytes are cut into pieces, each one a character or a fault.
A fault covers a first byte and the bytes behind it that could still belong to
it; the byte that rules a character out is not part of the fault. Strict
decoding stops at the first fault, lenient decoding writes a replacement
character for each. -/

namespace Listfile.Utf8

inductive Reason
  | invalidStart
  | invalidContinuation
  | unexpectedEnd
  deriving DecidableEq, Repr

def Reason.message : Reason → String
  | .invalidStart => "invalid start byte"
  | .invalidContinuation => "invalid continuation byte"
  | .unexpectedEnd => "unexpected end of data"

/-- Bytes at an offset that are no character. -/
structure Fault where
  offset : Nat
  bytes : List UInt8
  reason : Reason
  deriving DecidableEq, Repr

/-- A byte as two hexadecimal digits. -/
def byteText (b : UInt8) : String :=
  let digits := Nat.toDigits 16 b.toNat
  "0x" ++ String.ofList (List.replicate (2 - digits.length) '0' ++ digits)

def Fault.message (f : Fault) : String :=
  let start := "'utf-8' codec can't decode byte"
  match f.bytes with
  | [b] => start ++ s!" {byteText b} in position {f.offset}: {f.reason.message}"
  | bytes =>
    start ++ s!"s in position {f.offset}-{f.offset + bytes.length - 1}: {f.reason.message}"

/-- What a first byte asks for: the number of bytes behind it, the range of the first of them, and
the bits that it gives itself. -/
structure Lead where
  more : Nat
  low : Nat
  high : Nat
  bits : Nat

def lead? (b : Nat) : Option Lead :=
  if b < 0x80 then some ⟨0, 0x80, 0xBF, b⟩
  else if b < 0xC2 then none
  else if b < 0xE0 then some ⟨1, 0x80, 0xBF, b - 0xC0⟩
  else if b = 0xE0 then some ⟨2, 0xA0, 0xBF, 0⟩
  else if b = 0xED then some ⟨2, 0x80, 0x9F, 0xD⟩
  else if b < 0xF0 then some ⟨2, 0x80, 0xBF, b - 0xE0⟩
  else if b = 0xF0 then some ⟨3, 0x90, 0xBF, 0⟩
  else if b < 0xF4 then some ⟨3, 0x80, 0xBF, b - 0xF0⟩
  else if b = 0xF4 then some ⟨3, 0x80, 0x8F, 4⟩
  else none

/-- The end of a character: its number and all its bytes, or the bytes that were good and the
reason why the next was not. `seen` holds the bytes so far, last first. -/
def continuation (more low high value : Nat) (seen : List UInt8) (rest : List UInt8) :
    Except (List UInt8 × Reason) (Nat × List UInt8) :=
  match more, rest with
  | 0, _ => .ok (value, seen.reverse)
  | _ + 1, [] => .error (seen.reverse, .unexpectedEnd)
  | more + 1, b :: rest =>
    if low ≤ b.toNat && b.toNat ≤ high then
      continuation more 0x80 0xBF (value * 64 + (b.toNat - 0x80)) (b :: seen) rest
    else .error (seen.reverse, .invalidContinuation)

/-- The first piece of the bytes `b :: rest`, with the bytes it covers. -/
def piece (b : UInt8) (rest : List UInt8) : Except Reason Char × List UInt8 :=
  match lead? b.toNat with
  | none => (.error .invalidStart, [b])
  | some l =>
    match continuation l.more l.low l.high l.bits [b] rest with
    | .ok (value, bytes) => (.ok (Char.ofNat value), bytes)
    | .error (bytes, reason) => (.error reason, bytes)

/-- All pieces of some bytes that start at `offset`. -/
def pieces (offset : Nat) : List UInt8 → List (Except Fault Char)
  | [] => []
  | b :: rest =>
    let (result, bytes) := piece b rest
    (match result with
      | .ok c => .ok c
      | .error reason => .error ⟨offset, bytes, reason⟩) ::
      pieces (offset + bytes.length) (rest.drop (bytes.length - 1))
termination_by bytes => bytes.length
decreasing_by simp only [List.length_drop, List.length_cons]; omega

/-- The text of some bytes, or the first fault in them. -/
def decode (bytes : List UInt8) : Except Fault Text := (pieces 0 bytes).mapM id

/-- The text of some bytes, with a replacement character for each fault. -/
def decodeLenient (bytes : List UInt8) : Text :=
  (pieces 0 bytes).map fun
    | .ok c => c
    | .error _ => '\uFFFD'

end Listfile.Utf8
