import Listfile.Token.Cut

/-! Reading a source token by token. A reader holds the text still ahead, its
offset, and whether only spaces stand between the start of the line and it.
At the end of the text it gives the end-of-file token as often as it is asked. -/

namespace Listfile.Token

structure Reader where
  ahead : Text
  offset : Nat
  lineStart : Bool

namespace Reader

/-- A reader at the start of a text, which counts as the start of a line. -/
def start (source : Text) : Reader := ⟨source, 0, true⟩

/-- Whether the next token is still the first of its line, after one of kind `kind`. -/
def staysAtLineStart (kind : Kind) (lineStart : Bool) : Bool :=
  match kind with
  | .lineBreak => true
  | .space => lineStart
  | _ => false

/-- The next token and the reader behind it. -/
def next (r : Reader) : Token × Reader :=
  match r.ahead with
  | [] => (⟨.endOfFile, [], .point r.offset, false, false, true⟩, r)
  | c :: t =>
    let (kind, k) := cut c t
    (⟨kind, k.text, .ofLength r.offset k.text.length, r.lineStart, k.escaped, k.closed⟩,
      ⟨k.rest, r.offset + k.text.length, staysAtLineStart kind r.lineStart⟩)

theorem next_ahead_length_lt (r : Reader) (h : r.ahead ≠ []) :
    r.next.2.ahead.length < r.ahead.length := by
  unfold next
  split
  next h' => exact absurd h' h
  next c t h' =>
    rw [h']
    exact cut_rest_length_lt c t

/-- All tokens from here on, the end-of-file token last. -/
def tokens (r : Reader) : List Token :=
  if _h : r.ahead = [] then [r.next.1]
  else r.next.1 :: r.next.2.tokens
termination_by r.ahead.length
decreasing_by exact next_ahead_length_lt r _h

/-- The first `n` reads: each token with the reader behind it. -/
def reads : Nat → Reader → List (Token × Reader)
  | 0, _ => []
  | n + 1, r => r.next :: reads n r.next.2

end Reader

/-- The tokens of a source, the end-of-file token last. -/
def scan (source : Text) : List Token := (Reader.start source).tokens

/-- The tokens that carry structure: all but spaces and the end of the file. -/
def isSignificant (t : Token) : Bool := t.kind ≠ .space && t.kind ≠ .endOfFile

end Listfile.Token
