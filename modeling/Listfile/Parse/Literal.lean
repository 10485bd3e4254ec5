import Listfile.Token.Reader
import Listfile.Tree.Basic

/-! From tokens to literals and comments: the delimiters go, the text between
them stays. The delimiter at the end is looked for from the end, since a
literal that ran into the end of the source has none. -/

namespace Listfile.Parse

/-- The number of backslashes at the end of a text. -/
def trailingBackslashes (t : Text) : Nat := (t.reverse.takeWhile (· = '\\')).length

/-- The text between the quotes of a quoted argument. A last quote behind an odd
number of backslashes is escaped and belongs to the text. -/
def quotedBody (t : Text) : Text :=
  let inner := t.tail
  if inner.getLast? = some '"' && trailingBackslashes inner.dropLast % 2 = 0 then inner.dropLast
  else inner

/-- The text without `stop` at its end, if it is there. -/
def dropSuffix (stop t : Text) : Text :=
  if stop.isSuffixOf t then t.take (t.length - stop.length) else t

/-- The text between brackets with a fence of `n`. -/
def bracketBody (n : Nat) (t : Text) : Text := dropSuffix (Token.closer n) (t.drop (n + 2))

/-- The fence of a bracket, zero if the text opens none. -/
def fenceOf (t : Text) : Nat := (Token.fence? t).getD 0

/-- The argument that a token stands for, inside an argument list. -/
def argument? (lines : LineIndex) (t : Token) : Option Argument :=
  let location := some (lines.location t.span.start)
  match t.kind with
  | .unquoted => some (.unquoted t.text)
  | .quoted => some (.quoted (quotedBody t.text))
  | .bracket => some (.bracket (bracketBody (fenceOf t.text) t.text) (fenceOf t.text) location)
  | .lineComment => some (.lineComment t.text.tail location)
  | .bracketComment =>
    let inner := t.text.tail
    some (.bracketComment (bracketBody (fenceOf inner) inner) (fenceOf inner) location)
  | _ => none

/-- A line comment at statement level; it trails if it does not start its line. -/
def lineComment (lines : LineIndex) (t : Token) : Statement :=
  .lineComment t.text.tail (!t.startsLine) (some (lines.location t.span.start))

/-- A bracket comment at statement level. -/
def bracketComment (lines : LineIndex) (t : Token) : Statement :=
  let inner := t.text.tail
  .bracketComment (bracketBody (fenceOf inner) inner) (fenceOf inner) (!t.startsLine)
    (some (lines.location t.span.start))

end Listfile.Parse
