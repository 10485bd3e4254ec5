import Listfile.Diagnostic

/-! Tokens of a listfile. Every character of a source belongs to one token, and
a token carries its own text. `closed` is false for a literal or comment that
ran into the end of the source without its terminator. -/

namespace Listfile

inductive Token.Kind
  | endOfFile
  | space
  | lineBreak
  | lineComment
  | bracketComment
  | unquoted
  | quoted
  | bracket
  | openParen
  | closeParen
  deriving DecidableEq, Repr

structure Token where
  kind : Token.Kind
  text : Text
  span : Span
  /-- Only spaces stand between this token and the start of its line. -/
  startsLine : Bool
  /-- A backslash was read in a quoted or unquoted argument. -/
  escaped : Bool
  closed : Bool
  deriving DecidableEq, Repr

namespace Token

namespace Kind

def all : List Kind :=
  [.endOfFile, .space, .lineBreak, .lineComment, .bracketComment, .unquoted, .quoted, .bracket,
    .openParen, .closeParen]

def name : Kind → String
  | .endOfFile => "EOF"
  | .space => "WHITESPACE"
  | .lineBreak => "NEWLINE"
  | .lineComment => "LINE_COMMENT"
  | .bracketComment => "BRACKET_COMMENT"
  | .unquoted => "UNQUOTED_ARGUMENT"
  | .quoted => "QUOTED_ARGUMENT"
  | .bracket => "BRACKET_ARGUMENT"
  | .openParen => "LPAREN"
  | .closeParen => "RPAREN"

def ofName? (name : String) : Option Kind := all.find? (·.name = name)

def isComment : Kind → Bool
  | .lineComment | .bracketComment => true
  | _ => false

/-- Blank text and comments: what a command can do without. -/
def isTrivia : Kind → Bool
  | .space | .lineBreak => true
  | k => k.isComment

def isArgument : Kind → Bool
  | .unquoted | .quoted | .bracket => true
  | _ => false

end Kind

/-- The flags as one number: bit 0 for a token that starts its line, bit 1 for an escape. -/
def flags (t : Token) : Nat :=
  (if t.startsLine then 1 else 0) + (if t.escaped then 2 else 0)

/-- The report on a token that lacks its terminator. -/
def fault? (t : Token) : Option Diagnostic :=
  if t.closed then none
  else match t.kind with
    | .quoted | .unquoted => some (.ofCode .unterminatedQuoted t.span)
    | .bracket | .bracketComment => some (.ofCode .unterminatedBracket t.span)
    | _ => none

/-- The reports on all tokens that lack a terminator, in source order. -/
def faults (tokens : List Token) : List Diagnostic := tokens.filterMap fault?

end Token

end Listfile
