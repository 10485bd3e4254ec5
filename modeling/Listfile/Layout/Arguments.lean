import Listfile.Style
import Listfile.Token.Cut
import Listfile.Tree.Basic

/-! Argument lists as text. A list that fits the column limit and holds no line
comment is written on one line. Any other list is wrapped: an argument goes to
the next line where it would not fit on the current one, and always behind a
line comment; a group that does not fit where it stands is wrapped inside its
own parentheses. -/

namespace Listfile.Layout

/-! ### Literals and comments -/

/-- A text between brackets. -/
def bracketText (text : Text) (fence : Nat) : Text :=
  Token.opener fence ++ text ++ Token.closer fence

/-- A line comment with its number sign. -/
def lineCommentText (s : Style) (text : Text) : Text :=
  if s.trimComments then '#' :: ' ' :: Text.trim text else '#' :: text

def bracketCommentText (text : Text) (fence : Nat) : Text := '#' :: bracketText text fence

/-! ### One line -/

mutual

/-- An argument on one line, if it can be written at all. -/
def inline? (s : Style) : Argument → Option Text
  | .unquoted text => some text
  | .quoted text => some ('"' :: (text ++ ['"']))
  | .bracket text fence _ => some (bracketText text fence)
  | .group arguments => some ('(' :: (Text.unwords (inlineAll s arguments) ++ [')']))
  | .lineComment text _ => some (lineCommentText s text)
  | .bracketComment text fence _ => some (bracketCommentText text fence)
  | .unknown => none

/-- The arguments that can be written, each on one line. -/
def inlineAll (s : Style) : List Argument → List Text
  | [] => []
  | a :: rest =>
    match inline? s a with
    | some text => text :: inlineAll s rest
    | none => inlineAll s rest

end

mutual

/-- Whether a line comment stands in an argument, at any depth. -/
def hasLineComment : Argument → Bool
  | .lineComment _ _ => true
  | .group arguments => anyLineComment arguments
  | _ => false

def anyLineComment : List Argument → Bool
  | [] => false
  | a :: rest => hasLineComment a || anyLineComment rest

end

/-! ### Several lines

Columns are integers: a caller may place a list left of the page, where spaces
are not written but widths still count. -/

/-- The column reached by writing `t` from `column`. -/
def endColumn (t : Text) (column : Int) : Int :=
  t.foldl (fun column c => if c = '\n' then 0 else column + 1) column

theorem endColumn_append (s t : Text) (column : Int) :
    endColumn (s ++ t) column = endColumn t (endColumn s column) := by
  simp [endColumn, List.foldl_append]

/-- The column at which wrapped lines start, for a list that opens at `column` in a line indented
by `indent`. -/
def continuationColumn (s : Style) (column indent : Int) : Int :=
  if s.alignArguments then column else indent + s.continuationIndent

/-- A line break and the spaces up to `column`. -/
def breakTo (column : Int) : Text := '\n' :: Text.spaces column.toNat

def isLineComment : Argument → Bool
  | .lineComment _ _ => true
  | _ => false

def isKnown : Argument → Bool
  | .unknown => false
  | _ => true

/-- Where the next argument of a wrapped list goes. -/
inductive Place
  /-- Right behind the opening parenthesis. -/
  | first
  /-- Behind another argument. -/
  | behind
  /-- Behind a line comment. -/
  | belowComment
  deriving DecidableEq, Repr

/-- What stands between two arguments of a wrapped list. -/
inductive Gap
  | none
  | space
  | lineBreak
  deriving DecidableEq, Repr

namespace Gap

/-- The gap between the text so far, which ends at `column`, and a next argument whose first line
has the width `width` and which keeps `reserve` columns free behind it. -/
def before (s : Style) (column : Int) (width : Nat) (reserve : Int) : Place → Gap
  | .first => .none
  | .behind => if s.columnLimit < column + 1 + width + reserve then .lineBreak else .space
  | .belowComment => .lineBreak

def text (hanging : Int) : Gap → Text
  | .none => []
  | .space => [' ']
  | .lineBreak => breakTo hanging

/-- The column behind a gap that starts at `column`. -/
def stop (hanging column : Int) : Gap → Int
  | .none => column
  | .space => column + 1
  | .lineBreak => hanging

end Gap

mutual

/-- An argument written at `column`, with `reserve` columns to be kept free behind it. `text` is
the argument on one line. -/
def wrapOne (s : Style) (column hanging reserve : Int) (text : Text) : Argument → Text
  | .group arguments =>
    if s.columnLimit < column + text.length + reserve || anyLineComment arguments then
      '(' :: (wrapFrom s (continuationColumn s (column + 1) hanging) (reserve + 1) (column + 1)
        .first arguments ++ [')'])
    else text
  | _ => text

/-- The rest of a wrapped list from `column` on. Wrapped lines start at `hanging`, and `closing`
columns are kept free behind the last argument. -/
def wrapFrom (s : Style) (hanging closing column : Int) (place : Place) : List Argument → Text
  | [] => if place = .belowComment then breakTo hanging else []
  | a :: rest =>
    match inline? s a with
    | none => wrapFrom s hanging closing column place rest
    | some text =>
      let reserve := if rest.any isKnown then 0 else closing
      let gap := Gap.before s column (Text.firstWidth text) reserve place
      let start := gap.stop hanging column
      let body := wrapOne s start hanging reserve text a
      gap.text hanging ++ body ++ wrapFrom s hanging closing (endColumn body start)
        (if isLineComment a then .belowComment else .behind) rest

end

/-- An argument list that opens at `column`. -/
def arguments (s : Style) (column hanging closing : Int) (list : List Argument) : Text :=
  let joined := Text.unwords (inlineAll s list)
  if joined.length ≤ s.columnLimit && !anyLineComment list then joined
  else wrapFrom s hanging closing column .first list

end Listfile.Layout
