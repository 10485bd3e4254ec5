import Listfile.Layout.Arguments
import Listfile.Layout.Page
import Listfile.Tree.Keyword

/-! Writing statements. Where the style asks for blank lines around blocks, one
is made sure of before the block, or before the comments that stand directly
above it, and one is owed after it, to be paid before the next statement of the
same list. The first statement of a block and of the page needs none. -/

namespace Listfile.Layout

structure Printer where
  page : Page
  /-- A blank line is owed after a closed block. -/
  blankDue : Bool
  /-- Nothing but line breaks was written since a block was opened. -/
  atBlockStart : Bool
  /-- The blank line before a block was written above the comments that head it. -/
  separated : Bool
  deriving DecidableEq, Repr

namespace Printer

def start : Printer := ⟨.empty, false, false, false⟩

def write (t : Text) (p : Printer) : Printer := { p with page := p.page.write t }

def newline (s : Style) (p : Printer) : Printer := { p with page := p.page.newline s }

def ensureLineStart (s : Style) (p : Printer) : Printer :=
  { p with page := p.page.ensureLineStart s }

def dedent (p : Printer) : Printer := { p with page := p.page.dedent }

/-- Break the line if fewer than two breaks in a row are written. -/
def breakBelowTwo (s : Style) (p : Printer) : Printer :=
  if p.page.breaks < 2 then p.newline s else p

/-- Make sure that a blank line stands before what comes next, as far as the style allows one. -/
def separate (s : Style) (enabled : Bool) (p : Printer) : Printer :=
  if !enabled || p.page.isEmpty || p.atBlockStart then p
  else (p.breakBelowTwo s).breakBelowTwo s

/-- Go to the line on which a statement starts. -/
def startStatement (s : Style) (p : Printer) : Printer :=
  let p := if p.blankDue then { p.separate s true with blankDue := false } else p
  { p with atBlockStart := false }.ensureLineStart s

/-- A command with its arguments. Keywords of blocks take back a blank line owed by an inner
block. -/
def invoke (s : Style) (name : Text) (list : List Argument) (p : Printer) : Printer :=
  let p := { p with blankDue := false }.ensureLineStart s |>.write (name ++ ['('])
  let column := p.page.currentColumn
  let hanging := continuationColumn s column p.page.indentation
  let p := p.write (arguments s column hanging 1 list) |>.write [')']
  { p with atBlockStart := false }

/-- A command that opens a block or an arm of one. -/
def invokeOpening (s : Style) (name : Text) (list : List Argument) (p : Printer) : Printer :=
  let p := p.invoke s name list
  { p with page := p.page.indent s, atBlockStart := true }

/-- Go to the line on which a block starts. -/
def openBlock (s : Style) (enabled : Bool) (p : Printer) : Printer :=
  let p := if p.separated then { p with separated := false } else p.separate s enabled
  p.startStatement s

/-- The command that closes a block. -/
def closeBlock (s : Style) (name : Text) (list : List Argument) (enabled : Bool) (p : Printer) :
    Printer :=
  { p.dedent.invoke s name list with blankDue := enabled }

/-- A comment, behind what stands on the line if it trails and something does. -/
def comment (s : Style) (text : Text) (trailing : Bool) (p : Printer) : Printer :=
  if trailing && !p.page.atLineStart then p.write (' ' :: text)
  else (p.startStatement s).write text

end Printer

/-! ### Comments that head a block -/

/-- Whether a statement is a line comment on a line of its own. -/
def isOwnComment : Statement → Bool
  | .lineComment _ trailing _ => !trailing
  | _ => false

/-- Whether blank lines go around a statement. -/
def isSpacedBlock (s : Style) : Statement → Bool
  | .definition _ _ _ _ _ => s.spaceDefinitions
  | .conditional _ _ _ => s.spaceControl
  | .loop _ _ _ _ => s.spaceControl
  | _ => false

/-- Whether a list starts with comments on lines of their own and then a block with blank lines
around it. -/
def headsBlock (s : Style) (list : List Statement) : Bool :=
  (list.head?.map isOwnComment).getD false &&
    ((list.dropWhile isOwnComment).head?.map (isSpacedBlock s)).getD false

/-! ### Statements -/

mutual

/-- Write a statement; one of unknown kind is left out. -/
def emit (s : Style) (p : Printer) : Statement → Printer
  | .lineBreak _ => p.newline s
  | .lineComment text trailing _ => (p.comment s (lineCommentText s text) trailing).newline s
  | .bracketComment text fence trailing _ => p.comment s (bracketCommentText text fence) trailing
  | .bracket text fence _ => (p.startStatement s).write (bracketText text fence)
  | .command name list _ => (p.startStatement s).invoke s name list
  | .definition kind name list body _ =>
    let p := (p.openBlock s s.spaceDefinitions).invokeOpening s kind.keyword
      (.unquoted name :: list)
    (emitAll s false p body).closeBlock s (BlockKind.definition kind).endKeyword [.unquoted name]
      s.spaceDefinitions
  | .conditional head elseifs otherwise =>
    let p := emitArm s BlockKind.conditional.keyword (p.openBlock s s.spaceControl) head
    let p := emitArms s p elseifs
    let p := match otherwise with
      | none => p
      | some arm => emitArm s Divider.elseArm.keyword p.dedent arm
    p.closeBlock s BlockKind.conditional.endKeyword [] s.spaceControl
  | .loop kind list body _ =>
    let p := (p.openBlock s s.spaceControl).invokeOpening s kind.keyword list
    (emitAll s false p body).closeBlock s (BlockKind.loop kind).endKeyword [] s.spaceControl
  | .unknown => p

/-- Write a statement list. `afterComment` says that a comment on a line of its own came before
it. -/
def emitAll (s : Style) (afterComment : Bool) (p : Printer) : List Statement → Printer
  | [] => p
  | statement :: rest =>
    let p :=
      if !p.separated && !afterComment && headsBlock s (statement :: rest) then
        { p.separate s true with separated := true }
      else p
    emitAll s (isOwnComment statement) (emit s p statement) rest

/-- Write an arm of a conditional: its command and its statements. -/
def emitArm (s : Style) (name : Text) (p : Printer) : Branch → Printer
  | .mk predicate body _ => emitAll s false (p.invokeOpening s name predicate) body

/-- Write the `elseif` arms of a conditional. -/
def emitArms (s : Style) (p : Printer) : List Branch → Printer
  | [] => p
  | arm :: rest => emitArms s (emitArm s Divider.elseifArm.keyword p.dedent arm) rest

end

/-- Statements as text, on a fresh page. -/
def statements (s : Style) (list : List Statement) : Text :=
  (emitAll s false .start list).page.text

end Listfile.Layout
