import Listfile.Layout.Printer

/-! Layouts that are carried out. A style may ask for any number of spaces and a
bracket for any fence, but a text is built from runs of limited length. The
printer with its checks stops where it comes to write a run that is too long, or
to close a level that is not open. Where it does not stop it writes what the
printer without checks does. -/

namespace Listfile.Layout

open Page (Fault)

/-! ### Argument lists -/

/-- A text between brackets, if its fence is not too long. -/
def bracketText? (text : Text) (fence : Nat) : Except Fault Text :=
  if maxRun < fence then .error .tooWide else .ok (bracketText text fence)

mutual

/-- Whether a fence in an argument is too long. -/
def hasLongFence : Argument → Bool
  | .bracket _ fence _ => maxRun < fence
  | .bracketComment _ fence _ => maxRun < fence
  | .group arguments => anyLongFence arguments
  | _ => false

def anyLongFence : List Argument → Bool
  | [] => false
  | a :: rest => hasLongFence a || anyLongFence rest

end

/-- A line break and the spaces up to `column`, if these are not too many. -/
def breakTo? (column : Int) : Except Fault Text :=
  if maxRun < column then .error .tooWide else .ok (breakTo column)

def Gap.text? (hanging : Int) : Gap → Except Fault Text
  | .lineBreak => breakTo? hanging
  | gap => .ok (gap.text hanging)

mutual

/-- An argument written as `wrapOne` does. -/
def wrapOne? (s : Style) (column hanging reserve : Int) (text : Text) :
    Argument → Except Fault Text
  | .group arguments =>
    if s.columnLimit < column + text.length + reserve || anyLineComment arguments then do
      let inner ← wrapFrom? s (continuationColumn s (column + 1) hanging) (reserve + 1)
        (column + 1) .first arguments
      return '(' :: (inner ++ [')'])
    else .ok text
  | _ => .ok text

/-- The rest of a wrapped list, written as `wrapFrom` does. -/
def wrapFrom? (s : Style) (hanging closing column : Int) (place : Place) :
    List Argument → Except Fault Text
  | [] => if place = .belowComment then breakTo? hanging else .ok []
  | a :: rest =>
    match inline? s a with
    | none => wrapFrom? s hanging closing column place rest
    | some text => do
      let reserve := if rest.any isKnown then 0 else closing
      let gap := Gap.before s column (Text.firstWidth text) reserve place
      let start := gap.stop hanging column
      let lead ← gap.text? hanging
      let body ← wrapOne? s start hanging reserve text a
      let behind ← wrapFrom? s hanging closing (endColumn body start)
        (if isLineComment a then .belowComment else .behind) rest
      return lead ++ body ++ behind

end

/-- An argument list that opens at `column`. All of its brackets are written out before it is known
whether it fits on one line. -/
def arguments? (s : Style) (column hanging closing : Int) (list : List Argument) :
    Except Fault Text :=
  if anyLongFence list then .error .tooWide
  else
    let joined := Text.unwords (inlineAll s list)
    if joined.length ≤ s.columnLimit && !anyLineComment list then .ok joined
    else wrapFrom? s hanging closing column .first list

/-! ### Statements -/

namespace Printer

def write? (t : Text) (p : Printer) : Except Fault Printer :=
  (p.page.write? t).map fun page => { p with page := page }

def dedent? (p : Printer) : Except Fault Printer :=
  p.page.dedent?.map fun page => { p with page := page }

/-- A command with its arguments. -/
def invoke? (s : Style) (name : Text) (list : List Argument) (p : Printer) :
    Except Fault Printer := do
  let p ← ({ p with blankDue := false }.ensureLineStart s).write? (name ++ ['('])
  let column := p.page.currentColumn
  let hanging := continuationColumn s column p.page.indentation
  let p ← p.write? (← arguments? s column hanging 1 list)
  let p ← p.write? [')']
  return { p with atBlockStart := false }

/-- A command that opens a block or an arm of one. -/
def invokeOpening? (s : Style) (name : Text) (list : List Argument) (p : Printer) :
    Except Fault Printer := do
  let p ← p.invoke? s name list
  return { p with page := p.page.indent s, atBlockStart := true }

/-- The command that closes a block. -/
def closeBlock? (s : Style) (name : Text) (list : List Argument) (enabled : Bool) (p : Printer) :
    Except Fault Printer := do
  let p ← (← p.dedent?).invoke? s name list
  return { p with blankDue := enabled }

/-- A comment, behind what stands on the line if it trails and something does. -/
def comment? (s : Style) (text : Text) (trailing : Bool) (p : Printer) : Except Fault Printer :=
  if trailing && !p.page.atLineStart then p.write? (' ' :: text)
  else (p.startStatement s).write? text

end Printer

mutual

/-- Write a statement, as `emit` does. -/
def emit? (s : Style) (p : Printer) : Statement → Except Fault Printer
  | .lineBreak _ => .ok (p.newline s)
  | .lineComment text trailing _ => do
    return (← p.comment? s (lineCommentText s text) trailing).newline s
  | .bracketComment text fence trailing _ => do
    p.comment? s ('#' :: (← bracketText? text fence)) trailing
  | .bracket text fence _ => do (p.startStatement s).write? (← bracketText? text fence)
  | .command name list _ => (p.startStatement s).invoke? s name list
  | .definition kind name list body _ => do
    let p ← (p.openBlock s s.spaceDefinitions).invokeOpening? s kind.keyword
      (.unquoted name :: list)
    let p ← emitAll? s false p body
    p.closeBlock? s (BlockKind.definition kind).endKeyword [.unquoted name] s.spaceDefinitions
  | .conditional head elseifs otherwise => do
    let p ← emitArm? s BlockKind.conditional.keyword (p.openBlock s s.spaceControl) head
    let p ← emitArms? s p elseifs
    let p ← match otherwise with
      | none => .ok p
      | some arm => do emitArm? s Divider.elseArm.keyword (← p.dedent?) arm
    p.closeBlock? s BlockKind.conditional.endKeyword [] s.spaceControl
  | .loop kind list body _ => do
    let p ← (p.openBlock s s.spaceControl).invokeOpening? s kind.keyword list
    let p ← emitAll? s false p body
    p.closeBlock? s (BlockKind.loop kind).endKeyword [] s.spaceControl
  | .unknown => .ok p

/-- Write a statement list, as `emitAll` does. -/
def emitAll? (s : Style) (afterComment : Bool) (p : Printer) :
    List Statement → Except Fault Printer
  | [] => .ok p
  | statement :: rest => do
    let p :=
      if !p.separated && !afterComment && headsBlock s (statement :: rest) then
        { p.separate s true with separated := true }
      else p
    emitAll? s (isOwnComment statement) (← emit? s p statement) rest

/-- Write an arm of a conditional, as `emitArm` does. -/
def emitArm? (s : Style) (name : Text) (p : Printer) : Branch → Except Fault Printer
  | .mk predicate body _ => do emitAll? s false (← p.invokeOpening? s name predicate) body

/-- Write the `elseif` arms of a conditional, as `emitArms` does. -/
def emitArms? (s : Style) (p : Printer) : List Branch → Except Fault Printer
  | [] => .ok p
  | arm :: rest => do
    emitArms? s (← emitArm? s Divider.elseifArm.keyword (← p.dedent?) arm) rest

end

/-- Statements as text, on a fresh page. -/
def statements? (s : Style) (list : List Statement) : Except Fault Text :=
  (emitAll? s false .start list).map (·.page.text)

/-! ### Layouts that stop -/

/-- Whether an argument list cannot be written. -/
def argumentsOverflow (s : Style) (column hanging closing : Int) (list : List Argument) : Bool :=
  !(arguments? s column hanging closing list).isOk

/-- Whether statements cannot be written. -/
def emitOverflows (s : Style) (p : Printer) (list : List Statement) : Bool :=
  !(emitAll? s false p list).isOk

/-- Whether statements cannot be written on a fresh page. -/
def overflows (s : Style) (list : List Statement) : Bool := !(statements? s list).isOk

end Listfile.Layout
