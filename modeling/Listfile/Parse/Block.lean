import Listfile.Parse.Item
import Listfile.Tree.Keyword

/-! Folding the flat sequence of items into nested blocks. The blocks that are
open are kept in a list, innermost first, each with the statements read into it
so far, last first. Only the innermost block can be divided or closed: any
other command that divides or closes is reported and kept as a plain command.
At the end of the items every open block is reported, innermost first, and
closed. -/

namespace Listfile.Parse

/-! ### Open blocks -/

/-- The arms of a conditional that are complete. -/
structure Chain where
  head : Branch
  elseifs : List Branch
  otherwise : Option Branch

/-- The arm of a conditional that is being read: the first, or a later one behind complete arms. -/
inductive Arm
  | first
  | later (before : Chain) (divider : Divider) (command : Command)

/-- What an open block is going to be. -/
inductive Opened
  | definition (kind : DefinitionKind) (name : Text) (arguments : List Argument)
  | conditional (arm : Arm)
  | loop (kind : LoopKind)

/-- An open block: the command that opened it and the statements read into it, last first. -/
structure Frame where
  command : Command
  opened : Opened
  body : List Statement

/-- The arm of a conditional that a command heads. -/
def Command.branch (c : Command) (body : List Statement) : Branch :=
  .mk c.arguments body (some c.location)

/-- The complete arms once the current one has the statements `body`. A later
`else` arm takes the place of an earlier one. -/
def Arm.close (opener : Command) (body : List Statement) : Arm → Chain
  | .first => ⟨opener.branch body, [], none⟩
  | .later before .elseifArm c => { before with elseifs := before.elseifs ++ [c.branch body] }
  | .later before .elseArm c => { before with otherwise := some (c.branch body) }

namespace Frame

def block (f : Frame) : BlockKind :=
  match f.opened with
  | .definition kind _ _ => .definition kind
  | .conditional _ => .conditional
  | .loop kind => .loop kind

/-- The block as a statement, closed with what it holds. -/
def statement (f : Frame) : Statement :=
  match f.opened with
  | .definition kind name arguments =>
    .definition kind name arguments f.body.reverse (some f.command.location)
  | .conditional arm =>
    let chain := arm.close f.command f.body.reverse
    .conditional chain.head chain.elseifs chain.otherwise
  | .loop kind => .loop kind f.command.arguments f.body.reverse (some f.command.location)

def unterminated (f : Frame) : Diagnostic :=
  .worded .unterminatedBlock
    (Diagnostic.Code.summary .unterminatedBlock ++ ": `" ++ String.ofList f.command.identifier ++
      "` has no `" ++ String.ofList f.block.endKeyword ++ "`") f.command.span

end Frame

/-! ### The fold -/

/-- Split the first literal off an argument list: the name of a definition. -/
def takeName : List Argument → Option (Text × List Argument)
  | [] => none
  | a :: rest =>
    match a.literal? with
    | some name => some (name, rest)
    | none => (takeName rest).map fun (name, rest) => (name, a :: rest)

structure State where
  /-- Open blocks, innermost first. -/
  frames : List Frame
  /-- Statements outside of all blocks, last first. -/
  top : List Statement
  faults : List Diagnostic
  /-- The largest number of blocks that were open at a time. -/
  depth : Nat

namespace State

def start : State := ⟨[], [], [], 0⟩

def report (faults : List Diagnostic) (st : State) : State :=
  { st with faults := st.faults ++ faults }

/-- Put a statement at the end of the innermost open block. -/
def add (s : Statement) (st : State) : State :=
  match st.frames with
  | [] => { st with top := s :: st.top }
  | f :: outer => { st with frames := { f with body := s :: f.body } :: outer }

/-- Open a block. -/
def enter (f : Frame) (st : State) : State :=
  { st with frames := f :: st.frames, depth := max st.depth (st.frames.length + 1) }

/-- A command that neither divides nor closes the innermost block. -/
def construct (c : Command) (st : State) : State :=
  let plain : Statement := .command c.identifier c.arguments (some c.location)
  match Keyword.ofName? c.name with
  | some (.opening (.definition kind)) =>
    match takeName c.arguments with
    | some (name, arguments) => st.enter ⟨c, .definition kind name arguments, []⟩
    | none =>
      (st.report [.ofCode .missingDefinitionName c.span]).enter
        ⟨c, .definition kind [] c.arguments, []⟩
  | some (.opening .conditional) => st.enter ⟨c, .conditional .first, []⟩
  | some (.opening (.loop kind)) => st.enter ⟨c, .loop kind, []⟩
  | some (.dividing _) => (st.report [.ofCode .misplacedBranch c.span]).add plain
  | some (.closing _) =>
    let message := Diagnostic.Code.summary .unmatchedBlockEnd ++ ": `" ++
      String.ofList c.identifier ++ "`"
    (st.report [.worded .unmatchedBlockEnd message c.span]).add plain
  | none => st.add plain

/-- Go on to the next arm of a conditional; no arm may follow an `else`. -/
def divide (divider : Divider) (c : Command) (f : Frame) (arm : Arm) (st : State) : State :=
  let before := arm.close f.command f.body.reverse
  let next : Frame := ⟨f.command, .conditional (.later before divider c), []⟩
  let st := { st with frames := next :: st.frames }
  if before.otherwise.isSome then st.report [.ofCode .misplacedBranch c.span] else st

/-- A command, as the innermost open block takes it. -/
def command (c : Command) (st : State) : State :=
  match st.frames with
  | [] => st.construct c
  | f :: outer =>
    match Keyword.ofName? c.name, f.opened with
    | some (.dividing divider), .conditional arm =>
      { st with frames := outer }.divide divider c f arm
    | some (.closing block), _ =>
      if block = f.block then { st with frames := outer }.add f.statement else st.construct c
    | _, _ => st.construct c

/-- All statements, with the open blocks closed; `inner` goes to the end of the innermost. -/
def closeFrames (top inner : List Statement) : List Frame → List Statement
  | [] => (inner ++ top).reverse
  | f :: outer => closeFrames top [{ f with body := inner ++ f.body }.statement] outer

end State

/-! ### Reading a statement list -/

/-- A statement list and the command, if any, that ended it. -/
structure Reading where
  statements : List Statement
  closer : Option Command
  rest : List Item
  faults : List Diagnostic
  depth : Nat

/-- Read items up to the first command outside of all blocks whose name is in `closers`. -/
def readUntil (closers : List Text) (st : State) : List Item → Reading
  | [] =>
    ⟨State.closeFrames st.top [] st.frames, none, [],
      st.faults ++ st.frames.map (·.unterminated), st.depth⟩
  | i :: rest =>
    let st := st.report i.faults
    match i.content with
    | .statement s => readUntil closers (st.add s) rest
    | .skipped => readUntil closers st rest
    | .command c =>
      if st.frames.isEmpty && closers.contains c.name then
        ⟨st.top.reverse, some c, rest, st.faults, st.depth⟩
      else readUntil closers (st.command c) rest

/-- The statement list at the front of an item list. -/
def read (closers : List Text) (items : List Item) : Reading := readUntil closers .start items

/-! ### Reading one statement list after the other -/

/-- The number of open parentheses behind a token; a closing one without a partner counts for
nothing. -/
def parenLevel (level : Nat) (t : Token) : Nat :=
  match t.kind with
  | .openParen => level + 1
  | .closeParen => level - 1
  | _ => level

/-- The largest number of parentheses open at a time, of which `level` are open at the start. -/
def parenDepth (level : Nat) : List Token → Nat
  | [] => level
  | t :: rest => max level (parenDepth (parenLevel level t) rest)

/-- A reading together with the number of tokens and of reports up to its end. -/
structure Round where
  reading : Reading
  position : Nat
  reported : Nat
  /-- The deepest nesting of blocks or of parentheses in what was read. -/
  depth : Nat

/-- The tokens of the items of a source from the first of some items on. -/
def tokensFrom (items : List Item) : List Token := (items.head?.map (·.start)).getD []

/-- One statement list after the other, each ended by its own set of closers. The items are all
that is left of those of a source. -/
def rounds (position reported : Nat) : List (List Text) → List Item → List Round
  | [], _ => []
  | closers :: more, items =>
    let r := read closers items
    let tokens := tokensFrom items
    let taken := tokens.take (tokens.length - (tokensFrom r.rest).length)
    ⟨r, position + taken.length, reported + r.faults.length, max (parenDepth 0 taken) r.depth⟩ ::
      rounds (position + taken.length) (reported + r.faults.length) more r.rest

end Listfile.Parse
