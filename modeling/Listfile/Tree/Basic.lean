import Listfile.Text.Location

/-! The syntax tree of a listfile. Arguments nest through parenthesised groups,
statements through blocks. Trees may be built by hand, so both kinds of node
have a case for what no part of the layout knows how to write. -/

namespace Listfile

inductive Argument
  | unquoted (text : Text)
  /-- `text` stands between double quotes. -/
  | quoted (text : Text)
  /-- `text` stands between brackets with `fence` equals signs. -/
  | bracket (text : Text) (fence : Nat) (location : Option Location)
  | group (arguments : List Argument)
  /-- `text` runs from the number sign to the end of the line. -/
  | lineComment (text : Text) (location : Option Location)
  | bracketComment (text : Text) (fence : Nat) (location : Option Location)
  | unknown
  deriving Repr

/-- The two sorts of definition. -/
inductive DefinitionKind
  | functionDef
  | macroDef
  deriving DecidableEq, Repr

/-- The two sorts of loop. -/
inductive LoopKind
  | foreachLoop
  | whileLoop
  deriving DecidableEq, Repr

mutual

inductive Statement
  | lineBreak (location : Option Location)
  /-- A trailing comment stands behind something else on its line. -/
  | lineComment (text : Text) (trailing : Bool) (location : Option Location)
  | bracketComment (text : Text) (fence : Nat) (trailing : Bool) (location : Option Location)
  | bracket (text : Text) (fence : Nat) (location : Option Location)
  | command (name : Text) (arguments : List Argument) (location : Option Location)
  /-- `arguments` leaves out the name of what is defined. -/
  | definition (kind : DefinitionKind) (name : Text) (arguments : List Argument)
      (body : List Statement) (location : Option Location)
  | conditional (head : Branch) (elseifs : List Branch) (otherwise : Option Branch)
  | loop (kind : LoopKind) (arguments : List Argument) (body : List Statement)
      (location : Option Location)
  | unknown
  deriving Repr

/-- One arm of a conditional. -/
inductive Branch
  | mk (predicate : List Argument) (body : List Statement) (location : Option Location)
  deriving Repr

end

namespace DefinitionKind

def keyword : DefinitionKind → Text
  | .functionDef => "function".toList
  | .macroDef => "macro".toList

end DefinitionKind

namespace LoopKind

def keyword : LoopKind → Text
  | .foreachLoop => "foreach".toList
  | .whileLoop => "while".toList

end LoopKind

namespace Branch

def predicate : Branch → List Argument
  | .mk predicate _ _ => predicate

def body : Branch → List Statement
  | .mk _ body _ => body

def location : Branch → Option Location
  | .mk _ _ location => location

end Branch

namespace Argument

/-- The text of an argument that is a literal: what may name a definition. -/
def literal? : Argument → Option Text
  | .unquoted text => some text
  | .quoted text => some text
  | .bracket text _ _ => some text
  | _ => none

end Argument

end Listfile
