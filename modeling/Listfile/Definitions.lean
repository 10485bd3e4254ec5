import Listfile.Tree.Basic

/-! The functions and macros that a listfile defines: those at the top level and
in the arms of conditionals, to any depth. What a loop or a definition holds
is not searched. -/

namespace Listfile

/-- A definition: its name, its kind and the line on which it starts, if that is known. -/
structure Definition where
  name : Text
  kind : DefinitionKind
  line : Option Int
  deriving DecidableEq, Repr

namespace Definition

mutual

/-- The definitions in a statement. -/
def ofStatement : Statement → List Definition
  | .definition kind name _ _ location => [⟨name, kind, location.map fun l => l.line⟩]
  | .conditional head elseifs none => ofBranch head ++ ofBranches elseifs
  | .conditional head elseifs (some arm) => ofBranch head ++ ofBranches elseifs ++ ofBranch arm
  | _ => []

/-- The definitions in a statement list, in source order. -/
def ofStatements : List Statement → List Definition
  | [] => []
  | s :: rest => ofStatement s ++ ofStatements rest

def ofBranch : Branch → List Definition
  | .mk _ body _ => ofStatements body

def ofBranches : List Branch → List Definition
  | [] => []
  | b :: rest => ofBranch b ++ ofBranches rest

end

/-- A line of the listing; a question mark stands for a line that is not known. -/
def listingLine (d : Definition) : Text :=
  "- ".toList ++ d.name ++ " : line:".toList ++
    (d.line.map fun n => (toString n).toList).getD ['?'] ++ ['\n']

def listing (ds : List Definition) : Text := ds.flatMap listingLine

end Definition

end Listfile
