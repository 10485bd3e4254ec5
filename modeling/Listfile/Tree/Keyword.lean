import Listfile.Tree.Basic

/-! The commands that open, divide and close blocks. Names of commands are
compared in lower case. -/

namespace Listfile

inductive BlockKind
  | definition (kind : DefinitionKind)
  | conditional
  | loop (kind : LoopKind)
  deriving DecidableEq, Repr

/-- The commands that divide a conditional. -/
inductive Divider
  | elseifArm
  | elseArm
  deriving DecidableEq, Repr

inductive Keyword
  | opening (block : BlockKind)
  | dividing (divider : Divider)
  | closing (block : BlockKind)
  deriving DecidableEq, Repr

namespace BlockKind

def all : List BlockKind :=
  [.definition .functionDef, .definition .macroDef, .conditional, .loop .foreachLoop,
    .loop .whileLoop]

def keyword : BlockKind → Text
  | .definition kind => kind.keyword
  | .conditional => "if".toList
  | .loop kind => kind.keyword

/-- The name of the command that closes a block: `end` and the name that opens it. -/
def endKeyword (block : BlockKind) : Text := "end".toList ++ block.keyword

end BlockKind

namespace Divider

def keyword : Divider → Text
  | .elseifArm => "elseif".toList
  | .elseArm => "else".toList

end Divider

namespace Keyword

def all : List Keyword :=
  BlockKind.all.map .opening ++ [.dividing .elseifArm, .dividing .elseArm] ++
    BlockKind.all.map .closing

def spelling : Keyword → Text
  | .opening block => block.keyword
  | .dividing divider => divider.keyword
  | .closing block => block.endKeyword

/-- The keyword of a command name in lower case, if it is one. -/
def ofName? (name : Text) : Option Keyword := all.find? (·.spelling = name)

theorem mem_all (k : Keyword) : k ∈ all := by
  rcases k with (kind | _ | kind) | divider | (kind | _ | kind) <;>
    (try cases kind) <;> (try cases divider) <;> decide

/-- What holds of every keyword can be told by going through them. -/
instance (P : Keyword → Prop) [DecidablePred P] : Decidable (∀ k, P k) :=
  decidable_of_decidable_of_iff (p := ∀ k ∈ all, P k)
    ⟨fun h k => h k k.mem_all, fun h k _ => h k⟩

theorem lower_spelling : ∀ k : Keyword, Text.lower k.spelling = k.spelling := by decide

/-- No two keywords are spelled in the same way. -/
theorem ofName?_spelling : ∀ k : Keyword, ofName? k.spelling = some k := by decide

end Keyword

end Listfile
