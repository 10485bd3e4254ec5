import Listfile.Number.Binary
import Listfile.Text.Quoted

/-! Values of the data format that style files are written in, and the way they
are shown in messages. Whole numbers and fractions are different kinds of
value. The members of an object keep the order of their first mention. Strings
are made of letters, since a string may name one half of a surrogate pair and
leave out the other. -/

namespace Listfile.Json

/-- A character, or half of a surrogate pair by its number. -/
inductive Letter
  | char (c : Char)
  | half (n : Nat)
  deriving DecidableEq, Repr

/-- The contents of a string. -/
abbrev Letters := List Letter

namespace Letters

def ofText (t : Text) : Letters := t.map .char

def ofString (s : String) : Letters := ofText s.toList

/-- The characters among some letters. -/
def text (l : Letters) : Text :=
  l.filterMap fun
    | .char c => some c
    | .half _ => none

/-- The literal that stands for a string; a half of a pair is written by its number. -/
def quote (l : Letters) : Text :=
  let d := Text.delimiterFor (text l)
  let letter : Letter → Text
    | .char c => Text.escape d c
    | .half n => '\\' :: 'u' :: Text.hex 4 n
  d :: (l.flatMap letter ++ [d])

end Letters

inductive Value
  | null
  | bool (b : Bool)
  | int (n : Int)
  | float (x : Binary)
  | string (l : Letters)
  | array (elements : List Value)
  | object (members : List (Letters × Value))
  deriving Repr

/-- Put a member into an object. A name that is there already keeps its place and takes the new
value. -/
def insert {α : Type} (members : List (Letters × α)) (name : Letters) (value : α) :
    List (Letters × α) :=
  if members.any (·.1 = name) then
    members.map fun m => if m.1 = name then (name, value) else m
  else members ++ [(name, value)]

/-- The object of a list of members, in which names may be repeated. -/
def collect {α : Type} (members : List (Letters × α)) : List (Letters × α) :=
  members.foldl (fun object m => insert object m.1 m.2) []

namespace Value

mutual

/-- A value as it is shown in messages. -/
def shown : Value → Text
  | .null => "None".toList
  | .bool true => "True".toList
  | .bool false => "False".toList
  | .int n => (toString n).toList
  | .float x => x.text
  | .string l => Letters.quote l
  | .array elements => '[' :: (Text.commas (shownAll elements) ++ [']'])
  | .object members => '\x7b' :: (Text.commas (shownMembers members) ++ ['\x7d'])

def shownAll : List Value → List Text
  | [] => []
  | v :: rest => v.shown :: shownAll rest

def shownMembers : List (Letters × Value) → List Text
  | [] => []
  | (name, v) :: rest => (Letters.quote name ++ ':' :: ' ' :: v.shown) :: shownMembers rest

end

end Value

end Listfile.Json
