import Listfile.Text.Quoted
import Listfile.Text.Numeral

/-! What a program takes on its command line: options with one or more names,
with or without a value, and one positional argument that is required. The
settings that the options build up have the type `σ`. -/

namespace Listfile.CommandLine

/-- What an option does. -/
inductive Action (σ : Type)
  /-- An option without a value; it is told by which of its names it was called. -/
  | flag (set : Text → σ → σ)
  /-- An option with a value, which may be refused with a wording. The value is gone if it was
  given as a double dash in the word of the option. -/
  | value (set : Option Text → σ → Except String σ)
  /-- Asks for help; nothing else is done. -/
  | help

structure Choice (σ : Type) where
  names : List Text
  action : Action σ

structure Grammar (σ : Type) where
  program : String
  choices : List (Choice σ)
  /-- The name of the positional argument. -/
  positional : String
  /-- Whether the positional argument may be given several times in a row. -/
  many : Bool
  setPositional : List Text → σ → σ

/-- Why a command line is not carried out. -/
inductive Stop
  | help
  | ambiguous (word : Text) (names : List Text)
  | missingValue (names : List Text)
  | unwantedValue (names : List Text) (value : Text)
  | refusedValue (names : List Text) (wording : String)
  | missingPositional (name : String)
  | unrecognized (words : List Text)

def separated (separator : String) (words : List Text) : String :=
  separator.intercalate (words.map String.ofList)

def Stop.message : Stop → String
  | .help => ""
  | .ambiguous word names =>
    "ambiguous option: " ++ String.ofList word ++ " could match " ++ separated ", " names
  | .missingValue names => "argument " ++ separated "/" names ++ ": expected one argument"
  | .unwantedValue names value =>
    "argument " ++ separated "/" names ++ ": ignored explicit argument " ++
      String.ofList (Text.quote value)
  | .refusedValue names wording => "argument " ++ separated "/" names ++ ": " ++ wording
  | .missingPositional name => "the following arguments are required: " ++ name
  | .unrecognized words => "unrecognized arguments: " ++ separated " " words

namespace Choice

/-- Asks for help. -/
def help {σ : Type} : Choice σ := ⟨["-h".toList, "--help".toList], .help⟩

/-- An option with a whole number as its value. -/
def integer {σ : Type} (name : String) (set : Option Int → σ → σ) : Choice σ :=
  ⟨[name.toList], .value fun
    | none, settings => .ok (set none settings)
    | some word, settings =>
      match Text.integer? word with
      | some n => .ok (set (some n) settings)
      | none => .error ("invalid int value: " ++ String.ofList (Text.quote word))⟩

/-- An option with any value. -/
def word {σ : Type} (name : String) (set : Option Text → σ → σ) : Choice σ :=
  ⟨[name.toList], .value fun word settings => .ok (set word settings)⟩

/-- An option that is on when it is given. -/
def flag {σ : Type} (names : List String) (set : σ → σ) : Choice σ :=
  ⟨names.map String.toList, .flag fun _ => set⟩

def negation (name : Text) : Text := "--no-".toList ++ name.drop 2

/-- An option that is turned on by each of its names and off by the name with `no-` in front. -/
def toggle {σ : Type} (names : List String) (set : Bool → σ → σ) : Choice σ :=
  ⟨names.flatMap fun n => [n.toList, negation n.toList],
    .flag fun name => set (!"--no-".toList.isPrefixOf name)⟩

end Choice

namespace Grammar

variable {σ : Type}

/-- The names of all options, in the order in which they are declared. -/
def names (g : Grammar σ) : List Text := g.choices.flatMap (·.names)

/-- The option of a name. -/
def choice? (g : Grammar σ) (name : Text) : Option (Choice σ) :=
  g.choices.find? (·.names.contains name)

def knows (g : Grammar σ) (name : Text) : Bool := (g.choice? name).isSome

end Grammar

end Listfile.CommandLine
