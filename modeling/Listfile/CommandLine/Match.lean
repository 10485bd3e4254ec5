import Listfile.CommandLine.Grammar

/-! Matching the words of a command line. First every word is classified: a
long option may be cut short as long as one name only starts that way, and all
words behind a double dash are plain. Then the words are taken from left to
right. The positional argument is the first run of plain words that no option
takes as its value; further plain words and unknown options are collected and
reported at the end, after a missing positional argument. -/

namespace Listfile.CommandLine

inductive Word
  /-- An option, by its full name, and the text attached to it in the same word. -/
  | option (name : Text) (attached : Option Text)
  /-- It looks like an option and is none. -/
  | stray (word : Text)
  | plain (word : Text)
  /-- The double dash. -/
  | separator

/-! ### Classifying words -/

/-- The text before the first equals sign and, if there is one, the text behind it. -/
def splitAtEquals (word : Text) : Text × Option Text :=
  match word.dropWhile (· ≠ '=') with
  | [] => (word, none)
  | _ :: value => (word.takeWhile (· ≠ '='), some value)

/-- A text without the line feed at its end, if there is one. -/
def dropLineEnd (t : Text) : Text := if t.getLast? = some '\n' then t.dropLast else t

/-- A minus sign and a decimal number, with at most one line feed behind it. -/
def isNegativeNumber (word : Text) : Bool :=
  match dropLineEnd word with
  | '-' :: t =>
    let digit (c : Char) : Bool := (Text.digit? c).isSome
    let whole := t.takeWhile digit
    match t.dropWhile digit with
    | [] => !whole.isEmpty
    | '.' :: rest => !rest.isEmpty && rest.all digit
    | _ => false
  | _ => false

variable {σ : Type}

/-- The options that a word with a dash in front may stand for. -/
def candidates (g : Grammar σ) (word : Text) : List (Text × Option Text) :=
  if "--".toList.isPrefixOf word then
    let (start, attached) := splitAtEquals word
    (g.names.filter (start.isPrefixOf ·)).map fun name => (name, attached)
  else
    g.names.filterMap fun name =>
      if name = word.take 2 then some (name, some (word.drop 2))
      else if word.isPrefixOf name then some (name, none)
      else none

/-- The class of a word in front of any double dash. -/
def classify (g : Grammar σ) (word : Text) : Except Stop Word :=
  if word.head? ≠ some '-' then .ok (.plain word)
  else if g.knows word then .ok (.option word none)
  else if word.length = 1 then .ok (.plain word)
  else
    let (start, attached) := splitAtEquals word
    if attached.isSome && g.knows start then .ok (.option start attached)
    else match candidates g word with
      | [(name, attached)] => .ok (.option name attached)
      | [] =>
        if isNegativeNumber word || word.contains ' ' then .ok (.plain word) else .ok (.stray word)
      | several => .error (.ambiguous word (several.map (·.1)))

/-- The classes of all words. -/
def classifyAll (g : Grammar σ) : List Text → Except Stop (List Word)
  | [] => .ok []
  | word :: rest =>
    if word = "--".toList then .ok (.separator :: rest.map .plain)
    else do
      let first ← classify g word
      return first :: (← classifyAll g rest)

/-! ### Options that share a word -/

/-- Whether an option needs a value. -/
def wantsValue (choice : Choice σ) : Bool :=
  match choice.action with
  | .value _ => true
  | _ => false

/-- An option that is called by one of its names, with the value that is known for it. -/
structure Call (σ : Type) where
  choice : Choice σ
  name : Text
  value : Option Text

/-- Whether a call waits for a value in the next word. -/
def Call.waits (c : Call σ) : Bool := wantsValue c.choice && c.value.isNone

/-- Give a call the value that it waits for. -/
def Call.provide (word : Text) (c : Call σ) : Call σ :=
  if c.waits then { c with value := some word } else c

/-- The calls of an option and of the text attached to it. Options of one letter and without a
value may be written together behind one dash; any other option without a value refuses the text. -/
def callsFrom (g : Grammar σ) (choice : Choice σ) (name : Text) (attached : Text) :
    Except Stop (List (Call σ)) :=
  if wantsValue choice then .ok [⟨choice, name, some attached⟩]
  else match attached with
    | [] => .error (.unwantedValue choice.names [])
    | c :: t =>
      if "--".toList.isPrefixOf name then .error (.unwantedValue choice.names (c :: t))
      else match g.choice? ['-', c] with
        | none => .error (.unwantedValue choice.names (c :: t))
        | some next =>
          match t with
          | [] => .ok [⟨choice, name, none⟩, ⟨next, ['-', c], none⟩]
          | d :: u => do
            let more ← callsFrom g next ['-', c] (d :: u)
            return ⟨choice, name, none⟩ :: more

/-- The calls of an option. -/
def calls (g : Grammar σ) (choice : Choice σ) (name : Text) :
    Option Text → Except Stop (List (Call σ))
  | none => .ok [⟨choice, name, none⟩]
  | some attached => callsFrom g choice name attached

/-! ### Taking words -/

/-- How far the positional argument has been read. -/
inductive Positional
  | awaited
  | reading (words : List Text)
  | complete (words : List Text)

def Positional.stop : Positional → Positional
  | .reading words => .complete words
  | p => p

structure Progress (σ : Type) where
  settings : σ
  positional : Positional
  extras : List Text

namespace Progress

def addExtra (word : Text) (p : Progress σ) : Progress σ :=
  { p with extras := p.extras ++ [word] }

/-- Carry out an option. A value that is a double dash is taken away from it. -/
def call (c : Call σ) (p : Progress σ) : Except Stop (Progress σ) :=
  match c.choice.action, c.value with
  | .flag set, _ => .ok { p with settings := set c.name p.settings }
  | .value set, some word =>
    match set (if word = "--".toList then none else some word) p.settings with
    | .ok settings => .ok { p with settings }
    | .error wording => .error (.refusedValue c.choice.names wording)
  | .value _, none => .error (.missingValue c.choice.names)
  | .help, _ => .error .help

def callAll (p : Progress σ) : List (Call σ) → Except Stop (Progress σ)
  | [] => .ok p
  | c :: rest => do (← p.call c).callAll rest

/-- A plain word that no option takes. -/
def plain (g : Grammar σ) (word : Text) (p : Progress σ) : Progress σ :=
  match p.positional with
  | .awaited => { p with positional := .reading [word] }
  | .reading words =>
    if g.many then { p with positional := .reading (words ++ [word]) }
    else { p with positional := .complete words }.addExtra word
  | .complete _ => p.addExtra word

/-- The double dash, which belongs to the positional argument if it is being read. -/
def separator (g : Grammar σ) (p : Progress σ) : Progress σ :=
  match p.positional with
  | .awaited => p
  | .reading words => if g.many then p else { p with positional := .complete words }
  | .complete _ => p.addExtra "--".toList

end Progress

/-- Take all words. A value that an option waits for is the next word, if that is plain. -/
def take (g : Grammar σ) (p : Progress σ) : List Word → Except Stop (Progress σ)
  | [] => .ok p
  | .plain word :: rest => take g (p.plain g word) rest
  | .separator :: rest => take g (p.separator g) rest
  | .stray word :: rest => take g ({ p with positional := p.positional.stop }.addExtra word) rest
  | .option name attached :: rest =>
    let p := { p with positional := p.positional.stop }
    match g.choice? name with
    | none => take g (p.addExtra name) rest
    | some choice => do
      let found ← calls g choice name attached
      match found.find? Call.waits with
      | none => take g (← p.callAll found) rest
      | some c =>
        match rest with
        | .plain word :: rest => take g (← p.callAll (found.map (·.provide word))) rest
        | _ => .error (.missingValue c.choice.names)

/-- The settings of a command line. -/
def parse (g : Grammar σ) (start : σ) (words : List Text) : Except Stop σ := do
  let p ← take g ⟨start, .awaited, []⟩ (← classifyAll g words)
  match p.positional with
  | .awaited => .error (.missingPositional g.positional)
  | .reading found | .complete found =>
    if p.extras.isEmpty then return g.setPositional found p.settings
    else .error (.unrecognized p.extras)

end Listfile.CommandLine
