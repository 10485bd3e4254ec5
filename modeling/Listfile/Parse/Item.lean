import Listfile.Parse.Enclosed

/-! A listfile as a flat sequence of items: line breaks, comments, commands, and
lines that are none of these. Which command opens or closes a block plays no
part here. Each item keeps the tokens it was read from, and the items of a
token list take all of its tokens in order (`flatMap_tokens_items`). -/

namespace Listfile.Parse

/-- A command: a name and an argument list. -/
structure Command where
  identifier : Text
  arguments : List Argument
  span : Span
  location : Location

/-- Names of commands do not depend on the case of their letters. -/
def Command.name (c : Command) : Text := c.identifier.lower

/-- What an item stands for. -/
inductive Content
  | statement (s : Statement)
  | command (c : Command)
  /-- A line that could not be read. -/
  | skipped

structure Item where
  content : Content
  faults : List Diagnostic
  /-- The tokens from the first one of this item on. -/
  start : List Token
  /-- The tokens behind this item. -/
  rest : List Token

/-- The tokens of an item. -/
def Item.tokens (i : Item) : List Token := i.start.take (i.start.length - i.rest.length)

/-- A letter or underscore, then letters, digits and underscores, all of ASCII. -/
def isIdentifier : Text → Bool
  | [] => false
  | c :: t => (c.isAlpha || c = '_') && t.all fun c => c.isAlphanum || c = '_'

/-- The report on a token at which no command starts. -/
def unexpected (t : Token) : Diagnostic :=
  .worded .expectedCommand
    (Diagnostic.Code.summary .expectedCommand ++ ", got `" ++ String.ofList t.text ++ "`") t.span

/-- An item's content, its reports, and the tokens behind it. -/
structure Step where
  content : Content
  faults : List Diagnostic
  rest : List Token

/-- A line that starts with a fault: the rest of it is dropped. -/
def Step.skip (fault : Diagnostic) (tokens : List Token) : Step :=
  let (rest, faults) := skipLine [] tokens
  ⟨.skipped, fault :: faults, rest⟩

/-- A command whose name is `t`, or a faulty line. The parenthesis has to follow the name
directly. -/
def commandStep (lines : LineIndex) (stop : Span) (t : Token) (rest : List Token) : Step :=
  if isIdentifier t.text then
    match rest with
    | [] => .skip (.ofCode .expectedOpenParen t.span) rest
    | p :: inner =>
      if p.kind = .openParen then
        let e := enclosed lines stop ⟨p, []⟩ [] inner
        ⟨.command ⟨t.text, e.arguments, t.span.cover e.stop, lines.location t.span.start⟩,
          e.faults, e.rest⟩
      else .skip (.ofCode .expectedOpenParen t.span) rest
  else .skip (unexpected t) rest

/-- A line comment takes the line break that ends it along. -/
def dropLineBreak : List Token → List Token
  | [] => []
  | t :: rest => if t.kind = .lineBreak then rest else t :: rest

/-- The item that starts with token `t`. -/
def step (lines : LineIndex) (stop : Span) (t : Token) (rest : List Token) : Step :=
  match t.kind with
  | .lineBreak => ⟨.statement (.lineBreak (some (lines.location t.span.start))), [], rest⟩
  | .lineComment => ⟨.statement (lineComment lines t), [], dropLineBreak rest⟩
  | .bracketComment => ⟨.statement (bracketComment lines t), [], rest⟩
  | .unquoted => commandStep lines stop t rest
  | _ => .skip (unexpected t) (t :: rest)

/-! ### Every item takes tokens -/

theorem Step.skip_rest_suffix (fault : Diagnostic) (tokens : List Token) :
    (Step.skip fault tokens).rest <:+ tokens :=
  skipLine_suffix [] tokens

theorem commandStep_rest_suffix (lines : LineIndex) (stop : Span) (t : Token)
    (rest : List Token) : (commandStep lines stop t rest).rest <:+ rest := by
  unfold commandStep
  split
  · split
    · exact Step.skip_rest_suffix _ _
    · split
      · exact (enclosed_rest_suffix _ _ _ _ _).trans (List.suffix_cons _ _)
      · exact Step.skip_rest_suffix _ _
  · exact Step.skip_rest_suffix _ _

theorem dropLineBreak_suffix (tokens : List Token) : dropLineBreak tokens <:+ tokens := by
  unfold dropLineBreak
  split
  · exact List.suffix_refl _
  · split
    · exact List.suffix_cons _ _
    · exact List.suffix_refl _

/-- What is left behind an item is an end piece of the tokens read. -/
theorem step_rest_suffix (lines : LineIndex) (stop : Span) (t : Token) (rest : List Token) :
    (step lines stop t rest).rest <:+ t :: rest := by
  unfold step
  split
  · exact List.suffix_cons _ _
  · exact (dropLineBreak_suffix rest).trans (List.suffix_cons _ _)
  · exact List.suffix_cons _ _
  · exact (commandStep_rest_suffix _ _ _ _).trans (List.suffix_cons _ _)
  · exact Step.skip_rest_suffix _ _

/-- An item takes at least one token. -/
theorem step_rest_length_lt (lines : LineIndex) (stop : Span) (t : Token) (rest : List Token) :
    (step lines stop t rest).rest.length < (t :: rest).length := by
  unfold step
  split
  · exact Nat.lt_succ_self _
  · exact Nat.lt_succ_of_le (dropLineBreak_suffix rest).length_le
  · exact Nat.lt_succ_self _
  · exact Nat.lt_succ_of_le (commandStep_rest_suffix lines stop t rest).length_le
  · exact skipLine_length_lt rest (by assumption)

/-- All items of a token list. `stop` is the end of the source. -/
def items (lines : LineIndex) (stop : Span) : List Token → List Item
  | [] => []
  | t :: rest =>
    let s := step lines stop t rest
    ⟨s.content, s.faults, t :: rest, s.rest⟩ :: items lines stop s.rest
termination_by tokens => tokens.length
decreasing_by exact step_rest_length_lt lines stop t rest

/-! ### Items take the tokens in order -/

theorem take_append_of_suffix {α : Type} {s l : List α} (h : s <:+ l) :
    l.take (l.length - s.length) ++ s = l := by
  obtain ⟨p, rfl⟩ := h
  simp

/-- The items of a token list hold all of its tokens, in order. -/
theorem flatMap_tokens_items (lines : LineIndex) (stop : Span) (tokens : List Token) :
    (items lines stop tokens).flatMap (·.tokens) = tokens := by
  fun_induction items lines stop tokens with
  | case1 => rfl
  | case2 t rest s ih =>
    rw [List.flatMap_cons, ih]
    exact take_append_of_suffix (step_rest_suffix lines stop t rest)

end Listfile.Parse
