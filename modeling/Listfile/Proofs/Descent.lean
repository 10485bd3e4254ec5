import Listfile.Proofs.Inside
import Listfile.Token.Cursor

/-! Reading by recursive descent, with every check on the way. A parser is a
cursor over the tokens and the reports so far. Statement lists, blocks, commands
and argument lists call each other as they nest, each loop over statements checks
that the cursor has moved on since its last turn, and spans and places are made
from integers that may be out of order. What fails a check breaks the descent
down, and so does running out of fuel, of which every loop and every call takes
one unit. Here argument lists, lines and commands are shown to be read as the
steps from item to item read them (`argumentList_eq`, `restOfLine_eq`,
`commandAt_eq`). -/

namespace Listfile

open Token

namespace Parse

/-! ### Parsers -/

/-- Why a descent does not come to its end. -/
inductive Breakdown
  | stalled (message : String)
  | unexpectedKind (kind : Kind)
  | span (fault : Span.Fault)
  | location (fault : Location.Fault)
  | exhausted

structure Parser where
  cursor : Cursor
  reports : List Diagnostic

namespace Parser

def start (source : Text) : Parser := ⟨.start source, []⟩

def current (p : Parser) : Token := p.cursor.current

def bump (p : Parser) : Token × Parser := (p.cursor.bump.1, { p with cursor := p.cursor.bump.2 })

def eat (kind : Kind) (p : Parser) : Parser := { p with cursor := (p.cursor.eat kind).2 }

def error (code : Diagnostic.Code) (span : Option Span) (message : Option String) (p : Parser) :
    Parser :=
  { p with reports := p.reports ++ [p.cursor.report code span message] }

end Parser

/-! ### Spans and places -/

/-- The least span that holds two others, from the least and the greatest of their ends. -/
def checkedCover (a b : Span) : Except Breakdown Span :=
  match Span.ofInts (min (a.start : Int) b.start) (max (a.stop : Int) b.stop) with
  | .ok span => .ok span
  | .error fault => .error (.span fault)

/-- The place of a token, from the number of its line and its distance from the start of it. -/
def checkedPlace (lines : LineIndex) (t : Token) : Except Breakdown Location :=
  let (line, start) := LineIndex.seek t.span.start 0 0 lines.starts
  match Location.ofInts (line + 1) ((t.span.start : Int) - start) with
  | .ok location => .ok location
  | .error fault => .error (.location fault)

/-! ### Argument lists -/

/-- The argument that a token stands for. -/
def checkedArgument (lines : LineIndex) (t : Token) : Except Breakdown Argument :=
  match t.kind with
  | .unquoted => .ok (.unquoted t.text)
  | .quoted => .ok (.quoted (quotedBody t.text))
  | .bracket => do
    let location ← checkedPlace lines t
    .ok (.bracket (bracketBody (fenceOf t.text) t.text) (fenceOf t.text) (some location))
  | .lineComment => do
    let location ← checkedPlace lines t
    .ok (.lineComment t.text.tail (some location))
  | .bracketComment => do
    let location ← checkedPlace lines t
    let inner := t.text.tail
    .ok (.bracketComment (bracketBody (fenceOf inner) inner) (fenceOf inner) (some location))
  | kind => .error (.unexpectedKind kind)

/-- The arguments up to the partner of `paren`, and where they end. -/
def argumentList (lines : LineIndex) :
    Nat → Token → List Argument → Parser → Except Breakdown (List Argument × Span × Parser)
  | 0, _, _, _ => .error .exhausted
  | fuel + 1, paren, read, p =>
    match p.current.kind with
    | .closeParen => .ok (read.reverse, p.bump.1.span, p.bump.2)
    | .endOfFile =>
      .ok (read.reverse, p.current.span, p.error .unterminatedArguments (some paren.span) none)
    | .lineBreak => argumentList lines fuel paren read p.bump.2
    | .openParen => do
      let (inner, _, p) ← argumentList lines fuel p.bump.1 [] p.bump.2
      argumentList lines fuel paren (.group inner :: read) p
    | _ => do
      let a ← checkedArgument lines p.bump.1
      argumentList lines fuel paren (a :: read) p.bump.2

/-- Drop everything up to the end of the line. -/
def restOfLine (lines : LineIndex) : Nat → Parser → Except Breakdown Parser
  | 0, _ => .error .exhausted
  | fuel + 1, p =>
    match p.current.kind with
    | .lineBreak | .endOfFile => .ok p
    | .openParen => do
      let (_, _, p) ← argumentList lines fuel p.bump.1 [] p.bump.2
      restOfLine lines fuel p
    | _ => restOfLine lines fuel p.bump.2

/-! ### Commands -/

/-- A line that holds no command, once it is reported. -/
def noCommand (lines : LineIndex) (fuel : Nat) (p : Parser) :
    Except Breakdown (Option Command × Parser) := do
  let p ← restOfLine lines fuel p
  .ok (none, p)

/-- The command at the cursor, if there is one. -/
def commandAt (lines : LineIndex) (fuel : Nat) (p : Parser) :
    Except Breakdown (Option Command × Parser) := do
  let name := p.bump.1
  let p := p.bump.2
  let location ← checkedPlace lines name
  if isIdentifier name.text then
    if p.current.kind = .openParen then
      let (arguments, stop, p) ← argumentList lines fuel p.bump.1 [] p.bump.2
      let span ← checkedCover name.span stop
      .ok (some ⟨name.text, arguments, span, location⟩, p)
    else noCommand lines fuel (p.error .expectedOpenParen (some name.span) none)
  else
    let message := Diagnostic.Code.summary .expectedCommand ++ ", got `" ++
      String.ofList name.text ++ "`"
    noCommand lines fuel (p.error .expectedCommand (some name.span) (some message))

/-! ### Blocks -/

/-- What reads a statement list that is ended by one of some closers. -/
abbrev ListReader :=
  List Text → Parser → Except Breakdown (List Statement × Option Command × Parser)

/-- The report on a block that the source ends in. -/
def Parser.unterminated (c : Command) (p : Parser) : Parser :=
  p.error .unterminatedBlock (some c.span)
    (some (Diagnostic.Code.summary .unterminatedBlock ++ ": `" ++ String.ofList c.identifier ++
      "` has no `" ++ String.ofList ("end".toList ++ c.name) ++ "`"))

/-- The body of a definition or a loop, up to the command that ends it. -/
def bodyOf (list : ListReader) (c : Command) (p : Parser) :
    Except Breakdown (List Statement × Parser) := do
  let (body, closer, p) ← list ["end".toList ++ c.name] p
  .ok (body, if closer.isNone then p.unterminated c else p)

/-- The arms of a conditional from the one that is to be read now. -/
def armsOf (list : ListReader) (c : Command) : Nat → Arm → Parser →
    Except Breakdown (Chain × Parser)
  | 0, _, _ => .error .exhausted
  | fuel + 1, arm, p => do
    let (body, closer, p) ← list ["elseif".toList, "else".toList, "endif".toList] p
    let chain := arm.close c body
    match closer with
    | none => .ok (chain, p.unterminated c)
    | some d =>
      if d.name = "endif".toList then .ok (chain, p)
      else
        let p := if chain.otherwise.isSome then p.error .misplacedBranch (some d.span) none else p
        let divider := if d.name = "elseif".toList then .elseifArm else .elseArm
        armsOf list c fuel (.later chain divider d) p

/-- The statement that a command is, or opens. -/
def constructOf (list : ListReader) (fuel : Nat) (c : Command) (p : Parser) :
    Except Breakdown (Statement × Parser) :=
  let plain : Statement := .command c.identifier c.arguments (some c.location)
  match Keyword.ofName? c.name with
  | some (.opening (.definition kind)) =>
    match takeName c.arguments with
    | some (name, arguments) => do
      let (body, p) ← bodyOf list c p
      .ok (.definition kind name arguments body (some c.location), p)
    | none => do
      let (body, p) ← bodyOf list c (p.error .missingDefinitionName (some c.span) none)
      .ok (.definition kind [] c.arguments body (some c.location), p)
  | some (.opening .conditional) => do
    let (chain, p) ← armsOf list c fuel .first p
    .ok (.conditional chain.head chain.elseifs chain.otherwise, p)
  | some (.opening (.loop kind)) => do
    let (body, p) ← bodyOf list c p
    .ok (.loop kind c.arguments body (some c.location), p)
  | some (.dividing _) => .ok (plain, p.error .misplacedBranch (some c.span) none)
  | some (.closing _) =>
    let message := Diagnostic.Code.summary .unmatchedBlockEnd ++ ": `" ++
      String.ofList c.identifier ++ "`"
    .ok (plain, p.error .unmatchedBlockEnd (some c.span) (some message))
  | none => .ok (plain, p)

/-! ### Statement lists -/

/-- Statements up to the end of the source, or to a command with one of the names in `closers`. -/
def statementList (lines : LineIndex) :
    Nat → List Text → Cursor.Mark → List Statement → Parser →
      Except Breakdown (List Statement × Option Command × Parser)
  | 0, _, _, _, _ => .error .exhausted
  | fuel + 1, closers, mark, read, p =>
    let (passed, mark) := mark.passed p.cursor
    if !passed then .error (.stalled p.cursor.stalled)
    else match p.current.kind with
    | .endOfFile => .ok (read.reverse, none, p)
    | .lineBreak => do
      let location ← checkedPlace lines p.current
      statementList lines fuel closers mark (.lineBreak (some location) :: read) p.bump.2
    | .lineComment => do
      let t := p.bump.1
      let location ← checkedPlace lines t
      let s := .lineComment t.text.tail (!t.startsLine) (some location)
      statementList lines fuel closers mark (s :: read) (p.bump.2.eat .lineBreak)
    | .bracketComment => do
      let t := p.bump.1
      let inner := t.text.tail
      let location ← checkedPlace lines t
      let s := .bracketComment (bracketBody (fenceOf inner) inner) (fenceOf inner) (!t.startsLine)
        (some location)
      statementList lines fuel closers mark (s :: read) p.bump.2
    | .unquoted => do
      let (c?, p) ← commandAt lines fuel p
      match c? with
      | none => statementList lines fuel closers mark read p
      | some c =>
        if closers.contains c.name then .ok (read.reverse, some c, p)
        else
          let list : ListReader := fun closers p => statementList lines fuel closers ⟨none⟩ [] p
          let (s, p) ← constructOf list fuel c p
          statementList lines fuel closers mark (s :: read) p
    | _ => do
      let message := Diagnostic.Code.summary .expectedCommand ++ ", got `" ++
        String.ofList p.current.text ++ "`"
      let p ← restOfLine lines fuel (p.error .expectedCommand none (some message))
      statementList lines fuel closers mark read p

/-- What came of reading one statement list: it, the command that ended it, if any, and the parser
behind that. -/
structure Outcome where
  statements : List Statement
  closer : Option Command
  parser : Parser

/-- One statement list after the other, each ended by its own set of closers. -/
def statementLists (lines : LineIndex) (fuel : Nat) :
    List (List Text) → Parser → Except Breakdown (List Outcome)
  | [], _ => .ok []
  | closers :: more, p => do
    let (statements, closer, p) ← statementList lines fuel closers ⟨none⟩ [] p
    let outcomes ← statementLists lines fuel more p
    .ok (⟨statements, closer, p⟩ :: outcomes)

/-! ### Checks -/

theorem checkedCover_eq (a b : Span) : checkedCover a b = .ok (a.cover b) := by
  have ha := a.start_le_stop
  have hb := b.start_le_stop
  unfold checkedCover Span.ofInts
  rw [dif_neg (by omega), dif_neg (by omega)]
  simp only [Span.cover, Except.ok.injEq, Span.mk.injEq]
  omega

theorem checkedPlace_eq (lines : LineIndex) (t : Token) :
    checkedPlace lines t = .ok (lines.location t.span.start) := by
  unfold checkedPlace
  dsimp only
  rw [lines.ofInts_seek]

theorem checkedArgument_eq {lines : LineIndex} {t : Token} {a : Argument}
    (h : argument? lines t = some a) : checkedArgument lines t = .ok a := by
  cases hk : t.kind <;> simp only [argument?, hk] at h <;> cases h <;>
    simp only [checkedArgument, checkedPlace_eq, hk] <;> rfl

/-! ### Parsers on the tokens of a source -/

/-- Tokens that carry structure, and the token behind them. -/
structure Stream where
  tokens : List Token
  stop : Token
  isSignificant : ∀ t ∈ tokens, Token.isSignificant t = true
  stop_kind : stop.kind = .endOfFile

namespace Stream

def ofText (source : Text) : Stream where
  tokens := (Cursor.start source).ahead
  stop := (Cursor.start source).stop
  isSignificant := fun _ ht => (List.mem_filter.mp ht).2
  stop_kind := rfl

variable (S : Stream)

/-- The parser that has come to the last of the tokens, `ahead`. -/
def parser (ahead : List Token) (reports : List Diagnostic) : Parser :=
  ⟨⟨ahead, S.stop, S.tokens.length - ahead.length⟩, reports⟩

theorem parser_ofText (source : Text) :
    (ofText source).parser (significant source) [] = Parser.start source := by
  simp [parser, ofText, Parser.start, Cursor.start, significant]

theorem current_nil (reports : List Diagnostic) : (S.parser [] reports).current = S.stop := rfl

theorem current_cons (t : Token) (rest : List Token) (reports : List Diagnostic) :
    (S.parser (t :: rest) reports).current = t := rfl

theorem error_eq (ahead : List Token) (reports : List Diagnostic) (code : Diagnostic.Code)
    (span : Span) (message : Option String) :
    (S.parser ahead reports).error code (some span) message =
      S.parser ahead (reports ++ [.worded code (message.getD code.summary) span]) := rfl

variable {S}

theorem bump_cons {t : Token} {rest : List Token} (h : t :: rest <:+ S.tokens)
    (reports : List Diagnostic) :
    (S.parser (t :: rest) reports).bump = (t, S.parser rest reports) := by
  have hlength := h.length_le
  rw [List.length_cons] at hlength
  have hposition : S.tokens.length - (rest.length + 1) + 1 = S.tokens.length - rest.length := by
    omega
  simp [Parser.bump, parser, Cursor.bump, hposition]

theorem kind_of_suffix {t : Token} {rest : List Token} (h : t :: rest <:+ S.tokens) :
    t.kind ≠ .space ∧ t.kind ≠ .endOfFile := by
  have hs := S.isSignificant t (h.subset (List.mem_cons_self ..))
  simpa [Token.isSignificant] using hs

end Stream

/-! ### Argument lists -/

theorem closeAll_append (inner : List Argument) (outer : List OpenGroup) (g : OpenGroup) :
    closeAll inner (outer ++ [g]) = (.group (closeAll inner outer) :: g.read).reverse := by
  induction outer generalizing inner with
  | nil => rfl
  | cons next outer ih => rw [List.cons_append, closeAll, ih, closeAll]

/-- Arguments inside a group are read as a list of its own, up to the end of the group. -/
theorem enclosed_inside (lines : LineIndex) (stop : Span) (group g : OpenGroup)
    (outer : List OpenGroup) (tokens : List Token) :
    enclosed lines stop group (outer ++ [g]) tokens =
      let e := enclosed lines stop group outer tokens
      let e' := enclosed lines stop { g with read := .group e.arguments :: g.read } [] e.rest
      { e' with faults := e.faults ++ e'.faults } := by
  fun_induction enclosed lines stop group outer tokens with
  | case1 group outer => simp [enclosed, closeAll_append, closeAll]
  | case2 group t rest hk => rw [List.nil_append, enclosed_close _ _ _ _ _ hk]; rfl
  | case3 group t rest hk next outer ih =>
    rw [List.cons_append, enclosed_close _ _ _ _ _ hk, ih]
  | case4 group outer t rest hk ih =>
    rw [enclosed_open _ _ _ _ _ hk, ← List.cons_append, ih]
  | case5 group outer t rest a ha hc ho ih => rw [enclosed_leaf _ _ _ _ _ ha, ih]
  | case6 group outer t rest ha hc ho ih =>
    rw [enclosed.eq_def]
    simp only [ha, ih]

/-- A line with parentheses open is skipped by skipping their arguments first. -/
theorem skipLine_inside (lines : LineIndex) (stop : Span) (group : OpenGroup)
    (outer : List OpenGroup) (tokens : List Token) :
    skipLine ((group :: outer).map (·.paren)) tokens =
      let e := enclosed lines stop group outer tokens
      ((skipLine [] e.rest).1, e.faults ++ (skipLine [] e.rest).2) := by
  fun_induction enclosed lines stop group outer tokens with
  | case1 group outer => simp [skipLine, List.map_map]
  | case2 group t rest hk =>
    rw [skipLine.eq_def]
    simp [hk]
  | case3 group t rest hk next outer ih =>
    rw [skipLine.eq_def]
    simp only [hk, List.map_cons, List.tail_cons]
    exact ih
  | case4 group outer t rest hk ih =>
    rw [skipLine.eq_def]
    simp only [hk]
    exact ih
  | case5 group outer t rest a ha hc ho ih =>
    rw [skipLine.eq_def]
    cases hk : t.kind <;> simp_all
  | case6 group outer t rest ha hc ho ih =>
    rw [skipLine.eq_def]
    cases hk : t.kind <;> simp_all

section Lists
variable {S : Stream} (lines : LineIndex)

theorem argumentList_eq {fuel : Nat} {tokens : List Token} (h : tokens <:+ S.tokens)
    (hfuel : tokens.length < fuel) (paren : Token) (read : List Argument)
    (reports : List Diagnostic) :
    argumentList lines fuel paren read (S.parser tokens reports) =
      let e := enclosed lines S.stop.span ⟨paren, read⟩ [] tokens
      .ok (e.arguments, e.stop, S.parser e.rest (reports ++ e.faults)) := by
  induction fuel generalizing tokens paren read reports with
  | zero => omega
  | succ fuel ih =>
    cases tokens with
    | nil =>
      rw [argumentList, S.current_nil]
      simp only [S.stop_kind]
      rfl
    | cons t rest =>
      have hrest : rest <:+ S.tokens := (List.suffix_cons t rest).trans h
      have hless : rest.length < fuel := by simpa using hfuel
      rw [argumentList, S.current_cons, Stream.bump_cons h]
      have hleaf {a : Argument} (ha : argument? lines t = some a) :
          (do let a ← checkedArgument lines t
              argumentList lines fuel paren (a :: read) (S.parser rest reports)) =
            let e := enclosed lines S.stop.span ⟨paren, read⟩ [] (t :: rest)
            .ok (e.arguments, e.stop, S.parser e.rest (reports ++ e.faults)) := by
        rw [checkedArgument_eq ha, enclosed_leaf _ _ _ _ _ ha]
        exact ih hrest hless paren (a :: read) reports
      obtain ⟨hspace, hend⟩ := Stream.kind_of_suffix h
      cases hk : t.kind with
      | endOfFile => contradiction
      | space => contradiction
      | closeParen =>
        rw [enclosed_close_last _ _ _ _ hk]
        simp only [List.append_nil]
      | lineBreak =>
        rw [enclosed_lineBreak _ _ _ _ _ hk]
        exact ih hrest hless paren read reports
      | openParen =>
        have hsuffix := enclosed_rest_suffix lines S.stop.span ⟨t, []⟩ [] rest
        have hinner := enclosed_inside lines S.stop.span ⟨t, []⟩ ⟨paren, read⟩ [] rest
        rw [List.nil_append] at hinner
        rw [enclosed_open _ _ _ _ _ hk, hinner]
        simp only [ih hrest hless]
        refine (ih (hsuffix.trans hrest) (hsuffix.length_le.trans_lt hless) paren _ _).trans ?_
        simp only [List.append_assoc]
      | _ => exact hleaf (by simp only [argument?, hk]; rfl)

/-- What is left of the line that a parser is in is skipped. -/
theorem restOfLine_eq {fuel : Nat} {tokens : List Token} (h : tokens <:+ S.tokens)
    (hfuel : tokens.length < fuel) (reports : List Diagnostic) :
    restOfLine lines fuel (S.parser tokens reports) =
      .ok (S.parser (skipLine [] tokens).1 (reports ++ (skipLine [] tokens).2)) := by
  induction fuel generalizing tokens reports with
  | zero => omega
  | succ fuel ih =>
    cases tokens with
    | nil =>
      rw [restOfLine, S.current_nil]
      simp only [S.stop_kind, skipLine, List.map_nil, List.append_nil]
    | cons t rest =>
      have hrest : rest <:+ S.tokens := (List.suffix_cons t rest).trans h
      have hless : rest.length < fuel := by simpa using hfuel
      have hskip (hb : t.kind ≠ .lineBreak) (ho : t.kind ≠ .openParen) :
          skipLine [] (t :: rest) = skipLine [] rest := by
        rw [skipLine.eq_def]
        cases hk : t.kind <;> simp_all
      obtain ⟨hspace, hend⟩ := Stream.kind_of_suffix h
      rw [restOfLine, S.current_cons, Stream.bump_cons h]
      cases hk : t.kind with
      | endOfFile => contradiction
      | lineBreak =>
        have hline : skipLine [] (t :: rest) = (t :: rest, []) := by
          rw [skipLine.eq_def]
          simp [hk]
        rw [hline, List.append_nil]
      | openParen =>
        have hsuffix := enclosed_rest_suffix lines S.stop.span ⟨t, []⟩ [] rest
        have hinner : skipLine [t] rest = _ :=
          skipLine_inside lines S.stop.span ⟨t, []⟩ [] rest
        have hline : skipLine [] (t :: rest) = skipLine [t] rest := by
          rw [skipLine.eq_def]
          simp only [hk]
        rw [hline, hinner]
        simp only [argumentList_eq lines hrest hless]
        refine (ih (hsuffix.trans hrest) (hsuffix.length_le.trans_lt hless) _).trans ?_
        simp only [List.append_assoc]
      | _ =>
        rw [hskip (by simp [hk]) (by simp [hk])]
        exact ih hrest hless reports

theorem commandAt_eq {fuel : Nat} {t : Token} {rest : List Token} (h : t :: rest <:+ S.tokens)
    (hfuel : rest.length < fuel) (reports : List Diagnostic) :
    commandAt lines fuel (S.parser (t :: rest) reports) =
      let s := commandStep lines S.stop.span t rest
      .ok (s.content.command?, S.parser s.rest (reports ++ s.faults)) := by
  have hrest : rest <:+ S.tokens := (List.suffix_cons t rest).trans h
  have hskip (fault : Diagnostic) : noCommand lines fuel (S.parser rest (reports ++ [fault])) =
      .ok (none, S.parser (Step.skip fault rest).rest
        (reports ++ (Step.skip fault rest).faults)) := by
    rw [noCommand, restOfLine_eq lines hrest hfuel, List.append_assoc]
    rfl
  unfold commandAt commandStep
  dsimp only
  rw [Stream.bump_cons h]
  simp only [checkedPlace_eq, bind, Except.bind, S.error_eq]
  split
  · cases rest with
    | nil =>
      have hend : ¬ (S.parser [] reports).current.kind = .openParen := by
        simp [S.current_nil, S.stop_kind]
      rw [if_neg hend]
      exact hskip (.ofCode .expectedOpenParen t.span)
    | cons u inner =>
      rw [S.current_cons]
      dsimp only
      split
      · have hinner : inner <:+ S.tokens := (List.suffix_cons u inner).trans hrest
        have hless : inner.length < fuel := (Nat.lt_succ_self _).trans hfuel
        rw [Stream.bump_cons hrest, argumentList_eq lines hinner hless]
        simp only [checkedCover_eq]
        rfl
      · exact hskip (.ofCode .expectedOpenParen t.span)
  · exact hskip (unexpected t)

end Lists

end Parse

end Listfile
