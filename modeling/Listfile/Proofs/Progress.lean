import Listfile.Proofs.Descent
import Listfile.Proofs.Lossless

/-! Why the descent never breaks down. Each turn of the loop over statements takes
the tokens of one item, and those of the whole block if the item opens one. So the
tokens ahead get fewer with every turn and every call, no check on the cursor
fails, and the fuel lasts if there is one unit for every token and two more
(`statementList_eq`). What comes out is what the fold over items gives, since an
open block is a statement list of its own. Any sequence of statement lists is read
from any text in this way, one behind the other (`descent_completes`). -/

namespace Listfile

open Token

namespace Parse

section Lists
variable {S : Stream} {lines : LineIndex}

/-! ### Where a statement list ends -/

/-- A command that is read from the tokens right before `rest`. -/
def Command.Precedes (c : Command) (S : Stream) (lines : LineIndex) (tokens rest : List Token) :
    Prop :=
  ∃ t inner faults, t :: inner <:+ tokens ∧
    commandStep lines S.stop.span t inner = ⟨.command c, faults, rest⟩

theorem Command.Precedes.length_lt {c : Command} {tokens rest : List Token}
    (h : c.Precedes S lines tokens rest) : rest.length < tokens.length := by
  obtain ⟨t, inner, faults, hsuffix, hstep⟩ := h
  have hrest : rest <:+ inner := by
    simpa only [hstep] using commandStep_rest_suffix lines S.stop.span t inner
  exact (Nat.lt_succ_of_le hrest.length_le).trans_le hsuffix.length_le

/-- How far a statement list goes: to the end of the source, or over a command that ends it. -/
structure Reached (S : Stream) (lines : LineIndex) (closers : List Text)
    (tokens rest : List Token) (r : Reading) : Prop where
  suffix : rest <:+ tokens
  rest_eq : r.rest = items lines S.stop.span rest
  ended : r.closer = none → rest = []
  closed : ∀ c, r.closer = some c → c.name ∈ closers ∧ c.Precedes S lines tokens rest

theorem Reached.of_suffix {closers : List Text} {tokens tokens' rest : List Token} {r : Reading}
    (h : Reached S lines closers tokens' rest r) (hsuffix : tokens' <:+ tokens) :
    Reached S lines closers tokens rest r where
  suffix := h.suffix.trans hsuffix
  rest_eq := h.rest_eq
  ended := h.ended
  closed := by
    intro c hc
    obtain ⟨hname, t, inner, faults, ht, hstep⟩ := h.closed c hc
    exact ⟨hname, t, inner, faults, ht.trans hsuffix, hstep⟩

/-- A run that ends, with what a reading of `tokens` gives, where the reading ends. -/
def ReadsTo (S : Stream) (lines : LineIndex) (closers : List Text) (reports : List Diagnostic)
    (tokens : List Token) (r : Reading)
    (run : Except Breakdown (List Statement × Option Command × Parser)) : Prop :=
  ∃ rest, Reached S lines closers tokens rest r ∧
    run = .ok (r.statements, r.closer, S.parser rest (reports ++ r.faults))

/-! ### Blocks -/

/-- Lists of fewer than `n` tokens are read as the fold over items reads them. -/
def ReadsLists (S : Stream) (lines : LineIndex) (list : ListReader) (n : Nat) : Prop :=
  ∀ closers tokens reports, tokens <:+ S.tokens → tokens.length < n →
    ReadsTo S lines closers reports tokens (read closers (items lines S.stop.span tokens))
      (list closers (S.parser tokens reports))

/-- A run that reads one statement, which the fold over items adds to `read` from state `st` on. -/
def ReadsOne (S : Stream) (lines : LineIndex) (closers : List Text) (reports : List Diagnostic)
    (read : List Statement) (tokens : List Token) (st : State)
    (run : Except Breakdown (Statement × Parser)) : Prop :=
  ∃ s rest faults depth, rest <:+ tokens ∧
    run = .ok (s, S.parser rest (reports ++ faults)) ∧
    readUntil closers st (items lines S.stop.span tokens) =
      readUntil closers ⟨[], s :: read, faults, depth⟩ (items lines S.stop.span rest)

theorem ReadsOne.after {closers : List Text} {reports : List Diagnostic} {read : List Statement}
    {tokens rest : List Token} {st st' : State} {run : Except Breakdown (Statement × Parser)}
    (h : ReadsOne S lines closers reports read rest st' run) (hsuffix : rest <:+ tokens)
    (hreading : readUntil closers st (items lines S.stop.span tokens) =
      readUntil closers st' (items lines S.stop.span rest)) :
    ReadsOne S lines closers reports read tokens st run := by
  obtain ⟨s, rest', faults, depth, hrest, hrun, hread⟩ := h
  exact ⟨s, rest', faults, depth, hrest.trans hsuffix, hrun, hreading.trans hread⟩

/-- The command that ends a block adds it to what was read around it. -/
theorem command_close {b : Frame} {e : Command} (h : e.name = b.block.endKeyword)
    (read : List Statement) (faults : List Diagnostic) (depth : Nat) :
    ((⟨[], read, faults, depth⟩ : State).enter b).command e =
      ⟨[], b.statement :: read, faults, max depth 1⟩ := by
  have hk : Keyword.ofName? e.name = some (.closing b.block) := by
    rw [h]
    exact Keyword.ofName?_spelling (.closing b.block)
  simp only [State.command, State.enter, hk, if_true]
  rfl

/-- A command that divides a conditional goes on to its next arm. -/
theorem command_divide {e : Command} {divider : Divider} (h : e.name = divider.keyword)
    (c : Command) (arm : Arm) (body read : List Statement) (faults : List Diagnostic)
    (depth : Nat) :
    let chain := arm.close c body
    let passed := if chain.otherwise.isSome then [.ofCode .misplacedBranch e.span] else []
    ((⟨[], read, faults, depth⟩ : State).enter ⟨c, .conditional arm, body.reverse⟩).command e =
      (⟨[], read, faults ++ passed, max depth 1⟩ : State).enter
        ⟨c, .conditional (.later chain divider e), []⟩ := by
  have hk : Keyword.ofName? e.name = some (.dividing divider) := by
    rw [h]
    exact Keyword.ofName?_spelling (.dividing divider)
  simp only [State.command, State.enter, hk, State.divide, List.reverse_reverse]
  split <;> simp [State.report]

theorem unterminated_eq {b : Frame} (h : b.command.name = b.block.keyword) (tokens : List Token)
    (reports : List Diagnostic) :
    (S.parser tokens reports).unterminated b.command =
      S.parser tokens (reports ++ [b.unterminated]) := by
  rw [Parser.unterminated, S.error_eq, h]
  rfl

theorem divider_of_mem {name : Text} (h : name ∈ ["elseif".toList, "else".toList, "endif".toList])
    (hend : name ≠ "endif".toList) : ∃ divider : Divider, name = divider.keyword ∧
      (if name = "elseif".toList then Divider.elseifArm else .elseArm) = divider := by
  simp only [List.mem_cons, List.not_mem_nil, or_false] at h
  rcases h with rfl | rfl | rfl
  · exact ⟨.elseifArm, rfl, rfl⟩
  · exact ⟨.elseArm, rfl, rfl⟩
  · exact absurd rfl hend

theorem misplaced_eq (chain : Chain) (e : Command) (tokens : List Token)
    (reports faults : List Diagnostic) :
    (if chain.otherwise.isSome then
        (S.parser tokens (reports ++ faults)).error .misplacedBranch (some e.span) none
      else S.parser tokens (reports ++ faults)) =
      S.parser tokens (reports ++ (faults ++
        if chain.otherwise.isSome then [.ofCode .misplacedBranch e.span] else [])) := by
  split
  · rw [S.error_eq, List.append_assoc]
    rfl
  · rw [List.append_nil]

variable {list : ListReader} {n : Nat} (hlist : ReadsLists S lines list n)
include hlist

/-- The statement list of a block that was just opened: the source ends in it, or a command ends
it. -/
theorem list_of_block {b : Frame} (hbody : b.body = []) (closers : List Text)
    (reports : List Diagnostic) {tokens : List Token} (h : tokens <:+ S.tokens)
    (hn : tokens.length < n) (read : List Statement) (faults : List Diagnostic) (depth : Nat) :
    ∃ body rest faults' depth', rest <:+ tokens ∧
      let run := list b.closers (S.parser tokens (reports ++ faults))
      let b' : Frame := { b with body := body.reverse }
      let reading := readUntil closers ((⟨[], read, faults, depth⟩ : State).enter b)
        (items lines S.stop.span tokens)
      (run = .ok (body, none, S.parser rest (reports ++ faults')) ∧
          reading = readUntil closers
            ⟨[], b'.statement :: read, faults' ++ [b.unterminated], depth'⟩
            (items lines S.stop.span rest)) ∨
        ∃ e : Command, e.name ∈ b.closers ∧ rest.length < tokens.length ∧
          run = .ok (body, some e, S.parser rest (reports ++ faults')) ∧
          reading = readUntil closers ((⟨[], read, faults', depth'⟩ : State).enter b' |>.command e)
            (items lines S.stop.span rest) := by
  obtain ⟨rest, hreached, hrun⟩ := hlist b.closers tokens (reports ++ faults) h hn
  have henter := readUntil_enter closers b ⟨[], read, faults, depth⟩
    (items lines S.stop.span tokens)
  revert hreached hrun henter
  generalize Parse.read b.closers (items lines S.stop.span tokens) = r
  intro hreached hrun henter
  rw [List.append_assoc] at hrun
  have hdepth : max (max depth (0 + 1 + r.depth)) (0 + 1) = max depth (0 + 1 + r.depth) := by omega
  refine ⟨r.statements, rest, faults ++ r.faults, max depth (0 + 1 + r.depth),
    hreached.suffix, ?_⟩
  simp only [hrun, henter, resume, hbody, List.append_nil]
  cases hcloser : r.closer with
  | none =>
    obtain rfl : rest = [] := hreached.ended hcloser
    refine .inl ⟨rfl, ?_⟩
    simp only [items, readUntil, State.closeFrames, List.map_cons, List.map_nil, List.append_nil,
      List.nil_append]
    rfl
  | some e =>
    obtain ⟨hname, hprecedes⟩ := hreached.closed e hcloser
    refine .inr ⟨e, hname, hprecedes.length_lt, rfl, ?_⟩
    simp only [hreached.rest_eq, State.enter, List.length_nil, hdepth]

/-- A definition or a loop, from the command that opens it on. -/
theorem bodyOf_eq {b : Frame} (hclosers : b.closers = [b.block.endKeyword])
    (hname : b.command.name = b.block.keyword) (hbody : b.body = []) (closers : List Text)
    (reports : List Diagnostic) {tokens : List Token} (h : tokens <:+ S.tokens)
    (hn : tokens.length < n) (read : List Statement) (faults : List Diagnostic) (depth : Nat) :
    ReadsOne S lines closers reports read tokens ((⟨[], read, faults, depth⟩ : State).enter b)
      (do
        let (body, p) ← bodyOf list b.command (S.parser tokens (reports ++ faults))
        .ok ({ b with body := body.reverse }.statement, p)) := by
  obtain ⟨body, rest, faults', depth', hsuffix, hends⟩ :=
    list_of_block hlist hbody closers reports h hn read faults depth
  have hset : ["end".toList ++ b.command.name] = b.closers := by
    rw [hclosers, hname]
    rfl
  rw [bodyOf, hset]
  obtain ⟨hrun, hreading⟩ | ⟨e, he, -, hrun, hreading⟩ := hends
  · rw [hrun]
    refine ⟨_, rest, faults' ++ [b.unterminated], depth', hsuffix, ?_, hreading⟩
    simp only [bind, Except.bind, Option.isNone_none, if_true, unterminated_eq hname,
      List.append_assoc]
  · have hend : e.name = b.block.endKeyword := by simpa [hclosers] using he
    have hclose := command_close (b := { b with body := body.reverse }) hend read faults' depth'
    rw [hclose] at hreading
    rw [hrun]
    refine ⟨_, rest, faults', _, hsuffix, ?_, hreading⟩
    simp only [bind, Except.bind, Option.isNone_some, Bool.false_eq_true, if_false]

/-- A conditional, from one of its arms on. -/
theorem armsOf_eq {c : Command} (hname : c.name = "if".toList) {fuel : Nat} (arm : Arm)
    (closers : List Text) (reports : List Diagnostic) {tokens : List Token}
    (h : tokens <:+ S.tokens) (hn : tokens.length < n) (hfuel : tokens.length < fuel)
    (read : List Statement) (faults : List Diagnostic) (depth : Nat) :
    ReadsOne S lines closers reports read tokens
      ((⟨[], read, faults, depth⟩ : State).enter ⟨c, .conditional arm, []⟩)
      (do
        let (chain, p) ← armsOf list c fuel arm (S.parser tokens (reports ++ faults))
        .ok (.conditional chain.head chain.elseifs chain.otherwise, p)) := by
  induction fuel generalizing arm tokens faults depth with
  | zero => omega
  | succ fuel ih =>
    obtain ⟨body, rest, faults', depth', hsuffix, hends⟩ :=
      list_of_block (b := ⟨c, .conditional arm, []⟩) hlist rfl closers reports h hn read faults
        depth
    simp only [Frame.closers] at hends
    obtain ⟨hrun, hreading⟩ | ⟨e, he, hless, hrun, hreading⟩ := hends
    · have hreport := unterminated_eq (S := S) (b := ⟨c, .conditional arm, []⟩) hname rest
        (reports ++ faults')
      rw [armsOf, hrun]
      refine ⟨_, rest, faults' ++ [Frame.unterminated ⟨c, .conditional arm, []⟩], depth', hsuffix,
        ?_, hreading⟩
      simp only [bind, Except.bind, hreport, Frame.statement, List.reverse_reverse,
        List.append_assoc]
    · rw [armsOf, hrun]
      simp only [bind, Except.bind]
      by_cases hend : e.name = "endif".toList
      · rw [command_close (b := ⟨c, .conditional arm, body.reverse⟩) hend] at hreading
        rw [if_pos hend]
        exact ⟨_, rest, faults', _, hsuffix, by simp [Frame.statement], hreading⟩
      · obtain ⟨divider, hdivider, hkeyword⟩ := divider_of_mem he hend
        rw [command_divide hdivider] at hreading
        rw [if_neg hend, hkeyword, misplaced_eq]
        exact (ih _ (hsuffix.trans h) (hless.trans hn) (by omega) _ _).after hsuffix hreading

/-- A command outside of all blocks, with the block that it may open. -/
theorem constructOf_eq (c : Command) (fuel : Nat) (closers : List Text)
    (reports : List Diagnostic) {tokens : List Token} (h : tokens <:+ S.tokens)
    (hn : tokens.length < n) (hfuel : tokens.length < fuel) (read : List Statement)
    (faults : List Diagnostic) (depth : Nat) :
    ReadsOne S lines closers reports read tokens ((⟨[], read, faults, depth⟩ : State).construct c)
      (constructOf list fuel c (S.parser tokens (reports ++ faults))) := by
  have hplain (faults' : List Diagnostic) :
      ReadsOne S lines closers reports read tokens
        ((⟨[], read, faults ++ faults', depth⟩ : State).add
          (.command c.identifier c.arguments (some c.location)))
        (.ok (.command c.identifier c.arguments (some c.location),
          S.parser tokens (reports ++ (faults ++ faults')))) :=
    ⟨_, tokens, faults ++ faults', depth, List.suffix_refl _, rfl, rfl⟩
  unfold constructOf State.construct
  dsimp only
  cases hk : Keyword.ofName? c.name with
  | none => simpa only [List.append_nil] using hplain []
  | some k =>
    have hname : c.name = k.spelling := spelling_of_ofName? hk
    rcases k with (kind | _ | kind) | divider | block
    · -- a definition
      have hbody (name : Text) (arguments : List Argument) :=
        bodyOf_eq hlist (b := ⟨c, .definition kind name arguments, []⟩) rfl hname rfl closers
          reports h hn read
      simp only [Frame.statement, List.reverse_reverse] at hbody
      dsimp only
      cases takeName c.arguments with
      | some named => exact hbody named.1 named.2 faults depth
      | none =>
        simp only [S.error_eq, List.append_assoc]
        exact hbody [] c.arguments _ depth
    · -- a conditional
      exact armsOf_eq hlist hname .first closers reports h hn hfuel read faults depth
    · -- a loop
      have hbody := bodyOf_eq hlist (b := ⟨c, .loop kind, []⟩) rfl hname rfl closers reports h hn
        read faults depth
      simpa only [Frame.statement, List.reverse_reverse] using hbody
    · -- an arm outside of a conditional
      simp only [S.error_eq, List.append_assoc]
      exact hplain [.ofCode .misplacedBranch c.span]
    · -- an end without a block
      simp only [S.error_eq, List.append_assoc]
      exact hplain [_]

omit hlist

/-! ### Statement lists -/

theorem eat_eq {tokens : List Token} (h : tokens <:+ S.tokens) (reports : List Diagnostic) :
    (S.parser tokens reports).eat .lineBreak = S.parser (dropLineBreak tokens) reports := by
  cases tokens with
  | nil =>
    simp [Parser.eat, Cursor.eat, Cursor.isAt, Cursor.current, Stream.parser, S.stop_kind,
      dropLineBreak]
  | cons t rest =>
    have hbump : (S.parser (t :: rest) reports).bump.2 = S.parser rest reports :=
      congrArg Prod.snd (Stream.bump_cons h reports)
    rw [dropLineBreak, apply_ite (S.parser · reports), ← hbump]
    by_cases hk : t.kind = .lineBreak <;>
      simp [Parser.eat, Cursor.eat, Cursor.isAt, Cursor.current, Parser.bump, Stream.parser, hk]

theorem commandStep_cases (lines : LineIndex) (stop : Span) (t : Token) (rest : List Token) :
    ∃ faults after, commandStep lines stop t rest = ⟨.skipped, faults, after⟩ ∨
      ∃ c, commandStep lines stop t rest = ⟨.command c, faults, after⟩ := by
  unfold commandStep
  split
  · split
    · exact ⟨_, _, .inl rfl⟩
    · split
      · exact ⟨_, _, .inr ⟨_, rfl⟩⟩
      · exact ⟨_, _, .inl rfl⟩
  · exact ⟨_, _, .inl rfl⟩

/-- A turn of the loop over statements at a name, when the turns behind it go well. -/
theorem command_turn {list : ListReader} {fuel : Nat} (hlist : ReadsLists S lines list (fuel - 1))
    {closers : List Text} {reports : List Diagnostic} {t : Token} {rest : List Token}
    (h : t :: rest <:+ S.tokens) (hfuel : rest.length + 1 < fuel)
    {on : List Statement → Parser → Except Breakdown (List Statement × Option Command × Parser)}
    (hon : ∀ after, after <:+ (commandStep lines S.stop.span t rest).rest →
      ∀ read faults depth, ReadsTo S lines closers reports (t :: rest)
        (readUntil closers ⟨[], read, faults, depth⟩ (items lines S.stop.span after))
        (on read (S.parser after (reports ++ faults))))
    (read : List Statement) (faults : List Diagnostic) (depth : Nat) :
    let step := commandStep lines S.stop.span t rest
    ReadsTo S lines closers reports (t :: rest)
      (readUntil closers ⟨[], read, faults, depth⟩
        (⟨step.content, step.faults, t :: rest, step.rest⟩ :: items lines S.stop.span step.rest))
      (do
        let (c?, p) ← commandAt lines fuel (S.parser (t :: rest) (reports ++ faults))
        match c? with
        | none => on read p
        | some c =>
          if closers.contains c.name then .ok (read.reverse, some c, p)
          else
            let (s, p) ← constructOf list fuel c p
            on (s :: read) p) := by
  have hrest : rest <:+ S.tokens := (List.suffix_cons t rest).trans h
  have hsuffix := commandStep_rest_suffix lines S.stop.span t rest
  simp only [commandAt_eq lines h (Nat.lt_of_succ_lt hfuel), List.append_assoc]
  obtain ⟨faults', after, hstep | ⟨c, hstep⟩⟩ := commandStep_cases lines S.stop.span t rest
  · rw [hstep] at hon ⊢
    exact hon after (List.suffix_refl _) read (faults ++ faults') depth
  · simp only [hstep] at hon hsuffix ⊢
    rw [readUntil]
    by_cases hend : closers.contains c.name = true
    · simp only [hend, State.report, List.isEmpty_nil, Bool.and_self, if_true, bind, Except.bind,
        Content.command?]
      refine ⟨after, ⟨hsuffix.trans (List.suffix_cons _ _), rfl, ?_, ?_⟩, rfl⟩
      · intro hnone
        cases hnone
      · intro c' hc
        cases hc
        exact ⟨by simpa using hend, t, rest, faults', List.suffix_refl _, hstep⟩
    · have hlength := hsuffix.length_le
      obtain ⟨s, rest', faults'', depth', hsuffix', hrun, hreading⟩ :=
        constructOf_eq hlist c fuel closers reports (hsuffix.trans hrest) (by omega)
          (by omega) read (faults ++ faults') depth
      have hn := hon rest' hsuffix' (s :: read) faults'' depth'
      rw [← hreading] at hn
      simpa only [hend, Bool.and_false, Bool.false_eq_true, if_false, bind, Except.bind,
        Content.command?, State.command, State.report, hrun] using hn

/-- A statement list is read to its end, and to what the fold over items reads. -/
theorem statementList_eq {fuel : Nat} {tokens : List Token} (h : tokens <:+ S.tokens)
    (hfuel : tokens.length + 1 < fuel) (closers : List Text) (mark : Cursor.Mark)
    (hmark : ∀ p, mark.position = some p → p < S.tokens.length - tokens.length)
    (read : List Statement) (reports faults : List Diagnostic) (depth : Nat) :
    ReadsTo S lines closers reports tokens
      (readUntil closers ⟨[], read, faults, depth⟩ (items lines S.stop.span tokens))
      (statementList lines fuel closers mark read (S.parser tokens (reports ++ faults))) := by
  induction fuel generalizing tokens closers mark read reports faults depth with
  | zero => omega
  | succ fuel ih =>
    have hpassed : mark.passed (S.parser tokens (reports ++ faults)).cursor =
        (true, ⟨some (S.tokens.length - tokens.length)⟩) := by
      obtain ⟨_ | p⟩ := mark
      · rfl
      · have hp : p < S.tokens.length - tokens.length := hmark p rfl
        simp [Cursor.Mark.passed, Stream.parser, hp]
    have hlists : ReadsLists S lines
        (fun closers p => statementList lines fuel closers ⟨none⟩ [] p) (fuel - 1) := by
      intro closers tokens reports h hn
      simpa only [List.append_nil, Parse.read, State.start] using
        ih h (by omega) closers ⟨none⟩ (fun p hp => by cases hp) [] reports [] 0
    rw [statementList, hpassed]
    simp only [Bool.not_true, Bool.false_eq_true, if_false]
    cases tokens with
    | nil =>
      rw [S.current_nil, S.stop_kind]
      simp only [items, readUntil, State.closeFrames, List.map_nil, List.append_nil,
        List.nil_append]
      exact ⟨[], ⟨List.suffix_refl _, by rw [items], fun _ => rfl, fun c hc => by cases hc⟩, rfl⟩
    | cons t rest =>
      have hsuffix := step_rest_suffix lines S.stop.span t rest
      have hless := step_rest_length_lt lines S.stop.span t rest
      have hrest : rest <:+ S.tokens := (List.suffix_cons t rest).trans h
      -- the turns behind the item that starts with `t`
      have hnext (after : List Token) (hafter : after <:+ (step lines S.stop.span t rest).rest)
          (read : List Statement) (faults : List Diagnostic) (depth : Nat) :
          ReadsTo S lines closers reports (t :: rest)
            (readUntil closers ⟨[], read, faults, depth⟩ (items lines S.stop.span after))
            (statementList lines fuel closers ⟨some (S.tokens.length - (t :: rest).length)⟩ read
              (S.parser after (reports ++ faults))) := by
        have hlength := hafter.length_le
        have hbound := h.length_le
        obtain ⟨rest', hreached, hrun⟩ := ih ((hafter.trans hsuffix).trans h) (by omega) closers
          ⟨some (S.tokens.length - (t :: rest).length)⟩ (by intro p hp; cases hp; omega) read
          reports faults depth
        exact ⟨rest', hreached.of_suffix (hafter.trans hsuffix), hrun⟩
      rw [S.current_cons, items, Stream.bump_cons h]
      cases hk : t.kind with
      | lineBreak =>
        simp only [step, hk, checkedPlace_eq] at hnext ⊢
        rw [readUntil, State.report, List.append_nil]
        exact hnext rest (List.suffix_refl _) (_ :: read) faults depth
      | lineComment =>
        simp only [step, hk, checkedPlace_eq, eat_eq hrest] at hnext ⊢
        rw [readUntil, State.report, List.append_nil]
        exact hnext _ (List.suffix_refl _) (_ :: read) faults depth
      | bracketComment =>
        simp only [step, hk, checkedPlace_eq] at hnext ⊢
        rw [readUntil, State.report, List.append_nil]
        exact hnext rest (List.suffix_refl _) (_ :: read) faults depth
      | unquoted =>
        simp only [step, hk] at hnext ⊢
        exact command_turn hlists h (by simpa using hfuel) hnext read faults depth
      | endOfFile => exact absurd hk (Stream.kind_of_suffix h).2
      | _ =>
        have hreport : (S.parser (t :: rest) (reports ++ faults)).error .expectedCommand none
            (some (Diagnostic.Code.summary .expectedCommand ++ ", got `" ++ String.ofList t.text ++
              "`")) = S.parser (t :: rest) (reports ++ faults ++ [unexpected t]) := rfl
        simp only [step, hk, hreport, restOfLine_eq lines h (Nat.lt_of_succ_lt_succ hfuel),
          List.append_assoc] at hnext ⊢
        exact hnext _ (List.suffix_refl _) read _ depth

/-! ### One list after the other -/

/-- What one call gives, as seen from the parser before it: the cursor has not gone back, and it is
at the end of the file or right behind a command that ends the list. -/
structure Outcome.Follows (S : Stream) (lines : LineIndex) (closers : List Text) (p : Parser)
    (o : Outcome) : Prop where
  position_le : p.cursor.position ≤ o.parser.cursor.position
  ended : o.closer = none → o.parser.current.kind = .endOfFile
  closed : ∀ c, o.closer = some c → c.name ∈ closers ∧
    p.cursor.position < o.parser.cursor.position ∧
    c.Precedes S lines p.cursor.ahead o.parser.cursor.ahead

/-- Each call follows the one before it. -/
inductive Proceeds (S : Stream) (lines : LineIndex) :
    Parser → List (List Text) → List Outcome → Prop
  | done (p : Parser) : Proceeds S lines p [] []
  | next {p : Parser} {closers : List Text} {sets : List (List Text)} {o : Outcome}
      {outcomes : List Outcome} (follows : o.Follows S lines closers p)
      (more : Proceeds S lines o.parser sets outcomes) :
      Proceeds S lines p (closers :: sets) (o :: outcomes)

/-- The outcomes that some rounds tell, when `reports` were made before them. -/
def Stream.outcomes (S : Stream) (reports : List Diagnostic) : List Round → List Outcome
  | [] => []
  | r :: more =>
    let reports := reports ++ r.reading.faults
    ⟨r.reading.statements, r.reading.closer,
      ⟨⟨S.tokens.drop r.position, S.stop, r.position⟩, reports⟩⟩ :: S.outcomes reports more

theorem tokensFrom_items (stop : Span) (tokens : List Token) :
    tokensFrom (items lines stop tokens) = tokens := by
  cases tokens <;> rw [items] <;> rfl

theorem Stream.parser_eq {rest : List Token} (h : rest <:+ S.tokens) (reports : List Diagnostic) :
    S.parser rest reports = ⟨⟨S.tokens.drop (S.tokens.length - rest.length), S.stop,
      S.tokens.length - rest.length⟩, reports⟩ := by
  rw [← List.suffix_iff_eq_drop.mp h]
  rfl

theorem Reached.follows {closers : List Text} {tokens rest : List Token} {r : Reading}
    (h : Reached S lines closers tokens rest r) (htokens : tokens <:+ S.tokens)
    (reports reports' : List Diagnostic) :
    Outcome.Follows S lines closers (S.parser tokens reports)
      ⟨r.statements, r.closer, S.parser rest reports'⟩ where
  position_le := Nat.sub_le_sub_left h.suffix.length_le _
  ended := by
    intro hnone
    rw [h.ended hnone]
    exact S.stop_kind
  closed := by
    intro c hc
    obtain ⟨hname, hprecedes⟩ := h.closed c hc
    have hless := hprecedes.length_lt
    have hbound := htokens.length_le
    exact ⟨hname, by simp only [Stream.parser]; omega, hprecedes⟩

theorem statementLists_eq (lines : LineIndex) {fuel : Nat} {tokens : List Token}
    (h : tokens <:+ S.tokens) (hfuel : tokens.length + 1 < fuel) (sets : List (List Text))
    (reports : List Diagnostic) (reported : Nat) :
    let rs := rounds (S.tokens.length - tokens.length) reported sets
      (items lines S.stop.span tokens)
    statementLists lines fuel sets (S.parser tokens reports) = .ok (S.outcomes reports rs) ∧
      Proceeds S lines (S.parser tokens reports) sets (S.outcomes reports rs) := by
  induction sets generalizing tokens reports reported with
  | nil => exact ⟨rfl, .done _⟩
  | cons closers sets ih =>
    have hread : ReadsTo S lines closers reports tokens
        (read closers (items lines S.stop.span tokens))
        (statementList lines fuel closers ⟨none⟩ [] (S.parser tokens reports)) := by
      simpa only [List.append_nil, read, State.start] using
        statementList_eq h hfuel closers ⟨none⟩ (fun p hp => by cases hp) [] reports [] 0
    unfold rounds
    generalize read closers (items lines S.stop.span tokens) = r at hread ⊢
    obtain ⟨rest, hreached, hrun⟩ := hread
    have hsuffix := hreached.suffix.trans h
    have hlength := hreached.suffix.length_le
    have hbound := h.length_le
    have hposition : S.tokens.length - tokens.length + (tokens.length - rest.length) =
        S.tokens.length - rest.length := by omega
    simp only [hreached.rest_eq, tokensFrom_items, List.length_take,
      Nat.min_eq_left (Nat.sub_le _ _), hposition, Stream.outcomes, ← Stream.parser_eq hsuffix]
    obtain ⟨hmore, hproceeds⟩ := ih hsuffix (by omega) (reports ++ r.faults)
      (reported + r.faults.length)
    refine ⟨?_, .next (hreached.follows h _ _) hproceeds⟩
    rw [statementLists, hrun]
    simp only [bind, Except.bind, hmore]

end Lists

/-! ### Sources -/

theorem length_significant_le (source : Text) : (significant source).length ≤ source.length := by
  obtain ⟨body, hbody, hlength, -⟩ := (Reader.within_start source).exists_tokens_eq
  rw [significant, scan, hbody, List.filter_append]
  have hstop : [Reader.stopToken source.length].filter isSignificant = [] := rfl
  rw [hstop, List.append_nil]
  exact (List.length_filter_le _ _).trans hlength

/-- With fuel for every character and two more, any sequence of statement lists is read from any
text, each one from where the list before it ended, and to what the fold over items gives. -/
theorem descent_completes (source : Text) (sets : List (List Text)) {fuel : Nat}
    (hfuel : source.length + 1 < fuel) :
    ∃ outcomes, statementLists (.ofText source) fuel sets (.start source) = .ok outcomes ∧
      Proceeds (.ofText source) (.ofText source) (.start source) sets outcomes ∧
      outcomes = (Stream.ofText source).outcomes [] (rounds 0 0 sets (itemsOf source)) := by
  have hlength : (significant source).length + 1 < fuel :=
    (Nat.succ_le_succ (length_significant_le source)).trans_lt hfuel
  have h := statementLists_eq (S := .ofText source) (.ofText source)
    (List.suffix_refl (significant source)) hlength sets [] 0
  have hstart : (Stream.ofText source).tokens.length - (significant source).length = 0 :=
    Nat.sub_self _
  simp only [Stream.parser_ofText, hstart] at h
  exact ⟨_, h.1, h.2, rfl⟩

/-- Two lines without a command, two ends of blocks that have no block, one of them inside of a
conditional, and an argument list that the text ends in. -/
def brokenBlocks : Text :=
  "\"d\" (e\n) x\nENDIF() if(c) endwhile()\n) f\nendif() EndWhile() y(\nz".toList

theorem descent_completes_brokenBlocks : ∃ outcomes,
    let sets := [["endif".toList], ["endwhile".toList], []]
    statementLists (.ofText brokenBlocks) 100 sets (.start brokenBlocks) = .ok outcomes ∧
      Proceeds (.ofText brokenBlocks) (.ofText brokenBlocks) (.start brokenBlocks) sets outcomes ∧
      outcomes.map (·.closer.map (·.identifier)) =
        [some "ENDIF".toList, some "EndWhile".toList, none] ∧
      outcomes.map (·.parser.cursor.position) = [10, 27, 31] := by
  obtain ⟨outcomes, hrun, hproceeds, rfl⟩ := descent_completes brokenBlocks
    [["endif".toList], ["endwhile".toList], []] (show brokenBlocks.length + 1 < 100 by decide)
  exact ⟨_, hrun, hproceeds, by decide +kernel, by decide +kernel⟩

end Parse

end Listfile
