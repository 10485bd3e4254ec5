import Mathlib.Logic.Function.Iterate
import Listfile.Proofs.Checked
import Listfile.Proofs.Separation

/-! Indentation. The printer opens a level with every command that opens or divides
a block and closes one with every command that divides or closes it. At each row of
a tree the open levels are those that were open to begin with and one for every
block around the row (`tracks_rowsAll`), so that a level is closed only where one is
open. A tree is written exactly if no row asks for a run that is too long
(`yields_emitRows?`), and then a command or a comment on a line of its own stands
behind as many spaces as the levels and the blocks around it ask for
(`emitAll_indents`). -/

namespace Listfile

/-! ### Rows and the blocks around them -/

mutual

/-- The rows of a statement inside `d` blocks, each with the number of blocks around it. The
commands of a block are not inside it. -/
def Statement.rowsWithin (d : Nat) : Statement → List (Nat × Row)
  | .lineBreak _ => [(d, .lineBreak)]
  | .lineComment text trailing _ => [(d, .lineComment text trailing)]
  | .bracketComment text fence trailing _ => [(d, .bracketComment text fence trailing)]
  | .bracket text fence _ => [(d, .bracket text fence)]
  | .command name arguments _ => [(d, .call none name arguments)]
  | .definition kind name arguments body _ =>
    (d, .keyword (.opening (.definition kind)) (.unquoted name :: arguments)) ::
      (Statement.rowsAllWithin (d + 1) body ++
        [(d, .keyword (.closing (.definition kind)) [.unquoted name])])
  | .conditional head elseifs none =>
    head.rowsWithin d (.opening .conditional) ++ Branch.rowsAllWithin d elseifs ++
      [(d, .keyword (.closing .conditional) [])]
  | .conditional head elseifs (some arm) =>
    head.rowsWithin d (.opening .conditional) ++ Branch.rowsAllWithin d elseifs ++
      arm.rowsWithin d (.dividing .elseArm) ++ [(d, .keyword (.closing .conditional) [])]
  | .loop kind arguments body _ =>
    (d, .keyword (.opening (.loop kind)) arguments) ::
      (Statement.rowsAllWithin (d + 1) body ++ [(d, .keyword (.closing (.loop kind)) [])])
  | .unknown => [(d, .unknown)]

def Statement.rowsAllWithin (d : Nat) : List Statement → List (Nat × Row)
  | [] => []
  | s :: rest => s.rowsWithin d ++ Statement.rowsAllWithin d rest

def Branch.rowsWithin (d : Nat) (k : Keyword) : Branch → List (Nat × Row)
  | .mk predicate body _ => (d, .keyword k predicate) :: Statement.rowsAllWithin (d + 1) body

def Branch.rowsAllWithin (d : Nat) : List Branch → List (Nat × Row)
  | [] => []
  | b :: rest => b.rowsWithin d (.dividing .elseifArm) ++ Branch.rowsAllWithin d rest

end

mutual

theorem Statement.map_rowsWithin : ∀ (d : Nat) (s : Statement),
    (s.rowsWithin d).map Prod.snd = s.rows
  | _, .lineBreak _ | _, .lineComment _ _ _ | _, .bracketComment _ _ _ _ | _, .bracket _ _ _
  | _, .command _ _ _ | _, .unknown => rfl
  | d, .definition _ _ _ body _ => by
    simp [Statement.rowsWithin, Statement.rows, Statement.map_rowsAllWithin (d + 1) body]
  | d, .conditional head elseifs none => by
    simp [Statement.rowsWithin, Statement.rows, Branch.map_rowsWithin d _ head,
      Branch.map_rowsAllWithin d elseifs]
  | d, .conditional head elseifs (some arm) => by
    simp [Statement.rowsWithin, Statement.rows, Branch.map_rowsWithin d _ head,
      Branch.map_rowsAllWithin d elseifs, Branch.map_rowsWithin d _ arm]
  | d, .loop _ _ body _ => by
    simp [Statement.rowsWithin, Statement.rows, Statement.map_rowsAllWithin (d + 1) body]

theorem Statement.map_rowsAllWithin : ∀ (d : Nat) (list : List Statement),
    (Statement.rowsAllWithin d list).map Prod.snd = Statement.rowsAll list
  | _, [] => rfl
  | d, s :: rest => by
    rw [Statement.rowsAllWithin, List.map_append, Statement.map_rowsWithin d s,
      Statement.map_rowsAllWithin d rest, Statement.rowsAll]

theorem Branch.map_rowsWithin : ∀ (d : Nat) (k : Keyword) (b : Branch),
    (b.rowsWithin d k).map Prod.snd = b.rows k
  | d, k, .mk predicate body _ => by
    rw [Branch.rowsWithin, List.map_cons, Statement.map_rowsAllWithin (d + 1) body, Branch.rows]

theorem Branch.map_rowsAllWithin : ∀ (d : Nat) (list : List Branch),
    (Branch.rowsAllWithin d list).map Prod.snd = Branch.rowsAll list
  | _, [] => rfl
  | d, b :: rest => by
    rw [Branch.rowsAllWithin, List.map_append, Branch.map_rowsWithin d _ b,
      Branch.map_rowsAllWithin d rest, Branch.rowsAll]

end

/-- A command, or a comment on a line of its own. -/
def Row.startsLine : Row → Bool
  | .lineBreak => false
  | .lineComment _ trailing => !trailing
  | .bracketComment _ _ trailing => !trailing
  | .bracket _ _ => true
  | .call _ _ _ => true
  | .unknown => false

end Listfile

namespace Listfile.Layout

/-! ### Open levels -/

/-- The levels that are open once another is opened. -/
def opened (s : Style) (levels : List Nat) : List Nat :=
  (levels.headD 0 + s.indentWidth) :: levels

@[simp] theorem tail_opened (s : Style) (levels : List Nat) : (opened s levels).tail = levels := rfl

namespace Page

@[simp] theorem levels_write (t : Text) (p : Page) : (p.write t).levels = p.levels := by
  unfold write
  split <;> rfl

@[simp] theorem levels_newline (s : Style) (p : Page) : (p.newline s).levels = p.levels := by
  unfold newline
  split <;> rfl

@[simp] theorem levels_ensureLineStart (s : Style) (p : Page) :
    (p.ensureLineStart s).levels = p.levels := by
  unfold ensureLineStart
  split
  · rfl
  · exact levels_newline s p

end Page

namespace Printer

@[simp] theorem levels_separate (s : Style) (enabled : Bool) (p : Printer) :
    (p.separate s enabled).page.levels = p.page.levels := by
  have hbreak (q : Printer) : (q.breakBelowTwo s).page.levels = q.page.levels := by
    unfold breakBelowTwo
    split
    · exact Page.levels_newline s q.page
    · rfl
  unfold separate
  split
  · rfl
  · rw [hbreak, hbreak]

@[simp] theorem levels_startStatement (s : Style) (p : Printer) :
    (p.startStatement s).page.levels = p.page.levels := by
  rw [startStatement_eq]
  exact (Page.levels_ensureLineStart s _).trans (levels_separate s p.blankDue p)

@[simp] theorem levels_invoke (s : Style) (name : Text) (list : List Argument) (p : Printer) :
    (p.invoke s name list).page.levels = p.page.levels := by
  simp [invoke, write, ensureLineStart]

@[simp] theorem levels_invokeOpening (s : Style) (name : Text) (list : List Argument)
    (p : Printer) : (p.invokeOpening s name list).page.levels = opened s p.page.levels := by
  simp [invokeOpening, Page.indent, Page.indentation, opened]

@[simp] theorem levels_openBlock (s : Style) (enabled : Bool) (p : Printer) :
    (p.openBlock s enabled).page.levels = p.page.levels := by
  unfold openBlock
  split <;> simp

@[simp] theorem levels_dedent (p : Printer) : p.dedent.page.levels = p.page.levels.tail := rfl

@[simp] theorem levels_closeBlock (s : Style) (name : Text) (list : List Argument)
    (enabled : Bool) (p : Printer) :
    (p.closeBlock s name list enabled).page.levels = p.page.levels.tail :=
  levels_invoke s name list p.dedent

@[simp] theorem levels_comment (s : Style) (text : Text) (trailing : Bool) (p : Printer) :
    (p.comment s text trailing).page.levels = p.page.levels := by
  unfold comment
  split <;> simp [write]

end Printer

mutual

/-- A statement leaves the levels as they are. -/
theorem levels_emit (s : Style) (p : Printer) :
    ∀ statement : Statement, (emit s p statement).page.levels = p.page.levels
  | .lineBreak _ | .lineComment _ _ _ | .bracketComment _ _ _ _ | .bracket _ _ _
  | .command _ _ _ | .unknown => by
    simp [emit, Printer.newline, Printer.write]
  | .definition _ _ _ body _ => by simp [emit, levels_emitAll s _ _ body]
  | .conditional head elseifs none => by
    simp [emit, levels_emitArms s _ (levels_emitArm s _ _ head) elseifs]
  | .conditional head elseifs (some arm) => by
    simp [emit, levels_emitArm s _ _ arm,
      levels_emitArms s _ (levels_emitArm s _ _ head) elseifs]
  | .loop _ _ body _ => by simp [emit, levels_emitAll s _ _ body]

theorem levels_emitAll (s : Style) (own : Bool) (p : Printer) :
    ∀ list : List Statement, (emitAll s own p list).page.levels = p.page.levels
  | [] => rfl
  | statement :: rest => by
    rw [emitAll, levels_emitAll s _ _ rest, levels_emit s _ statement]
    split <;> simp

/-- An arm is left with its level open. -/
theorem levels_emitArm (s : Style) (name : Text) (p : Printer) :
    ∀ arm : Branch, (emitArm s name p arm).page.levels = opened s p.page.levels
  | .mk _ body _ => by simp [emitArm, levels_emitAll s _ _ body]

theorem levels_emitArms (s : Style) (p : Printer) {levels : List Nat}
    (h : p.page.levels = opened s levels) :
    ∀ list : List Branch, (emitArms s p list).page.levels = opened s levels
  | [] => h
  | arm :: rest => levels_emitArms s _ (by simp [levels_emitArm s _ _ arm, h]) rest

end

/-- Room that was made above comments is used up at the end of the rows. -/
theorem separated_emitRows {s : Style} {rows : List Row} {own : Bool} {p : Printer}
    (h : p.separated = (own && leads s rows)) : (emitRows s own p rows).separated = false := by
  induction rows generalizing own p with
  | nil => simpa [emitRows, leads] using h
  | cons r rest ih => exact ih (separated_emitRow h)

/-! ### Levels at the rows of a tree -/

/-- The levels inside `n` blocks. -/
def nest (s : Style) : Nat → List Nat
  | 0 => []
  | n + 1 => opened s (nest s n)

theorem headD_nest (s : Style) (n : Nat) : (nest s n).headD 0 = n * s.indentWidth := by
  induction n with
  | zero => simp [nest]
  | succ n ih => rw [nest, opened, List.headD_cons, ih, Nat.succ_mul]

/-- At each row there are `k` levels and one for every block around the row, and one more that the
row closes if it leaves a block. -/
def Tracks (s : Style) (k : Nat) : List Nat → List (Nat × Row) → Prop
  | _, [] => True
  | levels, (d, r) :: rest =>
    levels = nest s (k + d + if r.leaves then 1 else 0) ∧
      Tracks s k (levelsBehind s levels r) rest

theorem headD_levelsAt {s : Style} {n : Nat} {levels : List Nat} {r : Row}
    (h : levels = nest s (n + if r.leaves then 1 else 0)) :
    (levelsAt levels r).headD 0 = n * s.indentWidth := by
  rw [← headD_nest, h]
  cases r with
  | call role name list => obtain _ | block | divider | block := role <;> rfl
  | _ => rfl

mutual

theorem tracks_rows (s : Style) (k : Nat) : ∀ (d : Nat) (statement : Statement)
    {more : List (Nat × Row)}, Tracks s k (nest s (k + d)) more →
      Tracks s k (nest s (k + d)) (statement.rowsWithin d ++ more)
  | _, .lineBreak _, _, h | _, .lineComment _ _ _, _, h | _, .bracketComment _ _ _ _, _, h
  | _, .bracket _ _ _, _, h | _, .command _ _ _, _, h | _, .unknown, _, h => ⟨rfl, h⟩
  | d, .definition _ _ _ body _, _, h => by
    rw [Statement.rowsWithin, List.cons_append, List.append_assoc]
    exact ⟨rfl, tracks_rowsAll s k (d + 1) body ⟨rfl, h⟩⟩
  | d, .conditional head elseifs none, _, h => by
    rw [Statement.rowsWithin, List.append_assoc, List.append_assoc]
    exact tracks_branch s k d head rfl rfl (tracks_branches s k d elseifs ⟨rfl, h⟩)
  | d, .conditional head elseifs (some arm), _, h => by
    rw [Statement.rowsWithin, List.append_assoc, List.append_assoc, List.append_assoc]
    exact tracks_branch s k d head rfl rfl (tracks_branches s k d elseifs
      (tracks_branch s k d arm rfl rfl ⟨rfl, h⟩))
  | d, .loop _ _ body _, _, h => by
    rw [Statement.rowsWithin, List.cons_append, List.append_assoc]
    exact ⟨rfl, tracks_rowsAll s k (d + 1) body ⟨rfl, h⟩⟩

theorem tracks_rowsAll (s : Style) (k : Nat) : ∀ (d : Nat) (list : List Statement)
    {more : List (Nat × Row)}, Tracks s k (nest s (k + d)) more →
      Tracks s k (nest s (k + d)) (Statement.rowsAllWithin d list ++ more)
  | _, [], _, h => h
  | d, statement :: rest, _, h => by
    rw [Statement.rowsAllWithin, List.append_assoc]
    exact tracks_rows s k d statement (tracks_rowsAll s k d rest h)

theorem tracks_branch (s : Style) (k : Nat) : ∀ (d : Nat) (b : Branch) {key : Keyword}
    {levels : List Nat} {more : List (Nat × Row)},
      levels = nest s (k + d + if (Row.keyword key []).leaves then 1 else 0) →
      levelsBehind s levels (.keyword key []) = nest s (k + (d + 1)) →
      Tracks s k (nest s (k + (d + 1))) more → Tracks s k levels (b.rowsWithin d key ++ more)
  | d, .mk predicate body _, key, levels, more, hat, hbehind, h => by
    have hkey : levelsBehind s levels (.keyword key predicate) = nest s (k + (d + 1)) := by
      cases key <;> exact hbehind
    rw [Branch.rowsWithin, List.cons_append, Tracks, hkey]
    refine ⟨?_, tracks_rowsAll s k (d + 1) body h⟩
    cases key <;> exact hat

theorem tracks_branches (s : Style) (k : Nat) : ∀ (d : Nat) (list : List Branch)
    {more : List (Nat × Row)}, Tracks s k (nest s (k + (d + 1))) more →
      Tracks s k (nest s (k + (d + 1))) (Branch.rowsAllWithin d list ++ more)
  | _, [], _, h => h
  | d, b :: rest, _, h => by
    rw [Branch.rowsAllWithin, List.append_assoc]
    exact tracks_branch s k d b rfl rfl (tracks_branches s k d rest h)

end

/-! ### Rows that start a line -/

/-- A line starts behind a text. -/
def LineStart (t : Text) : Prop := t = [] ∨ t.getLast? = some '\n'

theorem lineStart_append_replicate (t : Text) (n : Nat) :
    LineStart (t ++ List.replicate n '\n') ↔ 0 < n ∨ LineStart t := by
  cases n with
  | zero => simp
  | succ n => simp [LineStart, List.replicate_succ']

theorem lineStart_append_singleton (t : Text) (c : Char) : LineStart (t ++ [c]) ↔ c = '\n' := by
  simp [LineStart]

theorem want_of_startsLine (s : Style) (rest : List Row) {σ : Pace} {r : Row}
    (hr : r.startsLine = true) (hσ : σ.fresh = false) : 0 < σ.want s rest r := by
  have hwant := fun heads => Pace.wantStatement_pos s heads σ hσ
  cases r with
  | lineBreak | unknown => contradiction
  | lineComment text trailing | bracketComment text fence trailing =>
    cases trailing with
    | true => contradiction
    | false => exact hwant _
  | bracket text fence => exact hwant _
  | call role name list =>
    obtain _ | block | divider | block := role
    · exact hwant _
    · exact hwant _
    · simp [Pace.want, hσ]
    · simp [Pace.want, hσ]

/-- A row that starts a line stands behind the indentation. -/
theorem place_of_startsLine (s : Style) (levels : List Nat) (rest : List Row) (σ : Pace) {r : Row}
    (hr : r.startsLine = true) :
    (σ.atStart || 0 < (σ.place s levels rest r).breaks) = true ∧
      (σ.place s levels rest r).text = Text.spaces ((levelsAt levels r).headD 0) ++
        rowText s ((levelsAt levels r).headD 0) r := by
  have hdrops : σ.drops s r = false := by
    cases r <;> simp_all [Row.startsLine, Pace.drops, Row.isLineBreak]
  have hstart := Pace.atStart_advance (want_of_startsLine s rest (σ := σ) hr)
  rw [Pace.atStart_advance_eq] at hstart
  rw [Pace.place, hdrops, if_neg Bool.false_ne_true]
  refine ⟨hstart, ?_⟩
  dsimp only
  rw [hstart]
  cases r <;> first | rfl | contradiction

/-- The last character of a row tells whether a line starts behind it. -/
theorem rowText_eq_append (s : Style) (indentation : Nat) {r : Row} (hr : r ≠ .unknown) :
    ∃ t c, rowText s indentation r = t ++ [c] ∧
      ∀ lineStart, lineStartBehind lineStart r = true ↔ c = '\n' := by
  cases r with
  | lineBreak => exact ⟨[], '\n', rfl, by simp [lineStartBehind]⟩
  | lineComment text trailing => exact ⟨_, '\n', rfl, by simp [lineStartBehind]⟩
  | bracketComment text fence trailing =>
    refine ⟨'#' :: (Token.opener fence ++ text ++ (']' :: List.replicate fence '=')), ']', ?_, ?_⟩
    · simp [rowText, bracketCommentText, bracketText, Token.closer]
    · simp [lineStartBehind]
  | bracket text fence =>
    refine ⟨Token.opener fence ++ text ++ (']' :: List.replicate fence '='), ']', ?_, ?_⟩
    · simp [rowText, bracketText, Token.closer]
    · simp [lineStartBehind]
  | call role name list => exact ⟨_, ')', rfl, by simp [lineStartBehind]⟩
  | unknown => contradiction

/-- The printer is at the start of a line exactly where the text is. -/
theorem lineStart_pass (s : Style) (levels : List Nat) (rest : List Row) {σ : Pace} {t : Text}
    (ht : σ.atStart = true ↔ LineStart t) (r : Row) :
    (σ.pass s r).atStart = true ↔ LineStart (t ++ (σ.place s levels rest r).ink) := by
  unfold Pace.pass Pace.place
  split
  · rw [Placed.ink, List.replicate_zero, List.append_nil, List.append_nil]
    exact ht
  · rw [atStart_behind s σ rest r]
    by_cases hr : r = .unknown
    · subst hr
      simpa [Placed.ink, lineStartBehind, Pace.want, rowLead, rowText] using ht
    · obtain ⟨u, c, htext, hlast⟩ := rowText_eq_append s ((levelsAt levels r).headD 0) hr
      dsimp only [Placed.ink]
      rw [hlast, htext, ← List.append_assoc, ← List.append_assoc, ← List.append_assoc,
        lineStart_append_singleton]

/-- Above a row the printer is at the start of a line exactly where the text is. -/
theorem lineStart_place (s : Style) (levels : List Nat) (rest : List Row) {σ : Pace} {t : Text}
    (ht : σ.atStart = true ↔ LineStart t) {r : Row} (hr : σ.drops s r = false) :
    (σ.advance (σ.want s rest r)).atStart = true ↔
      LineStart (t ++ List.replicate (σ.place s levels rest r).breaks '\n') := by
  have hbreaks : (σ.place s levels rest r).breaks = σ.want s rest r - σ.breaks := by
    rw [Pace.place, if_neg (by simp [hr])]
  rw [Pace.atStart_advance_eq, lineStart_append_replicate, hbreaks, Bool.or_eq_true,
    decide_eq_true_eq, ht, or_comm]

/-- On the page of rows that keep to the levels, a row starts a line and is indented. -/
theorem placed_of_tracks {s : Style} {k : Nat} {rows : List (Nat × Row)} {levels : List Nat}
    (h : Tracks s k levels rows) {σ : Pace} {t : Text} (ht : σ.atStart = true ↔ LineStart t)
    {n d : Nat} {r : Row} (hn : rows[n]? = some (d, r)) (hr : r.startsLine = true) :
    LineStart (t ++ above (placed s σ levels (rows.map Prod.snd)) n) ∧
      ∃ q, (placed s σ levels (rows.map Prod.snd))[n]? = some q ∧ q.row = r ∧
        q.text = Text.spaces ((k + d) * s.indentWidth) ++
          rowText s ((k + d) * s.indentWidth) r := by
  induction rows generalizing levels σ t n with
  | nil => contradiction
  | cons head rest ih =>
    obtain ⟨d', r'⟩ := head
    obtain ⟨hat, hbehind⟩ := h
    rw [List.map_cons, placed]
    cases n with
    | zero =>
      obtain ⟨rfl, rfl⟩ : d' = d ∧ r' = r := by simpa using hn
      obtain ⟨hstart, htext⟩ := place_of_startsLine s levels (rest.map Prod.snd) σ hr
      rw [headD_levelsAt hat] at htext
      rw [Bool.or_eq_true, decide_eq_true_eq, ht, or_comm] at hstart
      exact ⟨(lineStart_append_replicate _ _).mpr hstart, _, rfl, row_place .., htext⟩
    | succ n =>
      have hrest := ih hbehind (lineStart_pass s levels (rest.map Prod.snd) ht r') hn
      rw [above, ← List.append_assoc]
      exact hrest

/-! ### Writing on a page with open levels -/

/-- A printer that has written nothing, on a page on which `k` levels are open. -/
def Printer.startAt (s : Style) (k : Nat) : Printer :=
  { Printer.start with page := (Page.indent s)^[k] .empty }

theorem Page.iterate_indent (s : Style) (k : Nat) :
    (Page.indent s)^[k] .empty = { Page.empty with levels := nest s k } := by
  induction k with
  | zero => rfl
  | succ k ih => rw [Function.iterate_succ_apply', ih]; rfl

theorem shows_startAt (s : Style) (k : Nat) : Shows (.startAt s k) [] (nest s k) .start := by
  rw [Printer.startAt, Page.iterate_indent]
  exact ⟨rfl, rfl, rfl, rfl, rfl, rfl, rfl⟩

/-- The page behind a row, dropped or not. -/
theorem shows_pass {s : Style} {p : Printer} {text : Text} {levels : List Nat} {σ : Pace}
    (h : Shows p text levels σ) {r : Row} {rest : List Row}
    (hsep : p.separated = (σ.own && leads s (r :: rest))) :
    Shows (emitRow s (announce s σ.own p (r :: rest)) r)
        (text ++ (σ.place s levels rest r).ink) (levelsBehind s levels r) (σ.pass s r) ∧
      (σ.pass s r).own = isOwn r := by
  unfold Pace.pass Pace.place
  split
  · next hdrop =>
    obtain ⟨hr, hb⟩ : r.isLineBreak = true ∧ s.allowedBlankLines < σ.breaks := by
      simpa [Pace.drops] using hdrop
    obtain rfl : r = .lineBreak := by cases r <;> simp_all [Row.isLineBreak]
    have hsame : Layout.emitRow s (announce s σ.own p (.lineBreak :: rest)) .lineBreak = p := by
      rw [announce_of_not_own (by simp [isOwn])]
      exact h.newline_eq hb
    rw [hsame, Placed.ink, List.replicate_zero, List.append_nil, List.append_nil]
    exact ⟨h.withOwn false, rfl⟩
  · next hkeep =>
    have hstep := showsRow h hsep (by simpa [Pace.drops] using hkeep)
    rw [ShowsRow, Pace.atStart_advance_eq, List.append_assoc] at hstep
    exact ⟨hstep, own_behind s σ r⟩

/-- No run that a row of a tree asks for is too long, on a page on which `k` levels are open. -/
def Fits (s : Style) (k : Nat) (page : List Placed) (rows : List (Nat × Row)) : Prop :=
  ∀ (n d : Nat) (r : Row), rows[n]? = some (d, r) →
    r.Fits s ((k + d) * s.indentWidth) (LineStart (above page n))

/-- Rows that keep to the levels are written exactly if none asks for a run that is too long. -/
theorem yields_emitRows? {s : Style} {k : Nat} {rows : List (Nat × Row)} {p : Printer}
    {text : Text} {levels : List Nat} {σ : Pace} (h : Shows p text levels σ)
    (hsep : p.separated = (σ.own && leads s (rows.map Prod.snd)))
    (htracks : Tracks s k levels rows) (ht : σ.atStart = true ↔ LineStart text) :
    Yields (emitRows? s σ.own p (rows.map Prod.snd))
      (∀ (n d : Nat) (r : Row), rows[n]? = some (d, r) → r.Fits s ((k + d) * s.indentWidth)
        (LineStart (text ++ above (placed s σ levels (rows.map Prod.snd)) n)))
      (emitRows s σ.own p (rows.map Prod.snd)) := by
  induction rows generalizing p text levels σ with
  | nil => exact (Yields.of_ok p).congr (by simp)
  | cons head rest ih =>
    obtain ⟨d, r⟩ := head
    obtain ⟨hat, hbehind⟩ := htracks
    obtain ⟨hshows, hown⟩ := shows_pass h hsep
    have hrest := ih hshows (hown ▸ separated_emitRow hsep) hbehind
      (lineStart_pass s levels (rest.map Prod.snd) ht r)
    have hlevels (hr : r.leaves = true) : levels ≠ [] := by
      rw [hat, hr]
      exact List.cons_ne_nil _ _
    have hrow : r.Fits s ((levelsAt levels r).headD 0)
          ((σ.advance (σ.want s (rest.map Prod.snd) r)).atStart = true) ↔
        r.Fits s ((k + d) * s.indentWidth)
          (LineStart
            (text ++ List.replicate (σ.place s levels (rest.map Prod.snd) r).breaks '\n')) := by
      rw [headD_levelsAt hat]
      cases hdrops : σ.drops s r with
      | true =>
        obtain rfl : r = .lineBreak := by cases r <;> simp_all [Pace.drops, Row.isLineBreak]
        exact Iff.rfl
      | false => rw [propext (lineStart_place s levels (rest.map Prod.snd) ht hdrops)]
    refine ((yields_emitRow? h hsep hlevels).bind fun _ => hown ▸ hrest).congr ?_
    constructor
    · rintro ⟨hr, hmore⟩ n d' r' hn
      cases n with
      | zero =>
        obtain ⟨rfl, rfl⟩ : d = d' ∧ r = r' := by simpa using hn
        exact hrow.mp hr
      | succ n =>
        have := hmore n d' r' hn
        rwa [List.append_assoc] at this
    · intro hall
      refine ⟨hrow.mpr (hall 0 d r rfl), fun n d' r' hn => ?_⟩
      have := hall (n + 1) d' r' hn
      rwa [List.append_assoc]

section Tree
variable (s : Style) (k : Nat) (tree : List Statement)

theorem tracks_tree : Tracks s k (nest s k) (Statement.rowsAllWithin 0 tree) := by
  have hnil : Tracks s k (nest s (k + 0)) [] := trivial
  simpa using tracks_rowsAll s k 0 tree hnil

theorem lineStart_start : Pace.start.atStart = true ↔ LineStart [] := by
  simp [Pace.start, Pace.atStart, LineStart]

/-- A tree is written exactly if no row of it asks for a run that is too long. -/
theorem yields_emitAll? :
    Yields (emitAll? s false (.startAt s k) tree)
      (Fits s k (placed s .start (nest s k) (Statement.rowsAll tree))
        (Statement.rowsAllWithin 0 tree))
      (emitAll s false (.startAt s k) tree) := by
  have hyields := yields_emitRows? (shows_startAt s k) rfl (tracks_tree s k tree) lineStart_start
  simp only [Statement.map_rowsAllWithin, List.nil_append] at hyields
  rwa [← emitAll?_eq_emitRows?, ← emitAll_eq_emitRows] at hyields

/-- Statements on a fresh page. -/
theorem yields_statements? :
    Yields (statements? s tree)
      (Fits s 0 (placed s .start [] (Statement.rowsAll tree)) (Statement.rowsAllWithin 0 tree))
      (statements s tree) :=
  (yields_emitAll? s 0 tree).map _

end Tree

/-- A tree is written, on a page on which any number of levels are open, exactly if no row of it
asks for a run that is too long; a level that is not open is never closed. What is written then
leaves the levels as they were and no room reserved for a block, and each command and each comment
that does not trail starts a line, behind the indentation of the levels and the blocks around it. -/
theorem emitAll_indents (s : Style) (k : Nat) (tree : List Statement) :
    ∃ p page, emitAll s false (.startAt s k) tree = p ∧
      (emitAll? s false (.startAt s k) tree = .ok p ↔
        Fits s k page (Statement.rowsAllWithin 0 tree)) ∧
      (emitAll? s false (.startAt s k) tree = .error .tooWide ↔
        ¬ Fits s k page (Statement.rowsAllWithin 0 tree)) ∧
      p.page.levels = (Printer.startAt s k).page.levels ∧ p.separated = false ∧
      page.map Placed.row = Statement.rowsAll tree ∧ (∀ q ∈ page, q.Written s) ∧
      page.flatMap Placed.ink = p.page.text ∧
      ∀ n d r, (Statement.rowsAllWithin 0 tree)[n]? = some (d, r) → r.startsLine = true →
        LineStart (above page n) ∧ ∃ q, page[n]? = some q ∧ q.row = r ∧
          q.text = Text.spaces ((k + d) * s.indentWidth) ++
            rowText s ((k + d) * s.indentWidth) r := by
  have htext : (emitRows s false (.startAt s k) (Statement.rowsAll tree)).page.text =
      [] ++ verbatim s (nest s k) true (settle s .start (Statement.rowsAll tree)) :=
    text_emitRows (shows_startAt s k) rfl
  have hyields := yields_emitAll? s k tree
  refine ⟨_, placed s .start (nest s k) (Statement.rowsAll tree), rfl, hyields.eq_ok_iff,
    hyields.eq_error_iff, levels_emitAll s _ _ tree, ?_, map_row_placed .., written_placed s _ _ _,
    ?_, fun n d r hn hr => ?_⟩
  · rw [emitAll_eq_emitRows]
    exact separated_emitRows rfl
  · rw [ink_placed, emitAll_eq_emitRows, htext]
    rfl
  · rw [← Statement.map_rowsAllWithin 0 tree]
    exact placed_of_tracks (tracks_tree s k tree) lineStart_start hn hr

/-- A width that is one too large, and a command that stands behind as many spaces. -/
example :
    emitAll? { indentWidth := 9223372036854775808 } false .start
      [.conditional (.mk [.unquoted ['c']] [.command ['d'] [] none] none) [] none] =
        .error .tooWide := by
  decide +kernel

end Listfile.Layout
