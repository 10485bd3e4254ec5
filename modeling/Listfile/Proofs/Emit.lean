import Listfile.Layout.Printer
import Listfile.Proofs.Row

/-! The printer, row by row. What it does at a row depends on the row, on whether
a comment on a line of its own came before, and on whether the rows from here on
lead up to a block with blank lines around it. Since a command that divides or
closes a block is neither a comment nor such a block, looking ahead in the rows
of a text never sees more than looking ahead in one statement list, and the
printer does the same for a tree and for its rows (`emitAll_eq_emitRows`). -/

namespace Listfile.Layout

/-- Whether blank lines go around a block. -/
def spaced (s : Style) : BlockKind → Bool
  | .definition _ => s.spaceDefinitions
  | .conditional => s.spaceControl
  | .loop _ => s.spaceControl

/-- Whether a row is a line comment on a line of its own. -/
def isOwn : Row → Bool
  | .lineComment _ trailing => !trailing
  | _ => false

/-- Whether a row opens a block with blank lines around it. -/
def opensSpaced (s : Style) : Row → Bool
  | .call (some (.opening block)) _ _ => spaced s block
  | _ => false

/-- Whether a block with blank lines around it follows, directly or behind comments on lines of
their own. -/
def leads (s : Style) (rows : List Row) : Bool :=
  ((rows.dropWhile isOwn).head?.map (opensSpaced s)).getD false

/-- Write a row. -/
def emitRow (s : Style) (p : Printer) : Row → Printer
  | .lineBreak => p.newline s
  | .lineComment text trailing => (p.comment s (lineCommentText s text) trailing).newline s
  | .bracketComment text fence trailing => p.comment s (bracketCommentText text fence) trailing
  | .bracket text fence => (p.startStatement s).write (bracketText text fence)
  | .call none name list => (p.startStatement s).invoke s name list
  | .call (some (.opening block)) name list =>
    (p.openBlock s (spaced s block)).invokeOpening s name list
  | .call (some (.dividing _)) name list => p.dedent.invokeOpening s name list
  | .call (some (.closing block)) name list => p.closeBlock s name list (spaced s block)
  | .unknown => p

/-- Make room above comments that lead up to a block. -/
def announce (s : Style) (own : Bool) (p : Printer) : List Row → Printer
  | [] => p
  | r :: rest =>
    if !p.separated && !own && isOwn r && leads s (r :: rest) then
      { p.separate s true with separated := true }
    else p

/-- Write rows; `own` says that a comment on a line of its own came before them. -/
def emitRows (s : Style) (own : Bool) (p : Printer) : List Row → Printer
  | [] => p
  | r :: rest => emitRows s (isOwn r) (emitRow s (announce s own p (r :: rest)) r) rest

/-! ### Looking ahead -/

/-- Rows that start with neither a comment on its own line nor the opening of a block. -/
def Stops (s : Style) (rows : List Row) : Prop :=
  ∀ r ∈ rows.head?, isOwn r = false ∧ opensSpaced s r = false

theorem stops_nil (s : Style) : Stops s [] := by simp [Stops]

theorem stops_dividing (s : Style) (divider : Divider) (list : List Argument) (rows : List Row) :
    Stops s (.keyword (.dividing divider) list :: rows) := by
  simp [Stops, Row.keyword, isOwn, opensSpaced]

theorem stops_closing (s : Style) (block : BlockKind) (list : List Argument) (rows : List Row) :
    Stops s (.keyword (.closing block) list :: rows) := by
  simp [Stops, Row.keyword, isOwn, opensSpaced]

theorem stops_branches {s : Style} {more : List Row} (hmore : Stops s more) (list : List Branch) :
    Stops s (Branch.rowsAll list ++ more) := by
  cases list with
  | nil => exact hmore
  | cons b rest => obtain ⟨predicate, body, location⟩ := b; exact stops_dividing s _ _ _

/-- The first row of a statement tells whether it is a comment and whether it is a block. -/
theorem head?_rows (s : Style) (statement : Statement) :
    ∃ r rest, statement.rows = r :: rest ∧ isOwn r = isOwnComment statement ∧
      opensSpaced s r = isSpacedBlock s statement := by
  cases statement with
  | conditional head elseifs otherwise =>
    obtain ⟨predicate, body, location⟩ := head
    cases otherwise <;> exact ⟨_, _, rfl, rfl, rfl⟩
  | _ => exact ⟨_, _, rfl, rfl, rfl⟩

theorem isOwnComment_rows {statement : Statement} (h : isOwnComment statement = true) :
    ∃ r, statement.rows = [r] ∧ isOwn r = true := by
  cases statement <;> simp_all [isOwnComment, Statement.rows, isOwn]

theorem leads_rowsAll (s : Style) (list : List Statement) {more : List Row}
    (hmore : Stops s more) :
    leads s (Statement.rowsAll list ++ more) =
      ((list.dropWhile isOwnComment).head?.map (isSpacedBlock s)).getD false := by
  induction list with
  | nil =>
    cases more with
    | nil => rfl
    | cons r more =>
      have := hmore r rfl
      simp [leads, Statement.rowsAll, this]
  | cons statement list ih =>
    cases h : isOwnComment statement with
    | true =>
      obtain ⟨r, hr, hown⟩ := isOwnComment_rows h
      simpa [Statement.rowsAll, hr, leads, hown, h] using ih
    | false =>
      obtain ⟨r, rest, hr, hown, hopen⟩ := head?_rows s statement
      simp [Statement.rowsAll, hr, leads, hown, hopen, h]

/-- Looking ahead in a statement list and in its rows. -/
theorem headsBlock_eq (s : Style) (statement : Statement) (list : List Statement)
    {more : List Row} (hmore : Stops s more) :
    headsBlock s (statement :: list) =
      (isOwnComment statement &&
        leads s (statement.rows ++ (Statement.rowsAll list ++ more))) := by
  have := leads_rowsAll s (statement :: list) hmore
  rw [Statement.rowsAll, List.append_assoc] at this
  simp [headsBlock, this]

theorem announce_of_not_own {s : Style} {own : Bool} {p : Printer} {rows : List Row}
    (h : ∀ r ∈ rows.head?, isOwn r = false) : announce s own p rows = p := by
  cases rows with
  | nil => rfl
  | cons r rest => simp [announce, h r rfl]

/-- Where no comment on its own line comes first, it does not matter what came before. -/
theorem emitRows_of_stops {s : Style} {own : Bool} {p : Printer} {rows : List Row}
    (h : Stops s rows) : emitRows s own p rows = emitRows s false p rows := by
  cases rows with
  | nil => rfl
  | cons r rest =>
    have hr : ∀ r' ∈ (r :: rest).head?, isOwn r' = false := fun r' hr' => (h r' hr').1
    simp only [emitRows, announce_of_not_own hr]

/-! ### Trees and rows -/

theorem announce_keyword (s : Style) (own : Bool) (p : Printer) (k : Keyword)
    (list : List Argument) (rows : List Row) :
    announce s own p (.keyword k list :: rows) = p :=
  announce_of_not_own (by simp [Row.keyword, isOwn])

theorem announce_branch (s : Style) (own : Bool) (p : Printer) (k : Keyword) (b : Branch)
    (rows : List Row) : announce s own p (b.rows k ++ rows) = p := by
  obtain ⟨predicate, body, location⟩ := b
  exact announce_keyword s own p k predicate _

theorem emitRows_keyword (s : Style) (own : Bool) (p : Printer) (k : Keyword)
    (list : List Argument) (rows : List Row) :
    emitRows s own p (.keyword k list :: rows) =
      emitRows s false (emitRow s p (.keyword k list)) rows := by
  rw [emitRows, announce_keyword]
  rfl

theorem emitAll_cons (s : Style) (own : Bool) (p : Printer) (statement : Statement)
    (list : List Statement) {more : List Row} (hmore : Stops s more) :
    emitAll s own p (statement :: list) =
      emitAll s (isOwnComment statement) (emit s
        (announce s own p (statement.rows ++ (Statement.rowsAll list ++ more))) statement) list := by
  have hheads := headsBlock_eq s statement list hmore
  obtain ⟨r, rest, hr, hown, -⟩ := head?_rows s statement
  rw [hr, List.cons_append] at hheads ⊢
  rw [emitAll, hheads, announce, hown]
  simp only [Bool.and_assoc]

mutual

theorem emitRows_rows (s : Style) (own : Bool) (p : Printer) (more : List Row) :
    ∀ statement : Statement, emitRows s own p (statement.rows ++ more) =
      emitRows s (isOwnComment statement)
        (emit s (announce s own p (statement.rows ++ more)) statement) more
  | .lineBreak _ | .lineComment _ _ _ | .bracketComment _ _ _ _ | .bracket _ _ _
  | .command _ _ _ | .unknown => by
    simp only [Statement.rows, List.singleton_append, emitRows]
    rfl
  | .definition kind name list body _ => by
    simp only [Statement.rows, List.cons_append, List.append_assoc, List.nil_append,
      emitRows_keyword, announce_keyword,
      emitRows_rowsAll s _ _ _ (stops_closing s _ _ _) body]
    rfl
  | .conditional head elseifs none => by
    simp only [Statement.rows, List.append_assoc, List.singleton_append, announce_branch,
      emitRows_branch s _ _ _ (stops_branches (stops_closing s _ _ _) elseifs) _ head,
      emitRows_branches s _ _ _ (stops_closing s _ _ _) elseifs, emitRows_keyword]
    obtain ⟨predicate, body, location⟩ := head
    rfl
  | .conditional head elseifs (some arm) => by
    have harm : Stops s (arm.rows (.dividing .elseArm) ++
        (.keyword (.closing .conditional) [] :: more)) := by
      obtain ⟨predicate, body, location⟩ := arm
      exact stops_dividing s _ _ _
    simp only [Statement.rows, List.append_assoc, List.singleton_append, announce_branch,
      emitRows_branch s _ _ _ (stops_branches harm elseifs) _ head,
      emitRows_branches s _ _ _ harm elseifs,
      emitRows_branch s _ _ _ (stops_closing s _ _ _) _ arm, emitRows_keyword]
    obtain ⟨predicate, body, location⟩ := head
    obtain ⟨predicate', body', location'⟩ := arm
    rfl
  | .loop kind list body _ => by
    simp only [Statement.rows, List.cons_append, List.append_assoc, List.nil_append,
      emitRows_keyword, announce_keyword,
      emitRows_rowsAll s _ _ _ (stops_closing s _ _ _) body]
    rfl

theorem emitRows_rowsAll (s : Style) (own : Bool) (p : Printer) (more : List Row)
    (hmore : Stops s more) :
    ∀ list : List Statement, emitRows s own p (Statement.rowsAll list ++ more) =
      emitRows s false (emitAll s own p list) more
  | [] => emitRows_of_stops hmore
  | statement :: rest => by
    rw [Statement.rowsAll, List.append_assoc, emitRows_rows s _ _ _ statement,
      emitRows_rowsAll s _ _ _ hmore rest, emitAll_cons s own p statement rest hmore]

theorem emitRows_branch (s : Style) (own : Bool) (p : Printer) (more : List Row)
    (hmore : Stops s more) (k : Keyword) :
    ∀ b : Branch, emitRows s own p (b.rows k ++ more) =
      emitRows s false (emitAll s false (emitRow s p (.keyword k b.predicate)) b.body) more
  | .mk predicate body _ => by
    rw [Branch.rows, List.cons_append, emitRows_keyword, emitRows_rowsAll s _ _ _ hmore body]
    rfl

theorem emitRows_branches (s : Style) (own : Bool) (p : Printer) (more : List Row)
    (hmore : Stops s more) :
    ∀ list : List Branch, emitRows s own p (Branch.rowsAll list ++ more) =
      emitRows s false (emitArms s p list) more
  | [] => emitRows_of_stops hmore
  | b :: rest => by
    rw [Branch.rowsAll, List.append_assoc,
      emitRows_branch s _ _ _ (stops_branches hmore rest) _ b,
      emitRows_branches s _ _ _ hmore rest]
    obtain ⟨predicate, body, location⟩ := b
    rfl

end

/-- The printer does the same for a tree and for its rows. -/
theorem emitAll_eq_emitRows (s : Style) (own : Bool) (p : Printer) (list : List Statement) :
    emitAll s own p list = emitRows s own p (Statement.rowsAll list) := by
  have := emitRows_rowsAll s own p [] (stops_nil s) list
  rw [List.append_nil] at this
  exact this.symm

end Listfile.Layout
