import Listfile.Layout.Checked
import Listfile.Proofs.Settle
import Listfile.Proofs.Wrapping

/-! The printer with its checks against the printer without. Every check is for the
length of one run, so a layout is carried out exactly if all the runs that it asks
for are short enough, and then it comes to what the printer without checks writes
(`Yields`). For an argument list the runs are read off its pieces
(`yields_arguments?`), for a row off the row, its indentation and whether it starts
a line (`yields_emitRow?`). -/

namespace Listfile

/-- The equals signs in either bracket of an argument. -/
def Argument.fence : Argument → Nat
  | .bracket _ fence _ => fence
  | .bracketComment _ fence _ => fence
  | _ => 0

namespace Layout

open Page (Fault)

/-! ### Checks -/

/-- A computation comes to `a` if `P` holds, and else it meets a run that is too long. -/
structure Yields {α : Type} (x : Except Fault α) (P : Prop) (a : α) : Prop where
  ok : P → x = .ok a
  tooWide : ¬ P → x = .error .tooWide

namespace Yields

variable {α β : Type} {x : Except Fault α} {P Q : Prop} {a : α}

theorem of_ok (a : α) : Yields (.ok a) True a := ⟨fun _ => rfl, fun h => absurd trivial h⟩

theorem congr (h : Yields x P a) (hPQ : P ↔ Q) : Yields x Q a :=
  ⟨fun hq => h.ok (hPQ.mpr hq), fun hq => h.tooWide fun hp => hq (hPQ.mp hp)⟩

/-- One step and then the next. -/
theorem bind (h : Yields x P a) {f : α → Except Fault β} {b : β} (hf : P → Yields (f a) Q b) :
    Yields (x >>= f) (P ∧ Q) b := by
  constructor
  · rintro ⟨hp, hq⟩
    rw [h.ok hp]
    exact (hf hp).ok hq
  · intro hpq
    by_cases hp : P
    · rw [h.ok hp]
      exact (hf hp).tooWide fun hq => hpq ⟨hp, hq⟩
    · rw [h.tooWide hp]
      rfl

theorem map (h : Yields x P a) (f : α → β) : Yields (x.map f) P (f a) :=
  ⟨fun hp => by rw [h.ok hp]; rfl, fun hp => by rw [h.tooWide hp]; rfl⟩

theorem bind_pure (h : Yields x P a) (f : α → β) : Yields (do return f (← x)) P (f a) :=
  h.map f

theorem eq_ok_iff (h : Yields x P a) : x = .ok a ↔ P := by
  refine ⟨fun hx => by_contra fun hp => ?_, h.ok⟩
  rw [h.tooWide hp] at hx
  contradiction

theorem eq_error_iff (h : Yields x P a) : x = .error .tooWide ↔ ¬ P := by
  refine ⟨fun hx hp => ?_, h.tooWide⟩
  rw [h.ok hp] at hx
  contradiction

end Yields

/-- A check of one run. -/
theorem yields_ite {α : Type} {P : Prop} [Decidable P] (a : α) :
    Yields (if P then .error .tooWide else .ok a) (¬ P) a :=
  ⟨fun hp => if_neg hp, fun hp => if_pos (not_not.mp hp)⟩

theorem yields_bracketText? (text : Text) (fence : Nat) :
    Yields (bracketText? text fence) (fence ≤ maxRun) (bracketText text fence) :=
  (yields_ite _).congr Nat.not_lt

/-! ### Argument lists -/

def Mark.fence : Mark → Nat
  | .leaf a _ => a.fence
  | _ => 0

/-- The spaces that a layout puts behind the line break that it writes for a mark. -/
def Piece.spaces (p : Piece) : Nat :=
  match p.mark with
  | .leaf _ _ => 0
  | _ => p.text.length - 1

/-- No run that a piece asks for is too long. -/
def Piece.Fits (p : Piece) : Prop := p.mark.fence ≤ maxRun ∧ p.spaces ≤ maxRun

mutual

theorem fence_marksOf (s : Style) (text : Text) :
    ∀ a : Argument,
      (∀ m ∈ marksOf s text a, m.fence ≤ maxRun) ↔ hasLongFence a = false
  | .unquoted _ | .quoted _ | .bracket _ _ _ | .lineComment _ _ | .bracketComment _ _ _
  | .unknown => by simp [marksOf, Mark.fence, Argument.fence, hasLongFence]
  | .group arguments => by
    rw [marksOf, List.forall_mem_cons, List.forall_mem_append, List.forall_mem_singleton,
      fence_marksFrom s arguments .first, hasLongFence]
    simp [Mark.fence]

/-- All brackets of a list are among its marks. -/
theorem fence_marksFrom (s : Style) :
    ∀ (list : List Argument) (place : Place),
      (∀ m ∈ marksFrom s place list, m.fence ≤ maxRun) ↔ anyLongFence list = false
  | [], place => by cases place <;> simp [marksFrom, Mark.fence, anyLongFence]
  | a :: rest, place => by
    have hrest := fence_marksFrom s rest
    cases h : inline? s a with
    | none =>
      obtain rfl : a = .unknown := by cases a <;> simp_all [inline?]
      simpa [marksFrom, h, anyLongFence, hasLongFence] using hrest place
    | some text =>
      have hgap : ∀ m ∈ place.marks, m.fence ≤ maxRun := by
        cases place <;> simp [Place.marks, Mark.fence]
      simp only [marksFrom, h, List.forall_mem_append, hrest, fence_marksOf s text a, anyLongFence,
        Bool.or_eq_false_iff]
      exact ⟨fun h => ⟨h.1.2, h.2⟩, fun h => ⟨⟨hgap, h.1⟩, h.2⟩⟩

end

theorem yields_breakTo? (column : Int) (m : Mark) (hm : m.isBelow = true ∨ m = .between) :
    Yields (breakTo? column) ((Piece.mk m (breakTo column)).spaces ≤ maxRun) (breakTo column) := by
  refine (yields_ite _).congr ?_
  have hspaces : (Piece.mk m (breakTo column)).spaces = column.toNat := by
    cases m <;> simp_all [Piece.spaces, breakTo, Text.spaces, Mark.isBelow]
  rw [hspaces]
  omega

/-- A gap between two arguments. -/
theorem yields_gap (s : Style) (column : Int) (width : Nat) (reserve hanging : Int)
    (place : Place) :
    Yields ((Gap.before s column width reserve place).text? hanging)
      (∀ p ∈ place.marks.map
        (Piece.mk · ((Gap.before s column width reserve place).text hanging)), p.spaces ≤ maxRun)
      ((Gap.before s column width reserve place).text hanging) := by
  cases place with
  | first => exact (Yields.of_ok _).congr (by simp [Place.marks])
  | behind =>
    rw [Gap.before, Place.marks, List.map_singleton, List.forall_mem_singleton]
    split
    · exact yields_breakTo? hanging .between (.inr rfl)
    · exact (Yields.of_ok _).congr (by simp [Piece.spaces, Gap.text])
  | belowComment =>
    rw [Gap.before, Place.marks, List.map_singleton, List.forall_mem_singleton]
    exact yields_breakTo? hanging .belowComment (.inl rfl)

theorem spaces_ofMark (m : Mark) : (Piece.ofMark m).spaces = 0 := by cases m <;> rfl

mutual

theorem yields_wrapOne? (s : Style) :
    ∀ (a : Argument) (column hanging reserve : Int) (text : Text),
      Yields (wrapOne? s column hanging reserve text a)
        (∀ p ∈ piecesOf s column hanging reserve text a, p.spaces ≤ maxRun)
        (wrapOne s column hanging reserve text a)
  | .unquoted _, _, _, _, _ | .quoted _, _, _, _, _ | .bracket _ _ _, _, _, _, _
  | .lineComment _ _, _, _, _, _ | .bracketComment _ _ _, _, _, _, _ | .unknown, _, _, _, _ =>
    (Yields.of_ok _).congr (by simp [piecesOf, Piece.spaces])
  | .group arguments, column, hanging, reserve, text => by
    rw [wrapOne?, wrapOne, piecesOf]
    split
    · rw [List.forall_mem_cons, List.forall_mem_append, List.forall_mem_singleton]
      refine ((yields_wrapFrom? s arguments _ _ _ _).bind_pure _).congr ?_
      simp [spaces_ofMark]
    · exact (Yields.of_ok _).congr (by simp [spaces_ofMark])

/-- A wrapped list is written exactly if none of its pieces asks for too many spaces. -/
theorem yields_wrapFrom? (s : Style) :
    ∀ (list : List Argument) (hanging closing column : Int) (place : Place),
      Yields (wrapFrom? s hanging closing column place list)
        (∀ p ∈ piecesFrom s hanging closing column place list, p.spaces ≤ maxRun)
        (wrapFrom s hanging closing column place list)
  | [], hanging, _, _, place => by
    rw [wrapFrom?, wrapFrom, piecesFrom]
    split
    · rw [List.forall_mem_singleton]
      exact yields_breakTo? hanging .lastLine (.inl rfl)
    · exact (Yields.of_ok _).congr (by simp)
  | a :: rest, hanging, closing, column, place => by
    cases h : inline? s a with
    | none => simpa only [wrapFrom?, wrapFrom, piecesFrom, h] using yields_wrapFrom? s rest _ _ _ _
    | some text =>
      simp only [wrapFrom?, wrapFrom, piecesFrom, h, List.forall_mem_append, and_assoc]
      exact (yields_gap s _ _ _ hanging place).bind fun _ =>
        (yields_wrapOne? s a _ _ _ text).bind fun _ =>
          (yields_wrapFrom? s rest _ _ _ _).bind_pure _

end

/-- An argument list is written exactly if none of its pieces asks for a run that is too long. -/
theorem yields_arguments? (s : Style) (column hanging closing : Int) (list : List Argument) :
    Yields (arguments? s column hanging closing list)
      (∀ p ∈ pieces s column hanging closing list, p.Fits)
      (arguments s column hanging closing list) := by
  have hfence : (∀ p ∈ pieces s column hanging closing list, p.mark.fence ≤ maxRun) ↔
      anyLongFence list = false := by
    rw [← fence_marksFrom s list .first, ← mark_pieces s column hanging closing list,
      List.forall_mem_map]
  simp only [Piece.Fits, imp_and, forall_and, hfence]
  unfold arguments? arguments pieces
  cases anyLongFence list with
  | true => exact ⟨fun h => absurd h.1 (by decide), fun _ => rfl⟩
  | false =>
    simp only [true_and, Bool.false_eq_true, if_false]
    split
    · exact (Yields.of_ok _).congr (by simp [spaces_ofMark])
    · exact yields_wrapFrom? s list hanging closing column .first

/-! ### Rows of a tree -/

/-- Write a row, as `emitRow` does. -/
def emitRow? (s : Style) (p : Printer) : Row → Except Fault Printer
  | .lineBreak => .ok (p.newline s)
  | .lineComment text trailing => do
    return (← p.comment? s (lineCommentText s text) trailing).newline s
  | .bracketComment text fence trailing => do
    p.comment? s ('#' :: (← bracketText? text fence)) trailing
  | .bracket text fence => do (p.startStatement s).write? (← bracketText? text fence)
  | .call none name list => (p.startStatement s).invoke? s name list
  | .call (some (.opening block)) name list =>
    (p.openBlock s (spaced s block)).invokeOpening? s name list
  | .call (some (.dividing _)) name list => do (← p.dedent?).invokeOpening? s name list
  | .call (some (.closing block)) name list => p.closeBlock? s name list (spaced s block)
  | .unknown => .ok p

/-- Write rows, as `emitRows` does. -/
def emitRows? (s : Style) (own : Bool) (p : Printer) : List Row → Except Fault Printer
  | [] => .ok p
  | r :: rest => do emitRows? s (isOwn r) (← emitRow? s (announce s own p (r :: rest)) r) rest

theorem emitRows?_of_stops {s : Style} {own : Bool} {p : Printer} {rows : List Row}
    (h : Stops s rows) : emitRows? s own p rows = emitRows? s false p rows := by
  cases rows with
  | nil => rfl
  | cons r rest =>
    have hr : ∀ r' ∈ (r :: rest).head?, isOwn r' = false := fun r' hr' => (h r' hr').1
    simp only [emitRows?, announce_of_not_own hr]

theorem emitRows?_keyword (s : Style) (own : Bool) (p : Printer) (k : Keyword)
    (list : List Argument) (rows : List Row) :
    emitRows? s own p (.keyword k list :: rows) =
      emitRow? s p (.keyword k list) >>= fun q => emitRows? s false q rows := by
  rw [emitRows?, announce_keyword]
  rfl

theorem emitAll?_cons (s : Style) (own : Bool) (p : Printer) (statement : Statement)
    (list : List Statement) {more : List Row} (hmore : Stops s more) :
    emitAll? s own p (statement :: list) =
      emit? s (announce s own p (statement.rows ++ (Statement.rowsAll list ++ more))) statement >>=
        fun q => emitAll? s (isOwnComment statement) q list := by
  have hheads := headsBlock_eq s statement list hmore
  obtain ⟨r, rest, hr, hown, -⟩ := head?_rows s statement
  rw [hr, List.cons_append] at hheads ⊢
  rw [emitAll?, hheads, announce, hown]
  simp only [Bool.and_assoc]

mutual

theorem emitRows?_rows (s : Style) (own : Bool) (p : Printer) (more : List Row) :
    ∀ statement : Statement, emitRows? s own p (statement.rows ++ more) =
      emit? s (announce s own p (statement.rows ++ more)) statement >>= fun q =>
        emitRows? s (isOwnComment statement) q more
  | .lineBreak _ | .lineComment _ _ _ | .bracketComment _ _ _ _ | .bracket _ _ _
  | .command _ _ _ | .unknown => by
    simp only [Statement.rows, List.singleton_append, emitRows?]
    rfl
  | .definition kind name list body _ => by
    simp only [Statement.rows, List.cons_append, List.append_assoc, List.nil_append,
      emitRows?_keyword, announce_keyword, emit?, bind_assoc,
      emitRows?_rowsAll s _ _ _ (stops_closing s _ _ _) body]
    rfl
  | .conditional head elseifs none => by
    simp only [Statement.rows, List.append_assoc, List.singleton_append, announce_branch, emit?,
      bind_assoc, emitRows?_branch s _ _ _ (stops_branches (stops_closing s _ _ _) elseifs) _ head,
      emitRows?_branches s _ _ _ (stops_closing s _ _ _) elseifs, emitRows?_keyword]
    obtain ⟨predicate, body, location⟩ := head
    simp only [emitArm?, bind_assoc]
    rfl
  | .conditional head elseifs (some arm) => by
    have harm : Stops s (arm.rows (.dividing .elseArm) ++
        (.keyword (.closing .conditional) [] :: more)) := by
      obtain ⟨predicate, body, location⟩ := arm
      exact stops_dividing s _ _ _
    simp only [Statement.rows, List.append_assoc, List.singleton_append, announce_branch, emit?,
      bind_assoc, emitRows?_branch s _ _ _ (stops_branches harm elseifs) _ head,
      emitRows?_branches s _ _ _ harm elseifs,
      emitRows?_branch s _ _ _ (stops_closing s _ _ _) _ arm, emitRows?_keyword]
    obtain ⟨predicate, body, location⟩ := head
    obtain ⟨predicate', body', location'⟩ := arm
    simp only [emitArm?, bind_assoc, Row.keyword, emitRow?]
    rfl
  | .loop kind list body _ => by
    simp only [Statement.rows, List.cons_append, List.append_assoc, List.nil_append,
      emitRows?_keyword, announce_keyword, emit?, bind_assoc,
      emitRows?_rowsAll s _ _ _ (stops_closing s _ _ _) body]
    rfl

theorem emitRows?_rowsAll (s : Style) (own : Bool) (p : Printer) (more : List Row)
    (hmore : Stops s more) :
    ∀ list : List Statement, emitRows? s own p (Statement.rowsAll list ++ more) =
      emitAll? s own p list >>= fun q => emitRows? s false q more
  | [] => emitRows?_of_stops hmore
  | statement :: rest => by
    rw [Statement.rowsAll, List.append_assoc, emitRows?_rows s _ _ _ statement,
      emitAll?_cons s own p statement rest hmore, bind_assoc]
    exact congrArg _ (funext fun q => emitRows?_rowsAll s _ q _ hmore rest)

theorem emitRows?_branch (s : Style) (own : Bool) (p : Printer) (more : List Row)
    (hmore : Stops s more) (k : Keyword) :
    ∀ b : Branch, emitRows? s own p (b.rows k ++ more) =
      emitRow? s p (.keyword k b.predicate) >>= fun q =>
        emitAll? s false q b.body >>= fun q => emitRows? s false q more
  | .mk predicate body _ => by
    rw [Branch.rows, List.cons_append, emitRows?_keyword]
    exact congrArg _ (funext fun q => emitRows?_rowsAll s _ q _ hmore body)

theorem emitRows?_branches (s : Style) (own : Bool) (p : Printer) (more : List Row)
    (hmore : Stops s more) :
    ∀ list : List Branch, emitRows? s own p (Branch.rowsAll list ++ more) =
      emitArms? s p list >>= fun q => emitRows? s false q more
  | [] => emitRows?_of_stops hmore
  | b :: rest => by
    rw [Branch.rowsAll, List.append_assoc,
      emitRows?_branch s _ _ _ (stops_branches hmore rest) _ b]
    simp only [emitRows?_branches s _ _ _ hmore rest]
    obtain ⟨predicate, body, location⟩ := b
    simp only [emitArms?, emitArm?, Row.keyword, emitRow?, bind_assoc]
    rfl

end

/-- The printer with its checks does the same for a tree and for its rows. -/
theorem emitAll?_eq_emitRows? (s : Style) (own : Bool) (p : Printer) (list : List Statement) :
    emitAll? s own p list = emitRows? s own p (Statement.rowsAll list) := by
  have := emitRows?_rowsAll s own p [] (stops_nil s) list
  rw [List.append_nil] at this
  rw [this]
  exact (bind_pure _).symm

/-! ### Printing a row -/

/-- The pieces of the argument list of a command at the start of a line. -/
def callPieces (s : Style) (indentation : Nat) (name : Text) (list : List Argument) : List Piece :=
  let column := Text.endColumn (Text.spaces indentation ++ (name ++ ['('])) 0
  pieces s column (continuationColumn s column indentation) 1 list

end Layout

open Layout

/-- No run that a row asks for is too long: the indentation if the row starts a line, the equals
signs of its brackets, and the spaces in its argument list. -/
def Row.Fits (s : Style) (indentation : Nat) (starts : Prop) : Row → Prop
  | .lineBreak => True
  | .lineComment _ _ => starts → indentation ≤ maxRun
  | .bracketComment _ fence _ => fence ≤ maxRun ∧ (starts → indentation ≤ maxRun)
  | .bracket _ fence => fence ≤ maxRun ∧ indentation ≤ maxRun
  | .call _ name list =>
    indentation ≤ maxRun ∧ ∀ p ∈ callPieces s indentation name list, p.Fits
  | .unknown => True

/-- A command that divides or closes a block. -/
def Row.leaves : Row → Bool
  | .call (some (.dividing _)) _ _ => true
  | .call (some (.closing _)) _ _ => true
  | _ => false

namespace Layout

theorem Printer.write?_of_behind {p : Printer} (h : p.page.atLineStart = false) (t : Text) :
    p.write? t = .ok (p.write t) := by
  simp [write?, Page.write?, Page.overflows, h, Except.map, write]

theorem Printer.atLineStart_write {p : Printer} (h : p.page.atLineStart = false) (t : Text) :
    (p.write t).page.atLineStart = false := by
  rw [write, Page.write]
  split
  · exact h
  · rfl

theorem Printer.dedent?_of_levels {p : Printer} (h : p.page.levels ≠ []) :
    p.dedent? = .ok p.dedent := by
  simp [dedent?, Page.dedent?, h, Except.map, dedent]

namespace Shows

variable {s : Style} {p : Printer} {text : Text} {levels : List Nat} {σ : Pace}

theorem yields_write? (h : Shows p text levels σ) {t : Text} (ht : t ≠ []) :
    Yields (p.write? t) (σ.atStart = true → levels.headD 0 ≤ maxRun) (p.write t) := by
  have hoverflows : p.page.overflows t = true ↔ ¬ (σ.atStart = true → levels.headD 0 ≤ maxRun) := by
    simp [Page.overflows, ht, h.lineStart, Page.indentation, h.levels]
  refine ((yields_ite _).congr ?_).map _
  rw [hoverflows, not_not]

/-- A command at the start of a line asks for the indentation and for what its arguments do. -/
theorem yields_invoke? (h : Shows p text levels σ) (name : Text) (list : List Argument) :
    Yields (p.invoke? s name list)
      (levels.headD 0 ≤ maxRun ∧ ∀ q ∈ callPieces s (levels.headD 0) name list, q.Fits)
      (p.invoke s name list) := by
  have h₁ := (h.withFlags false p.atBlockStart).ensureLineStart (s := s) _ rfl
  have hs := Pace.atStart_advance (σ := { σ with due := false, blockStart := p.atBlockStart })
    (n := if σ.fresh then 0 else 1) fun hf => by simp [show σ.fresh = false from hf]
  have hne : name ++ ['('] ≠ [] := by simp
  have hcolumn := h₁.currentColumn_write hs hne
  have hlead := (h₁.yields_write? hne).congr (Q := levels.headD 0 ≤ maxRun) (by simp [hs])
  have h₂ := h₁.write hne
  generalize hq : Printer.write (name ++ ['('])
    (Printer.ensureLineStart s { p with blankDue := false, atBlockStart := p.atBlockStart }) = q
    at hcolumn hlead h₂
  have hline : q.page.atLineStart = false := h₂.lineStart
  have hindent : q.page.indentation = levels.headD 0 := congrArg (·.headD 0) h₂.levels
  have hpieces : callPieces s (levels.headD 0) name list = pieces s q.page.currentColumn
      (continuationColumn s q.page.currentColumn q.page.indentation) 1 list := by
    rw [callPieces, hcolumn, hindent]
  have hrest (t : Text) : Yields (do
      let r ← q.write? t
      let r ← r.write? [')']
      return { r with atBlockStart := false }) True
      { (q.write t).write [')'] with atBlockStart := false } := by
    rw [Printer.write?_of_behind hline]
    change Yields ((q.write t).write? [')'] >>= _) _ _
    rw [Printer.write?_of_behind (Printer.atLineStart_write hline t)]
    exact .of_ok _
  rw [hpieces]
  subst hq
  exact (hlead.bind fun _ => (yields_arguments? s _ _ 1 list).bind fun _ => hrest _).congr
    (by rw [and_true])

/-- A command at the start of a statement. -/
theorem yields_statement_invoke? (h : Shows p text levels σ) (heads : Bool) (name : Text)
    (list : List Argument) :
    Yields (((p.separate s (!σ.own && heads)).startStatement s).invoke? s name list)
      (levels.headD 0 ≤ maxRun ∧ ∀ q ∈ callPieces s (levels.headD 0) name list, q.Fits)
      (((p.separate s (!σ.own && heads)).startStatement s).invoke s name list) :=
  (h.separate_startStatement heads).yields_invoke? name list

/-- A text at the start of a statement. -/
theorem yields_statement_write? (h : Shows p text levels σ) (heads : Bool) {t : Text}
    (ht : t ≠ []) :
    Yields (((p.separate s (!σ.own && heads)).startStatement s).write? t)
      (levels.headD 0 ≤ maxRun) (((p.separate s (!σ.own && heads)).startStatement s).write t) := by
  have hs := Pace.atStart_advance (Pace.wantStatement_pos s heads σ)
  refine ((h.separate_startStatement (s := s) heads).yields_write? ht).congr ?_
  simp only [Pace.atStart] at hs
  simp [Pace.atStart, hs]

/-- A comment asks for the indentation, unless it stands behind something on its line. -/
theorem yields_comment? (h : Shows p text levels σ) {t : Text} (ht : t ≠ []) {trailing heads : Bool}
    (hheads : trailing = true → heads = false) (n : Nat)
    (hn : n = if trailing && !σ.atStart then 0 else σ.wantStatement s heads) :
    Yields ((p.separate s (!σ.own && heads)).comment? s t trailing)
      ((σ.advance n).atStart = true → levels.headD 0 ≤ maxRun)
      ((p.separate s (!σ.own && heads)).comment s t trailing) := by
  have hline (htrailing : trailing = true) :
      (p.separate s (!σ.own && heads)).page.atLineStart = σ.atStart := by
    rw [hheads htrailing]
    simp [Printer.separate, h.lineStart]
  unfold Printer.comment? Printer.comment
  cases hbehind : trailing && !σ.atStart with
  | true =>
    obtain ⟨htrailing, hs⟩ : trailing = true ∧ σ.atStart = false := by simpa using hbehind
    obtain rfl : n = 0 := by simpa [hbehind] using hn
    have hoff := (hline htrailing).trans hs
    rw [hoff, htrailing, Pace.advance_of_le (Nat.zero_le _), hs]
    simp only [Bool.not_false, Bool.and_self, if_true, Printer.write?_of_behind hoff]
    exact (Yields.of_ok _).congr (by simp)
  | false =>
    obtain rfl : n = σ.wantStatement s heads := by simpa [hbehind] using hn
    have hon : (trailing && !(p.separate s (!σ.own && heads)).page.atLineStart) = false := by
      cases htrailing : trailing with
      | false => rfl
      | true => simpa [htrailing, hline htrailing] using hbehind
    rw [hon, Pace.atStart_advance (Pace.wantStatement_pos s heads σ)]
    exact (h.yields_statement_write? heads ht).congr (by simp)

end Shows

section Row
variable {s : Style} {p : Printer} {text : Text} {levels : List Nat} {σ : Pace} {rest : List Row}
  (h : Shows p text levels σ)
include h

theorem yields_emitRow?_call {role : Option Keyword} {name : Text} {list : List Argument}
    (hsep : p.separated = (σ.own && leads s (.call role name list :: rest)))
    (hlevels : (Row.call role name list).leaves = true → levels ≠ []) (starts : Prop) :
    Yields (emitRow? s (announce s σ.own p (.call role name list :: rest)) (.call role name list))
      ((Row.call role name list).Fits s ((levelsAt levels (.call role name list)).headD 0) starts)
      (emitRow s (announce s σ.own p (.call role name list :: rest)) (.call role name list)) := by
  obtain _ | block | divider | block := role
  · obtain ⟨separated, heq⟩ := announce_eq rfl hsep
    rw [heq]
    exact (h.withSeparated separated).yields_statement_invoke? _ name list
  · rw [announce_of_not_own (by simp [isOwn]), emitRow?, Layout.emitRow,
      openBlock_eq (spaced s block) hsep]
    exact ((h.withSeparated false).yields_statement_invoke? _ name list).bind_pure _
  · rw [announce_of_not_own (by simp [isOwn]), emitRow?,
      Printer.dedent?_of_levels (h.levels ▸ hlevels rfl)]
    exact (h.dedent.yields_invoke? name list).bind_pure _
  · rw [announce_of_not_own (by simp [isOwn]), emitRow?, Printer.closeBlock?,
      Printer.dedent?_of_levels (h.levels ▸ hlevels rfl)]
    exact (h.dedent.yields_invoke? name list).bind_pure _

/-- A row is written exactly if no run that it asks for is too long. -/
theorem yields_emitRow? {r : Row} (hsep : p.separated = (σ.own && leads s (r :: rest)))
    (hlevels : r.leaves = true → levels ≠ []) :
    Yields (emitRow? s (announce s σ.own p (r :: rest)) r)
      (r.Fits s ((levelsAt levels r).headD 0) ((σ.advance (σ.want s rest r)).atStart = true))
      (emitRow s (announce s σ.own p (r :: rest)) r) := by
  cases r with
  | lineBreak => exact .of_ok _
  | unknown => exact .of_ok _
  | lineComment comment trailing =>
    obtain ⟨separated, heq⟩ := announce_eq rfl hsep
    rw [heq]
    exact ((h.withSeparated separated).yields_comment? (lineCommentText_ne_nil s comment)
      (leads_of_trailing s comment rest) _ (want_lineComment s rest σ comment trailing)).bind_pure _
  | bracketComment comment fence trailing =>
    obtain ⟨separated, heq⟩ := announce_eq rfl hsep
    rw [heq]
    exact (yields_bracketText? comment fence).bind fun _ =>
      (h.withSeparated separated).yields_comment? (List.cons_ne_nil '#' _)
        (fun _ => leads_of_not_own rfl rest) _
        (want_bracketComment s rest σ comment fence trailing)
  | bracket body fence =>
    obtain ⟨separated, heq⟩ := announce_eq rfl hsep
    have hne : bracketText body fence ≠ [] := by simp [bracketText, Token.opener]
    rw [heq]
    exact (yields_bracketText? body fence).bind fun _ =>
      (h.withSeparated separated).yields_statement_write? _ hne
  | call role name list => exact yields_emitRow?_call h hsep hlevels _

end Row

end Layout

end Listfile
