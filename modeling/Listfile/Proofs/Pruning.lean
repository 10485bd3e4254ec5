import Listfile.Proofs.Separation

/-! Nodes of unknown kind. Nothing is written for them. In an argument list they make
no difference at all (`arguments_pruneAll`). In a statement list one does where it
stands between a comment on a line of its own and the block with blank lines that
the comment heads: the comment then heads nothing, and the blank line goes below
it. Everywhere else, and where no blank lines are allowed, a tree is written as it is
without the nodes of unknown kind (`statements_pruneAll_iff`). -/

namespace Listfile

/-! ### Trees without nodes of unknown kind -/

mutual

/-- An argument without the arguments of unknown kind inside it. -/
def Argument.prune : Argument → Argument
  | .unquoted text => .unquoted text
  | .quoted text => .quoted text
  | .bracket text fence location => .bracket text fence location
  | .group arguments => .group (Argument.pruneAll arguments)
  | .lineComment text location => .lineComment text location
  | .bracketComment text fence location => .bracketComment text fence location
  | .unknown => .unknown

def Argument.pruneAll : List Argument → List Argument
  | [] => []
  | a :: rest =>
    if Layout.isKnown a then a.prune :: Argument.pruneAll rest else Argument.pruneAll rest

end

mutual

/-- A statement without the nodes of unknown kind inside it. -/
def Statement.prune : Statement → Statement
  | .lineBreak location => .lineBreak location
  | .lineComment text trailing location => .lineComment text trailing location
  | .bracketComment text fence trailing location => .bracketComment text fence trailing location
  | .bracket text fence location => .bracket text fence location
  | .command name arguments location => .command name (Argument.pruneAll arguments) location
  | .definition kind name arguments body location =>
    .definition kind name (Argument.pruneAll arguments) (Statement.pruneAll body) location
  | .conditional head elseifs none => .conditional head.prune (Branch.pruneAll elseifs) none
  | .conditional head elseifs (some arm) =>
    .conditional head.prune (Branch.pruneAll elseifs) (some arm.prune)
  | .loop kind arguments body location =>
    .loop kind (Argument.pruneAll arguments) (Statement.pruneAll body) location
  | .unknown => .unknown

def Statement.pruneAll : List Statement → List Statement
  | [] => []
  | s :: rest =>
    if s.isUnknown then Statement.pruneAll rest else s.prune :: Statement.pruneAll rest

def Branch.prune : Branch → Branch
  | .mk predicate body location =>
    .mk (Argument.pruneAll predicate) (Statement.pruneAll body) location

def Branch.pruneAll : List Branch → List Branch
  | [] => []
  | b :: rest => b.prune :: Branch.pruneAll rest

end

namespace Row

def isUnknown : Row → Bool
  | .unknown => true
  | _ => false

/-- A row without the arguments of unknown kind. -/
def prune : Row → Row
  | .call role name arguments => .call role name (Argument.pruneAll arguments)
  | r => r

/-- The rows of known kind. -/
def known (rows : List Row) : List Row := rows.filter (!·.isUnknown)

theorem known_append (rows more : List Row) : known (rows ++ more) = known rows ++ known more :=
  List.filter_append ..

theorem known_cons {r : Row} (h : r.isUnknown = false) (rows : List Row) :
    known (r :: rows) = r :: known rows :=
  List.filter_cons_of_pos (by simp [h])

theorem known_unknown_cons (rows : List Row) : known (.unknown :: rows) = known rows := rfl

theorem map_prune_known_keyword (k : Keyword) (list : List Argument) (rows : List Row) :
    (known (.keyword k list :: rows)).map prune =
      .keyword k (Argument.pruneAll list) :: (known rows).map prune := rfl

/-- A command with a part in a block has the name of its keyword. -/
def Keyed (r : Row) : Prop := ∀ k name list, r = .call (some k) name list → name = k.spelling

theorem keyed_keyword (k : Keyword) (list : List Argument) : (Row.keyword k list).Keyed := by
  rintro k' name list' h
  obtain ⟨rfl, rfl, -⟩ : k = k' ∧ k.spelling = name ∧ list = list' := by simpa [keyword] using h
  rfl

end Row

mutual

/-- The rows of a pruned tree are the rows of known kind, pruned. -/
theorem Statement.rows_prune : ∀ s : Statement, s.isUnknown = false →
    s.prune.rows = (Row.known s.rows).map Row.prune
  | .lineBreak _, _ | .lineComment _ _ _, _ | .bracketComment _ _ _ _, _ | .bracket _ _ _, _
  | .command _ _ _, _ => rfl
  | .definition _ _ _ body _, _ => by
    simp only [Statement.prune, Statement.rows, Row.map_prune_known_keyword, Row.known_append,
      List.map_append, Statement.rowsAll_pruneAll body]
    rfl
  | .conditional head elseifs none, _ => by
    simp only [Statement.prune, Statement.rows, Row.known_append, List.map_append,
      Branch.rows_prune _ head, Branch.rowsAll_pruneAll elseifs]
    rfl
  | .conditional head elseifs (some arm), _ => by
    simp only [Statement.prune, Statement.rows, Row.known_append, List.map_append,
      Branch.rows_prune _ head, Branch.rowsAll_pruneAll elseifs, Branch.rows_prune _ arm]
    rfl
  | .loop _ _ body _, _ => by
    simp only [Statement.prune, Statement.rows, Row.map_prune_known_keyword, Row.known_append,
      List.map_append, Statement.rowsAll_pruneAll body]
    rfl

theorem Statement.rowsAll_pruneAll : ∀ list : List Statement,
    Statement.rowsAll (Statement.pruneAll list) = (Row.known (Statement.rowsAll list)).map Row.prune
  | [] => rfl
  | s :: rest => by
    rw [Statement.pruneAll, Statement.rowsAll, Row.known_append, List.map_append,
      ← Statement.rowsAll_pruneAll rest]
    split
    · next h =>
      obtain rfl : s = .unknown := by cases s <;> first | rfl | contradiction
      rfl
    · next h => rw [Statement.rowsAll, Statement.rows_prune s (by simpa using h)]

theorem Branch.rows_prune (k : Keyword) :
    ∀ b : Branch, b.prune.rows k = (Row.known (b.rows k)).map Row.prune
  | .mk _ body _ => by
    rw [Branch.prune, Branch.rows, Branch.rows, Row.map_prune_known_keyword,
      Statement.rowsAll_pruneAll body]

theorem Branch.rowsAll_pruneAll : ∀ list : List Branch,
    Branch.rowsAll (Branch.pruneAll list) = (Row.known (Branch.rowsAll list)).map Row.prune
  | [] => rfl
  | b :: rest => by
    rw [Branch.pruneAll, Branch.rowsAll, Branch.rowsAll, Row.known_append, List.map_append,
      Branch.rows_prune _ b, Branch.rowsAll_pruneAll rest]

end

mutual

theorem Statement.keyed_rows : ∀ s : Statement, ∀ r ∈ s.rows, r.Keyed
  | .lineBreak _ | .lineComment _ _ _ | .bracketComment _ _ _ _ | .bracket _ _ _ | .command _ _ _
  | .unknown => List.forall_mem_singleton.mpr (by simp [Row.Keyed])
  | .definition _ _ _ body _ => List.forall_mem_cons.mpr ⟨Row.keyed_keyword _ _,
      List.forall_mem_append.mpr ⟨Statement.keyed_rowsAll body,
        List.forall_mem_singleton.mpr (Row.keyed_keyword _ _)⟩⟩
  | .conditional head elseifs none => List.forall_mem_append.mpr
    ⟨List.forall_mem_append.mpr ⟨Branch.keyed_rows _ head, Branch.keyed_rowsAll elseifs⟩,
      List.forall_mem_singleton.mpr (Row.keyed_keyword _ _)⟩
  | .conditional head elseifs (some arm) => List.forall_mem_append.mpr
    ⟨List.forall_mem_append.mpr
      ⟨List.forall_mem_append.mpr ⟨Branch.keyed_rows _ head, Branch.keyed_rowsAll elseifs⟩,
        Branch.keyed_rows _ arm⟩, List.forall_mem_singleton.mpr (Row.keyed_keyword _ _)⟩
  | .loop _ _ body _ => List.forall_mem_cons.mpr ⟨Row.keyed_keyword _ _,
      List.forall_mem_append.mpr ⟨Statement.keyed_rowsAll body,
        List.forall_mem_singleton.mpr (Row.keyed_keyword _ _)⟩⟩

theorem Statement.keyed_rowsAll :
    ∀ list : List Statement, ∀ r ∈ Statement.rowsAll list, r.Keyed
  | [] => by simp [Statement.rowsAll]
  | s :: rest =>
    List.forall_mem_append.mpr ⟨Statement.keyed_rows s, Statement.keyed_rowsAll rest⟩

theorem Branch.keyed_rows (k : Keyword) : ∀ b : Branch, ∀ r ∈ b.rows k, r.Keyed
  | .mk _ body _ =>
    List.forall_mem_cons.mpr ⟨Row.keyed_keyword _ _, Statement.keyed_rowsAll body⟩

theorem Branch.keyed_rowsAll : ∀ list : List Branch, ∀ r ∈ Branch.rowsAll list, r.Keyed
  | [] => by simp [Branch.rowsAll]
  | b :: rest => List.forall_mem_append.mpr ⟨Branch.keyed_rows _ b, Branch.keyed_rowsAll rest⟩

end

end Listfile

namespace Listfile.Layout

/-! ### Argument lists -/

theorem eq_unknown_of_not_isKnown {a : Argument} (h : ¬ isKnown a = true) : a = .unknown := by
  cases a <;> first | rfl | exact absurd rfl h

mutual

theorem inline?_prune (s : Style) : ∀ a : Argument, inline? s a.prune = inline? s a
  | .unquoted _ | .quoted _ | .bracket _ _ _ | .lineComment _ _ | .bracketComment _ _ _
  | .unknown => rfl
  | .group xs => by rw [Argument.prune, inline?, inline?, inlineAll_pruneAll s xs]

theorem inlineAll_pruneAll (s : Style) :
    ∀ list : List Argument, inlineAll s (Argument.pruneAll list) = inlineAll s list
  | [] => rfl
  | a :: rest => by
    rw [Argument.pruneAll]
    split
    · rw [inlineAll, inlineAll, inline?_prune s a, inlineAll_pruneAll s rest]
    · next h =>
      obtain rfl := eq_unknown_of_not_isKnown h
      exact inlineAll_pruneAll s rest

end

mutual

theorem hasLineComment_prune : ∀ a : Argument, hasLineComment a.prune = hasLineComment a
  | .unquoted _ | .quoted _ | .bracket _ _ _ | .lineComment _ _ | .bracketComment _ _ _
  | .unknown => rfl
  | .group xs => by
    rw [Argument.prune, hasLineComment, hasLineComment, anyLineComment_pruneAll xs]

theorem anyLineComment_pruneAll :
    ∀ list : List Argument, anyLineComment (Argument.pruneAll list) = anyLineComment list
  | [] => rfl
  | a :: rest => by
    rw [Argument.pruneAll]
    split
    · rw [anyLineComment, anyLineComment, hasLineComment_prune a, anyLineComment_pruneAll rest]
    · next h =>
      obtain rfl := eq_unknown_of_not_isKnown h
      exact anyLineComment_pruneAll rest

end

theorem isLineComment_prune (a : Argument) : isLineComment a.prune = isLineComment a := by
  cases a <;> rfl

theorem any_isKnown_pruneAll (list : List Argument) :
    (Argument.pruneAll list).any isKnown = list.any isKnown := by
  induction list with
  | nil => rfl
  | cons a rest ih =>
    have hknown : isKnown a.prune = isKnown a := by cases a <;> rfl
    rw [Argument.pruneAll]
    split <;> simp_all

mutual

theorem wrapOne_prune (s : Style) :
    ∀ (a : Argument) (column hanging reserve : Int) (text : Text),
      wrapOne s column hanging reserve text a.prune = wrapOne s column hanging reserve text a
  | .unquoted _, _, _, _, _ | .quoted _, _, _, _, _ | .bracket _ _ _, _, _, _, _
  | .lineComment _ _, _, _, _, _ | .bracketComment _ _ _, _, _, _, _ | .unknown, _, _, _, _ => rfl
  | .group xs, column, hanging, reserve, text => by
    rw [Argument.prune, wrapOne, wrapOne, anyLineComment_pruneAll, wrapFrom_pruneAll s xs]

theorem wrapFrom_pruneAll (s : Style) :
    ∀ (list : List Argument) (hanging closing column : Int) (place : Place),
      wrapFrom s hanging closing column place (Argument.pruneAll list) =
        wrapFrom s hanging closing column place list
  | [], _, _, _, _ => rfl
  | a :: rest, hanging, closing, column, place => by
    rw [Argument.pruneAll]
    split
    · rw [wrapFrom, wrapFrom, inline?_prune s a]
      cases inline? s a with
      | none => exact wrapFrom_pruneAll s rest hanging closing column place
      | some text =>
        simp only [any_isKnown_pruneAll, isLineComment_prune, wrapOne_prune s a,
          wrapFrom_pruneAll s rest]
    · next h =>
      obtain rfl := eq_unknown_of_not_isKnown h
      exact wrapFrom_pruneAll s rest hanging closing column place

end

/-- Arguments of unknown kind make no difference, at any depth. -/
theorem arguments_pruneAll (s : Style) (column hanging closing : Int) (list : List Argument) :
    arguments s column hanging closing (Argument.pruneAll list) =
      arguments s column hanging closing list := by
  simp only [arguments, inlineAll_pruneAll, anyLineComment_pruneAll, wrapFrom_pruneAll]

/-! ### Rows -/

theorem isOwn_prune (r : Row) : isOwn r.prune = isOwn r := by
  cases r <;> rfl

theorem opensSpaced_prune (s : Style) (r : Row) : opensSpaced s r.prune = opensSpaced s r := by
  cases r with
  | call role name list =>
    obtain _ | k := role
    · rfl
    · cases k <;> rfl
  | _ => rfl

theorem emitRow_prune (s : Style) (p : Printer) (r : Row) :
    emitRow s p r.prune = emitRow s p r := by
  have hinvoke (name : Text) (list : List Argument) (q : Printer) :
      q.invoke s name (Argument.pruneAll list) = q.invoke s name list := by
    simp only [Printer.invoke, arguments_pruneAll]
  cases r with
  | call role name list =>
    obtain _ | block | divider | block := role
    · exact hinvoke ..
    · simp only [Row.prune, emitRow, Printer.invokeOpening, hinvoke]
    · simp only [Row.prune, emitRow, Printer.invokeOpening, hinvoke]
    · simp only [Row.prune, emitRow, Printer.closeBlock, hinvoke]
  | _ => rfl

theorem emitRows_map_prune (s : Style) (own : Bool) (p : Printer) (rows : List Row) :
    emitRows s own p (rows.map Row.prune) = emitRows s own p rows := by
  induction rows generalizing own p with
  | nil => rfl
  | cons r rest ih =>
    have hannounce : announce s own p (r.prune :: rest.map Row.prune) =
        announce s own p (r :: rest) := by
      have := leads_map isOwn_prune (opensSpaced_prune s) (r :: rest)
      rw [List.map_cons] at this
      simp only [announce, isOwn_prune, this]
    rw [List.map_cons, emitRows, emitRows, hannounce, emitRow_prune, isOwn_prune, ih]

/-- A pruned tree is written as its rows of known kind. -/
theorem statements_pruneAll (s : Style) (tree : List Statement) :
    statements s (Statement.pruneAll tree) =
      verbatim s [] true (settle s .start (Row.known (Statement.rowsAll tree))) := by
  rw [statements, emitAll_eq_emitRows, Statement.rowsAll_pruneAll, emitRows_map_prune]
  exact text_emitRows shows_start rfl

/-! ### Comments that are cut off from a block -/

/-- Whether rows of unknown kind come between a comment on a line of its own and the block with
blank lines around it that the comment would head without them. -/
def interrupted (s : Style) : List Row → Bool
  | [] => false
  | r :: rest =>
    (isOwn r && rest.head?.any Row.isUnknown && leads s (Row.known rest)) || interrupted s rest

theorem eq_unknown_of_isUnknown {r : Row} (h : r.isUnknown = true) : r = .unknown := by
  cases r <;> first | rfl | contradiction

/-- Looking ahead sees the rows of known kind only, or it is cut short. -/
theorem leads_known (s : Style) {r : Row} (hr : r.isUnknown = false) (rest : List Row) :
    leads s (r :: Row.known rest) = leads s (r :: rest) ∨
      leads s (r :: Row.known rest) = true ∧ leads s (r :: rest) = false ∧
        interrupted s (r :: rest) = true := by
  induction rest generalizing r with
  | nil => exact .inl rfl
  | cons x rest ih =>
    cases hown : isOwn r with
    | false => rw [leads_of_not_own hown, leads_of_not_own hown]; exact .inl rfl
    | true =>
      rw [leads_of_own hown, leads_of_own hown]
      cases hx : x.isUnknown with
      | true =>
        obtain rfl := eq_unknown_of_isUnknown hx
        have hstop : leads s (.unknown :: rest) = false := leads_of_not_own rfl rest
        rw [hstop, Row.known_unknown_cons]
        cases hleads : leads s (Row.known rest) with
        | false => exact .inl rfl
        | true => exact .inr ⟨rfl, rfl, by simp [interrupted, hown, Row.isUnknown,
            Row.known_unknown_cons, hleads]⟩
      | false =>
        rw [Row.known_cons hx]
        rcases ih hx with heq | ⟨hknown, hall, hcut⟩
        · exact .inl heq
        · exact .inr ⟨hknown, hall, by rw [interrupted, hcut, Bool.or_true]⟩

theorem leads_known_of_not_interrupted {s : Style} {r : Row} (hr : r.isUnknown = false)
    {rest : List Row} (h : interrupted s (r :: rest) = false) :
    leads s (r :: Row.known rest) = leads s (r :: rest) := by
  rcases leads_known s hr rest with heq | ⟨-, -, hcut⟩
  · exact heq
  · rw [h] at hcut
    contradiction

theorem leads_known_of_leads {s : Style} {r : Row} (hr : r.isUnknown = false) {rest : List Row}
    (h : leads s (r :: rest) = true) : leads s (r :: Row.known rest) = true := by
  rcases leads_known s hr rest with heq | ⟨hknown, -, -⟩
  · exact heq.trans h
  · exact hknown

/-- The state of a printer with what it knows of a comment above replaced. -/
def Pace.withOwn (own : Bool) (σ : Pace) : Pace := { σ with own := own }

theorem wantStatement_withOwn {s : Style} {own heads heads' : Bool} {σ : Pace}
    (h : s.allowedBlankLines = 0 ∨ (!σ.own && heads) = (!own && heads')) :
    σ.wantStatement s heads = (σ.withOwn own).wantStatement s heads' := by
  rcases h with h | h
  · rw [wantStatement_of_allowed_zero h, wantStatement_of_allowed_zero h]
    rfl
  · simp only [Pace.wantStatement, Pace.withOwn, h]
    rfl

/-- What a row asks for depends on a comment above only where it leads up to a block. -/
theorem want_withOwn {s : Style} {own : Bool} {σ : Pace} {r : Row} {rest rest' : List Row}
    (h : s.allowedBlankLines = 0 ∨
      (!σ.own && leads s (r :: rest)) = (!own && leads s (r :: rest'))) :
    σ.want s rest r = (σ.withOwn own).want s rest' r := by
  have hheads := wantStatement_withOwn h
  have htrails : σ.wantStatement s false = (σ.withOwn own).wantStatement s false :=
    wantStatement_withOwn (.inr (by simp))
  have hstart : (σ.withOwn own).atStart = σ.atStart := rfl
  cases r with
  | lineBreak | unknown => rfl
  | lineComment text trailing | bracketComment text fence trailing =>
    cases trailing with
    | false => exact hheads
    | true => simp only [Pace.want, htrails, hstart]
  | bracket text fence => exact hheads
  | call role name list =>
    obtain _ | block | divider | block := role
    · exact hheads
    · exact hheads
    · rfl
    · rfl

theorem behind_withOwn (s : Style) (own : Bool) (σ : Pace) {r : Row} (hr : r.isUnknown = false) :
    (σ.withOwn own).behind s r = σ.behind s r := by
  cases r with
  | unknown => contradiction
  | lineComment text trailing | bracketComment text fence trailing =>
    simp only [Pace.behind, Pace.behindComment, Pace.withOwn]
    rfl
  | _ => rfl

/-! ### Line feeds in front of a row -/

theorem eq_of_replicate_append {n n' : Nat} {c c' : Char} {t t' : Text} (hc : c ≠ '\n')
    (hc' : c' ≠ '\n')
    (h : List.replicate n '\n' ++ c :: t = List.replicate n' '\n' ++ c' :: t') : n = n' := by
  have hfeeds (m : Nat) {d : Char} (u : Text) (hd : d ≠ '\n') :
      ((List.replicate m '\n' ++ d :: u).takeWhile (· = '\n')).length = m := by
    rw [List.takeWhile_append_of_pos (by simp)]
    simp [hd]
  rw [← hfeeds n t hc, h, hfeeds n' t' hc']

/-- A row that leads up to a block starts with no line feed. -/
theorem rowText_of_leads {s : Style} {r : Row} (hkey : r.Keyed) {rest : List Row}
    (h : leads s (r :: rest) = true) (indentation : Nat) (b : Bool) :
    ∃ c t, rowLead indentation b r ++ rowText s indentation r = c :: t ∧ c ≠ '\n' := by
  have hlead (c : Char) (hc : c ≠ '\n') (t : Text) :
      ∃ d u, (if b then Text.spaces indentation else [' ']) ++ c :: t = d :: u ∧ d ≠ '\n' := by
    cases b with
    | false => exact ⟨' ', _, rfl, by decide⟩
    | true =>
      cases indentation with
      | zero => exact ⟨c, t, rfl, hc⟩
      | succ n => exact ⟨' ', _, rfl, by decide⟩
  cases hown : isOwn r with
  | true =>
    cases r with
    | lineComment text trailing =>
      obtain ⟨body, hbody⟩ : ∃ body, lineCommentText s text = '#' :: body := by
        unfold lineCommentText
        split <;> exact ⟨_, rfl⟩
      rw [rowText, hbody]
      exact hlead '#' (by decide) _
    | _ => contradiction
  | false =>
    rw [leads_of_not_own hown] at h
    cases r with
    | call role name list =>
      obtain _ | k := role
      · contradiction
      · obtain rfl := hkey k name list rfl
        obtain ⟨hne, hline⟩ := k.oneLine_spelling
        obtain ⟨c, t, hct⟩ := List.exists_cons_of_ne_nil hne
        rw [rowText, callText, hct]
        refine hlead c (fun hc => hline ?_) _
        simp [hct, hc]
    | _ => contradiction

/-! ### Rows with and without those of unknown kind -/

/-- Whether there is a difference between the printer at rows, behind a comment or not, and the
printer at the rows of known kind, behind a comment or not. -/
def differs (s : Style) (own own' : Bool) (rows : List Row) : Bool :=
  interrupted s rows ||
    (own' && (!own || rows.head?.any Row.isUnknown) && leads s (Row.known rows))

theorem interrupted_cons (s : Style) (r : Row) (rest : List Row) :
    interrupted s (r :: rest) = differs s (isOwn r) (isOwn r) rest := by
  cases hr : isOwn r <;> simp [interrupted, differs, hr, Bool.or_comm]

variable {s : Style}

/-- A row, and what is in front of it and behind it. -/
theorem verbatim_settle_cons {σ : Pace} {r : Row} {rest : List Row}
    (hkeep : σ.drops s r = false) (levels : List Nat) :
    verbatim s levels σ.atStart (settle s σ (r :: rest)) =
      (σ.place s levels rest r).ink ++ verbatim s (levelsBehind s levels r)
        (σ.behind s r).atStart (settle s (σ.behind s r) rest) := by
  have hink := ink_placed s σ levels (r :: rest)
  rw [← hink, placed, List.flatMap_cons, ink_placed, Pace.pass, hkeep, if_neg Bool.false_ne_true]

/-- A row that is not dropped, with the line breaks in front of it. -/
theorem ink_place {σ : Pace} {r : Row} (hkeep : σ.drops s r = false) (levels : List Nat)
    (rest : List Row) :
    (σ.place s levels rest r).ink =
      List.replicate (σ.want s rest r - σ.breaks) '\n' ++
        (rowLead ((levelsAt levels r).headD 0)
            (σ.atStart || 0 < σ.want s rest r - σ.breaks) r ++
          rowText s ((levelsAt levels r).headD 0) r) := by
  rw [Pace.place, hkeep, if_neg Bool.false_ne_true]
  rfl

theorem want_of_leads {σ : Pace} {r : Row} {rest : List Row} (h : leads s (r :: rest) = true) :
    σ.want s rest r = σ.wantStatement s true := by
  rw [← h]
  cases r with
  | lineComment text trailing =>
    cases trailing with
    | false => rfl
    | true => contradiction
  | call role name list => obtain _ | block | divider | block := role <;> first | rfl | contradiction
  | _ => contradiction

/-- Where blank lines are allowed, a block below a comment is moved off if the comment is not
seen, and only then. -/
theorem want_below {σ : Pace} (hs : s.allowedBlankLines ≠ 0) (hown : σ.own = false)
    (hbelow : σ.withOwn true = .belowOwn) {r : Row} {rest rest' : List Row}
    (h : leads s (r :: rest) = true) :
    σ.want s rest r - σ.breaks ≠ (σ.withOwn true).want s rest' r - σ.breaks := by
  obtain ⟨breaks, fresh, due, blockStart, own⟩ := σ
  obtain rfl : own = false := hown
  obtain ⟨rfl, rfl, rfl, rfl⟩ : breaks = 1 ∧ fresh = false ∧ due = false ∧ blockStart = false := by
    simpa [Pace.withOwn, Pace.belowOwn] using hbelow
  have hle := want_belowOwn s rest' r
  rw [want_of_leads h, hbelow]
  simp only [Pace.wantStatement, blankGap, Bool.not_false, Bool.true_and, Bool.false_or, if_true,
    Bool.false_eq_true, if_false]
  omega

/-- Behind a row that is written with other line breaks in front of it, texts differ. -/
theorem ink_place_ne {σ : Pace} {own : Bool} {r : Row} {rest rest' : List Row} (hkey : r.Keyed)
    (hkeep : σ.drops s r = false) (hleads : leads s (r :: rest') = true) {levels : List Nat}
    (hne : σ.want s rest r - σ.breaks ≠ (σ.withOwn own).want s rest' r - σ.breaks) (t t' : Text) :
    ((σ.withOwn own).place s levels rest' r).ink ++ t' ≠ (σ.place s levels rest r).ink ++ t := by
  intro heq
  have hkeep' : (σ.withOwn own).drops s r = false := hkeep
  obtain ⟨c, u, hu, hc⟩ := rowText_of_leads hkey hleads ((levelsAt levels r).headD 0)
    (σ.atStart || 0 < σ.want s rest r - σ.breaks)
  obtain ⟨c', u', hu', hc'⟩ := rowText_of_leads hkey hleads ((levelsAt levels r).headD 0)
    ((σ.withOwn own).atStart || 0 < (σ.withOwn own).want s rest' r - (σ.withOwn own).breaks)
  rw [ink_place hkeep, ink_place hkeep', hu, hu', List.append_assoc, List.append_assoc,
    List.cons_append, List.cons_append] at heq
  exact hne (eq_of_replicate_append hc' hc heq).symm

/-- The texts from a row on, with rows of unknown kind behind it and without them. The comment
above the row may be seen only without them. -/
theorem ink_place_append_iff {σ : Pace} {own : Bool} {r : Row} {rest : List Row} (hkey : r.Keyed)
    (hr : r.isUnknown = false) (hkeep : σ.drops s r = false) (hle : σ.own = true → own = true)
    (hbelow : own = true → σ.withOwn true = .belowOwn) (levels : List Nat) {t t' : Text}
    (ht : t' = t ↔ s.allowedBlankLines = 0 ∨ interrupted s (r :: rest) = false) :
    ((σ.withOwn own).place s levels (Row.known rest) r).ink ++ t' =
        (σ.place s levels rest r).ink ++ t ↔
      s.allowedBlankLines = 0 ∨ differs s σ.own own (r :: rest) = false := by
  have hdiffers : differs s σ.own own (r :: rest) =
      (interrupted s (r :: rest) || (own && !σ.own && leads s (r :: Row.known rest))) := by
    simp [differs, Row.known_cons hr, hr]
  rw [hdiffers, Bool.or_eq_false_iff]
  by_cases hwant : σ.want s rest r - σ.breaks =
      (σ.withOwn own).want s (Row.known rest) r - σ.breaks
  · have hkeep' : (σ.withOwn own).drops s r = false := hkeep
    have hink : ((σ.withOwn own).place s levels (Row.known rest) r).ink =
        (σ.place s levels rest r).ink := by
      rw [ink_place hkeep, ink_place hkeep', hwant]
      rfl
    rw [hink, List.append_cancel_left_eq, ht]
    refine or_congr_right' fun hs => ⟨fun hcut => ⟨hcut, ?_⟩, And.left⟩
    -- A comment that is seen only without the rows of unknown kind heads no block here.
    by_contra hcon
    obtain ⟨rfl, hown, hleads⟩ : own = true ∧ σ.own = false ∧
        leads s (r :: Row.known rest) = true := by simpa using hcon
    rw [leads_known_of_not_interrupted hr hcut] at hleads
    exact want_below hs hown (hbelow rfl) hleads hwant
  · have hnot : ¬ (s.allowedBlankLines = 0 ∨
        (!σ.own && leads s (r :: rest)) = (!own && leads s (r :: Row.known rest))) :=
      fun h => hwant (by rw [want_withOwn h])
    obtain ⟨hs, hheads⟩ := not_or.mp hnot
    have hleads : leads s (r :: Row.known rest) = true := by
      by_contra hcon
      have hnone : leads s (r :: rest) ≠ true := mt (leads_known_of_leads hr) hcon
      exact hheads (by simp [hcon, hnone])
    refine iff_of_false (ink_place_ne hkey hkeep hleads hwant t t') ?_
    rintro (hzero | ⟨hcut, hsame⟩)
    · exact hs hzero
    · rw [← leads_known_of_not_interrupted hr hcut, hleads] at hheads
      cases hown : σ.own <;> cases own <;> simp_all

/-- Rows are written as those of known kind are, exactly if there is no difference. -/
theorem verbatim_known_iff {rows : List Row} (hkey : ∀ r ∈ rows, r.Keyed) {σ : Pace} {own : Bool}
    (hle : σ.own = true → own = true) (hbelow : own = true → σ.withOwn true = .belowOwn)
    (levels : List Nat) :
    verbatim s levels σ.atStart (settle s (σ.withOwn own) (Row.known rows)) =
        verbatim s levels σ.atStart (settle s σ rows) ↔
      s.allowedBlankLines = 0 ∨ differs s σ.own own rows = false := by
  induction rows generalizing σ own levels with
  | nil => simp [Row.known, settle, verbatim, differs, interrupted, leads]
  | cons r rest ih =>
    obtain ⟨hkeyed, hrest⟩ := List.forall_mem_cons.mp hkey
    cases hr : r.isUnknown with
    | true =>
      -- Nothing is written, and only the printer at all rows forgets a comment above.
      obtain rfl := eq_unknown_of_isUnknown hr
      have hkeep : σ.drops s .unknown = false := rfl
      have hink : (σ.place s levels rest .unknown).ink = [] := by
        simp [ink_place hkeep, Pace.want, rowLead, rowText]
      have hdiffers : differs s σ.own own (.unknown :: rest) = differs s false own rest := by
        simp [differs, interrupted, isOwn, Row.isUnknown, Row.known]
      rw [verbatim_settle_cons hkeep, hink, List.nil_append, hdiffers]
      exact ih hrest (σ := σ.withOwn false) (by simp [Pace.withOwn]) hbelow levels
    | false =>
      rw [Row.known_cons hr]
      cases hdrops : σ.drops s r with
      | true =>
        -- Both printers drop the line break and forget a comment above.
        have hstop : isOwn r = false ∧ opensSpaced s r = false := by
          cases r <;> first | exact ⟨rfl, rfl⟩ | simp [Pace.drops, Row.isLineBreak] at hdrops
        have hdiffers : differs s σ.own own (r :: rest) = differs s false false rest := by
          simp [differs, interrupted, hstop, Row.known_cons hr, leads_of_not_own hstop.1]
        have hdrops' : (σ.withOwn own).drops s r = true := hdrops
        rw [settle, settle, ← Pace.drops, ← Pace.drops, if_pos hdrops, if_pos hdrops', hdiffers]
        have hbehind : (σ.withOwn false).own = true → false = true := id
        exact ih hrest hbehind (absurd · Bool.false_ne_true) levels
      | false =>
        have hle' : (σ.behind s r).own = true → isOwn r = true := by
          rw [own_behind]
          exact id
        have hbehind := ih hrest hle' (fun h => by rw [behind_of_own h]; rfl)
          (levelsBehind s levels r)
        have hown : (σ.behind s r).withOwn (isOwn r) = σ.behind s r := by
          rw [← own_behind s σ r]
          rfl
        rw [hown, own_behind, ← interrupted_cons] at hbehind
        have hdrops' : (σ.withOwn own).drops s r = false := hdrops
        have hstep : verbatim s levels σ.atStart (settle s (σ.withOwn own) (r :: Row.known rest)) =
            _ := verbatim_settle_cons hdrops' levels
        rw [behind_withOwn s own σ hr] at hstep
        rw [verbatim_settle_cons hdrops]
        exact hstep ▸ ink_place_append_iff hkeyed hr hdrops hle hbelow levels hbehind

/-- A tree is written as it is without its nodes of unknown kind, exactly if no blank lines are
allowed or no comment is cut off by such nodes from the block that it heads. -/
theorem statements_pruneAll_iff (s : Style) (tree : List Statement) :
    statements s (Statement.pruneAll tree) = statements s tree ↔
      s.allowedBlankLines = 0 ∨ interrupted s (Statement.rowsAll tree) = false := by
  have hstart : Pace.start.own = true → false = true := id
  have hiff := verbatim_known_iff (s := s) (Statement.keyed_rowsAll tree) hstart
    (absurd · Bool.false_ne_true) []
  have hdiffers : differs s false false (Statement.rowsAll tree) =
      interrupted s (Statement.rowsAll tree) := by simp [differs]
  rw [statements_pruneAll, statements_eq_verbatim, ← hdiffers]
  exact hiff

/-- Behind a command, a comment that is cut off from a definition. -/
def cutTree : List Statement :=
  [.command ['a'] [] none, .lineComment [' ', 'c'] false none, .unknown,
    .definition .functionDef ['f'] [] [] none]

example :
    statements .standard cutTree = "a()\n# c\n\nfunction(f)\nendfunction(f)".toList ∧
      statements .standard (Statement.pruneAll cutTree) =
        "a()\n\n# c\nfunction(f)\nendfunction(f)".toList := by
  decide +kernel

end Listfile.Layout
