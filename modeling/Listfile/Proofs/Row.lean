import Listfile.Tree.Keyword

/-! Trees without what layout changes, and trees as rows. The essence of a
statement list leaves out line breaks and the places of nodes. The rows of a
statement list are its commands, comments and line breaks in the order in which
they stand in a text: a block becomes the command that opens it, the rows of what
it holds, and the command that closes it. Both take a function that is applied to
the text of every line comment. -/

namespace Listfile

/-! ### Essence -/

mutual

/-- An argument without the places of its parts, with `f` applied to the text of line comments. -/
def Argument.plain (f : Text → Text) : Argument → Argument
  | .unquoted text => .unquoted text
  | .quoted text => .quoted text
  | .bracket text fence _ => .bracket text fence none
  | .group arguments => .group (Argument.plainAll f arguments)
  | .lineComment text _ => .lineComment (f text) none
  | .bracketComment text fence _ => .bracketComment text fence none
  | .unknown => .unknown

def Argument.plainAll (f : Text → Text) : List Argument → List Argument
  | [] => []
  | a :: rest => a.plain f :: Argument.plainAll f rest

end

def Statement.isLineBreak : Statement → Bool
  | .lineBreak _ => true
  | _ => false

mutual

/-- A statement without the places of its parts and without the line breaks it holds. -/
def Statement.plain (f : Text → Text) : Statement → Statement
  | .lineBreak _ => .lineBreak none
  | .lineComment text trailing _ => .lineComment (f text) trailing none
  | .bracketComment text fence trailing _ => .bracketComment text fence trailing none
  | .bracket text fence _ => .bracket text fence none
  | .command name arguments _ => .command name (Argument.plainAll f arguments) none
  | .definition kind name arguments body _ =>
    .definition kind name (Argument.plainAll f arguments) (Statement.essence f body) none
  | .conditional head elseifs none =>
    .conditional (head.plain f) (Branch.plainAll f elseifs) none
  | .conditional head elseifs (some arm) =>
    .conditional (head.plain f) (Branch.plainAll f elseifs) (some (arm.plain f))
  | .loop kind arguments body _ =>
    .loop kind (Argument.plainAll f arguments) (Statement.essence f body) none
  | .unknown => .unknown

/-- The statements of a list other than line breaks, each in its plain form. -/
def Statement.essence (f : Text → Text) : List Statement → List Statement
  | [] => []
  | s :: rest =>
    if s.isLineBreak then Statement.essence f rest else s.plain f :: Statement.essence f rest

def Branch.plain (f : Text → Text) : Branch → Branch
  | .mk predicate body _ => .mk (Argument.plainAll f predicate) (Statement.essence f body) none

def Branch.plainAll (f : Text → Text) : List Branch → List Branch
  | [] => []
  | b :: rest => b.plain f :: Branch.plainAll f rest

end

theorem Argument.plainAll_eq_map (f : Text → Text) (list : List Argument) :
    Argument.plainAll f list = list.map (Argument.plain f) := by
  induction list with
  | nil => rfl
  | cons a rest ih => rw [Argument.plainAll, ih, List.map_cons]

theorem Branch.plainAll_eq_map (f : Text → Text) (list : List Branch) :
    Branch.plainAll f list = list.map (Branch.plain f) := by
  induction list with
  | nil => rfl
  | cons b rest ih => rw [Branch.plainAll, ih, List.map_cons]

theorem Statement.essence_eq_map (f : Text → Text) (list : List Statement) :
    Statement.essence f list = (list.filter (!·.isLineBreak)).map (Statement.plain f) := by
  induction list with
  | nil => rfl
  | cons s rest ih =>
    rw [Statement.essence, ih]
    split <;> simp [*]

theorem Statement.essence_cons (f : Text → Text) (s : Statement) (list : List Statement) :
    Statement.essence f (s :: list) = Statement.essence f [s] ++ Statement.essence f list := by
  simp [Statement.essence_eq_map, ← List.map_append, ← List.filter_append]

theorem Statement.essence_reverse (f : Text → Text) (list : List Statement) :
    Statement.essence f list.reverse = (Statement.essence f list).reverse := by
  simp [Statement.essence_eq_map]

mutual

/-- Plain forms of plain forms. -/
theorem Argument.plain_plain (f g : Text → Text) :
    ∀ a : Argument, (a.plain g).plain f = a.plain (f ∘ g)
  | .unquoted _ | .quoted _ | .bracket _ _ _ | .lineComment _ _ | .bracketComment _ _ _
  | .unknown => rfl
  | .group arguments => by
    rw [Argument.plain, Argument.plain, Argument.plain, Argument.plainAll_plainAll]

theorem Argument.plainAll_plainAll (f g : Text → Text) :
    ∀ list : List Argument, Argument.plainAll f (Argument.plainAll g list) =
      Argument.plainAll (f ∘ g) list
  | [] => rfl
  | a :: rest => by
    rw [Argument.plainAll, Argument.plainAll, Argument.plainAll, Argument.plain_plain,
      Argument.plainAll_plainAll]

end

theorem Statement.isLineBreak_plain (f : Text → Text) (s : Statement) :
    (s.plain f).isLineBreak = s.isLineBreak := by
  cases s with
  | conditional head elseifs otherwise => cases otherwise <;> rfl
  | _ => rfl

mutual

theorem Statement.plain_plain (f g : Text → Text) :
    ∀ s : Statement, (s.plain g).plain f = s.plain (f ∘ g)
  | .lineBreak _ | .lineComment _ _ _ | .bracketComment _ _ _ _ | .bracket _ _ _ | .unknown => rfl
  | .command _ _ _ => by
    simp only [Statement.plain, Argument.plainAll_plainAll]
  | .definition _ _ _ body _ => by
    simp only [Statement.plain, Argument.plainAll_plainAll, Statement.essence_essence f g body]
  | .conditional head elseifs none => by
    simp only [Statement.plain, Branch.plain_plain f g head, Branch.plainAll_plainAll f g elseifs]
  | .conditional head elseifs (some arm) => by
    simp only [Statement.plain, Branch.plain_plain f g head, Branch.plainAll_plainAll f g elseifs,
      Branch.plain_plain f g arm]
  | .loop _ _ body _ => by
    simp only [Statement.plain, Argument.plainAll_plainAll, Statement.essence_essence f g body]

/-- The essence of an essence. -/
theorem Statement.essence_essence (f g : Text → Text) :
    ∀ list : List Statement,
      Statement.essence f (Statement.essence g list) = Statement.essence (f ∘ g) list
  | [] => rfl
  | s :: rest => by
    rw [Statement.essence, Statement.essence]
    split
    · exact Statement.essence_essence f g rest
    · next h =>
      rw [Statement.essence, Statement.isLineBreak_plain, if_neg h, Statement.plain_plain f g s,
        Statement.essence_essence f g rest]

theorem Branch.plain_plain (f g : Text → Text) :
    ∀ b : Branch, (b.plain g).plain f = b.plain (f ∘ g)
  | .mk _ body _ => by
    simp only [Branch.plain, Argument.plainAll_plainAll, Statement.essence_essence f g body]

theorem Branch.plainAll_plainAll (f g : Text → Text) :
    ∀ list : List Branch,
      Branch.plainAll f (Branch.plainAll g list) = Branch.plainAll (f ∘ g) list
  | [] => rfl
  | b :: rest => by
    rw [Branch.plainAll, Branch.plainAll, Branch.plainAll, Branch.plain_plain f g b,
      Branch.plainAll_plainAll f g rest]

end

/-! ### Rows -/

/-- A line break, a comment or a command, by itself. -/
inductive Row
  | lineBreak
  | lineComment (text : Text) (trailing : Bool)
  | bracketComment (text : Text) (fence : Nat) (trailing : Bool)
  | bracket (text : Text) (fence : Nat)
  /-- A command and the part it plays in a block, if any. -/
  | call (role : Option Keyword) (name : Text) (arguments : List Argument)
  | unknown

namespace Row

/-- A command that opens, divides or closes a block. -/
def keyword (k : Keyword) (arguments : List Argument) : Row := .call (some k) k.spelling arguments

def isLineBreak : Row → Bool
  | .lineBreak => true
  | _ => false

def plain (f : Text → Text) : Row → Row
  | .lineBreak => .lineBreak
  | .lineComment text trailing => .lineComment (f text) trailing
  | .bracketComment text fence trailing => .bracketComment text fence trailing
  | .bracket text fence => .bracket text fence
  | .call role name arguments => .call role name (Argument.plainAll f arguments)
  | .unknown => .unknown

@[simp] theorem isLineBreak_plain (f : Text → Text) (r : Row) :
    (r.plain f).isLineBreak = r.isLineBreak := by
  cases r <;> rfl

theorem plain_plain (f g : Text → Text) (r : Row) : (r.plain g).plain f = r.plain (f ∘ g) := by
  cases r with
  | call role name arguments => simp [plain, Argument.plainAll_plainAll]
  | _ => rfl

end Row

mutual

/-- The rows of a statement. -/
def Statement.rows : Statement → List Row
  | .lineBreak _ => [.lineBreak]
  | .lineComment text trailing _ => [.lineComment text trailing]
  | .bracketComment text fence trailing _ => [.bracketComment text fence trailing]
  | .bracket text fence _ => [.bracket text fence]
  | .command name arguments _ => [.call none name arguments]
  | .definition kind name arguments body _ =>
    .keyword (.opening (.definition kind)) (.unquoted name :: arguments) ::
      (Statement.rowsAll body ++ [.keyword (.closing (.definition kind)) [.unquoted name]])
  | .conditional head elseifs none =>
    head.rows (.opening .conditional) ++ Branch.rowsAll elseifs ++
      [.keyword (.closing .conditional) []]
  | .conditional head elseifs (some arm) =>
    head.rows (.opening .conditional) ++ Branch.rowsAll elseifs ++
      arm.rows (.dividing .elseArm) ++ [.keyword (.closing .conditional) []]
  | .loop kind arguments body _ =>
    .keyword (.opening (.loop kind)) arguments ::
      (Statement.rowsAll body ++ [.keyword (.closing (.loop kind)) []])
  | .unknown => [.unknown]

/-- The rows of a statement list. -/
def Statement.rowsAll : List Statement → List Row
  | [] => []
  | s :: rest => s.rows ++ Statement.rowsAll rest

/-- The rows of an arm: its command and the rows of its statements. -/
def Branch.rows (k : Keyword) : Branch → List Row
  | .mk predicate body _ => .keyword k predicate :: Statement.rowsAll body

def Branch.rowsAll : List Branch → List Row
  | [] => []
  | b :: rest => b.rows (.dividing .elseifArm) ++ Branch.rowsAll rest

end

theorem Statement.rowsAll_append (s t : List Statement) :
    Statement.rowsAll (s ++ t) = Statement.rowsAll s ++ Statement.rowsAll t := by
  induction s with
  | nil => rfl
  | cons a s ih => simp [Statement.rowsAll, ih]

theorem Branch.rowsAll_append (s t : List Branch) :
    Branch.rowsAll (s ++ t) = Branch.rowsAll s ++ Branch.rowsAll t := by
  induction s with
  | nil => rfl
  | cons a s ih => simp [Branch.rowsAll, ih]

/-- The rows that are no line breaks, in their plain form. -/
def Row.essence (f : Text → Text) (rows : List Row) : List Row :=
  (rows.filter (!·.isLineBreak)).map (Row.plain f)

theorem Row.essence_append (f : Text → Text) (r s : List Row) :
    Row.essence f (r ++ s) = Row.essence f r ++ Row.essence f s := by
  simp [Row.essence]

theorem Row.essence_keyword_cons (f : Text → Text) (k : Keyword) (arguments : List Argument)
    (rows : List Row) :
    Row.essence f (.keyword k arguments :: rows) =
      .keyword k (Argument.plainAll f arguments) :: Row.essence f rows := rfl

mutual

/-- The rows of the essence are the essence of the rows. -/
theorem Statement.rows_plain (f : Text → Text) :
    ∀ s : Statement, s.isLineBreak = false → (s.plain f).rows = Row.essence f s.rows
  | .lineBreak _, h => by simp [Statement.isLineBreak] at h
  | .lineComment _ _ _, _ | .bracketComment _ _ _ _, _ | .bracket _ _ _, _ | .command _ _ _, _
  | .unknown, _ => rfl
  | .definition kind name arguments body _, _ => by
    simp only [Statement.plain, Statement.rows, Row.essence_keyword_cons, Row.essence_append,
      Statement.rowsAll_essence f body]
    rfl
  | .conditional head elseifs none, _ => by
    simp only [Statement.plain, Statement.rows, Row.essence_append, Branch.rows_plain f _ head,
      Branch.rowsAll_plainAll f elseifs]
    rfl
  | .conditional head elseifs (some arm), _ => by
    simp only [Statement.plain, Statement.rows, Row.essence_append, Branch.rows_plain f _ head,
      Branch.rowsAll_plainAll f elseifs, Branch.rows_plain f _ arm]
    rfl
  | .loop kind arguments body _, _ => by
    simp only [Statement.plain, Statement.rows, Row.essence_keyword_cons, Row.essence_append,
      Statement.rowsAll_essence f body]
    rfl

theorem Statement.rowsAll_essence (f : Text → Text) :
    ∀ list : List Statement,
      Statement.rowsAll (Statement.essence f list) = Row.essence f (Statement.rowsAll list)
  | [] => rfl
  | s :: rest => by
    rw [Statement.essence, Statement.rowsAll, Row.essence_append]
    split
    · next h =>
      have hs : Row.essence f s.rows = [] := by
        cases s <;> simp_all [Statement.isLineBreak, Statement.rows, Row.essence, Row.isLineBreak]
      rw [hs, List.nil_append, Statement.rowsAll_essence f rest]
    · next h =>
      rw [Statement.rowsAll, Statement.rows_plain f s (by simpa using h),
        Statement.rowsAll_essence f rest]

theorem Branch.rows_plain (f : Text → Text) (k : Keyword) :
    ∀ b : Branch, (b.plain f).rows k = Row.essence f (b.rows k)
  | .mk predicate body _ => by
    rw [Branch.plain, Branch.rows, Branch.rows, Row.essence_keyword_cons,
      Statement.rowsAll_essence f body]

theorem Branch.rowsAll_plainAll (f : Text → Text) :
    ∀ list : List Branch,
      Branch.rowsAll (Branch.plainAll f list) = Row.essence f (Branch.rowsAll list)
  | [] => rfl
  | b :: rest => by
    rw [Branch.plainAll, Branch.rowsAll, Branch.rowsAll, Row.essence_append,
      Branch.rows_plain f _ b, Branch.rowsAll_plainAll f rest]

end

/-! ### Commands that close blocks -/

/-- A command that closes a block has no argument, or the name of the definition that it closes. -/
def Row.ClosesNamed (rows : List Row) : Prop :=
  ∀ block name list, .call (some (.closing block)) name list ∈ rows → list = [] ∨
    ∃ text rest, list = [.unquoted text] ∧ .keyword (.opening block) (.unquoted text :: rest) ∈ rows

namespace Row.ClosesNamed

theorem nil : ClosesNamed [] := by simp [ClosesNamed]

theorem append {rows more : List Row} (h : ClosesNamed rows) (h' : ClosesNamed more) :
    ClosesNamed (rows ++ more) := by
  intro block name list hmem
  rcases List.mem_append.mp hmem with hm | hm
  · rcases h block name list hm with hnil | ⟨text, rest, hl, ho⟩
    · exact .inl hnil
    · exact .inr ⟨text, rest, hl, List.mem_append_left _ ho⟩
  · rcases h' block name list hm with hnil | ⟨text, rest, hl, ho⟩
    · exact .inl hnil
    · exact .inr ⟨text, rest, hl, List.mem_append_right _ ho⟩

theorem singleton {r : Row}
    (hr : ∀ block name list, r = .call (some (.closing block)) name list → list = []) :
    ClosesNamed [r] := fun block name list hmem =>
  .inl (hr block name list (List.mem_singleton.mp hmem).symm)

/-- A command that opens or divides a block, and what follows it. -/
theorem keyword {k : Keyword} (hk : ∀ block, k ≠ .closing block) (list : List Argument)
    {rows : List Row} (h : ClosesNamed rows) : ClosesNamed (.keyword k list :: rows) :=
  (singleton (by simp [Row.keyword, hk])).append h

theorem close (block : BlockKind) : ClosesNamed [.keyword (.closing block) []] :=
  singleton (by simp [Row.keyword])

/-- A definition, from the command that opens it to the one that closes it. -/
theorem definition (block : BlockKind) (text : Text) (list : List Argument) {rows : List Row}
    (h : ClosesNamed rows) :
    ClosesNamed (.keyword (.opening block) (.unquoted text :: list) ::
      (rows ++ [.keyword (.closing block) [.unquoted text]])) := by
  intro block' name list' hmem
  rw [← List.cons_append] at hmem ⊢
  rcases List.mem_append.mp hmem with hm | hm
  · rcases h.keyword (by simp) _ block' name list' hm with hnil | ⟨text', rest, hl, ho⟩
    · exact .inl hnil
    · exact .inr ⟨text', rest, hl, List.mem_append_left _ ho⟩
  · obtain ⟨hblock, -, rfl⟩ : block' = block ∧ name = _ ∧ list' = [.unquoted text] := by
      simpa [Row.keyword] using hm
    exact .inr ⟨text, list, rfl, by simp [hblock]⟩

end Row.ClosesNamed

mutual

theorem Statement.closesNamed_rows : ∀ s : Statement, Row.ClosesNamed s.rows
  | .lineBreak _ | .lineComment _ _ _ | .bracketComment _ _ _ _ | .bracket _ _ _ | .command _ _ _
  | .unknown => .singleton (by simp)
  | .definition _ name arguments body _ =>
    .definition _ name arguments (Statement.closesNamed_rowsAll body)
  | .conditional head elseifs none =>
    ((Branch.closesNamed_rows (.opening .conditional) (by simp) head).append
      (Branch.closesNamed_rowsAll elseifs)).append (.close _)
  | .conditional head elseifs (some arm) =>
    (((Branch.closesNamed_rows (.opening .conditional) (by simp) head).append
      (Branch.closesNamed_rowsAll elseifs)).append
        (Branch.closesNamed_rows (.dividing .elseArm) (by simp) arm)).append (.close _)
  | .loop _ arguments body _ =>
    .keyword (by simp) arguments ((Statement.closesNamed_rowsAll body).append (.close _))

theorem Statement.closesNamed_rowsAll :
    ∀ list : List Statement, Row.ClosesNamed (Statement.rowsAll list)
  | [] => .nil
  | s :: rest => (Statement.closesNamed_rows s).append (Statement.closesNamed_rowsAll rest)

theorem Branch.closesNamed_rows (k : Keyword) (hk : ∀ block, k ≠ .closing block) :
    ∀ b : Branch, Row.ClosesNamed (b.rows k)
  | .mk predicate body _ => .keyword hk predicate (Statement.closesNamed_rowsAll body)

theorem Branch.closesNamed_rowsAll :
    ∀ list : List Branch, Row.ClosesNamed (Branch.rowsAll list)
  | [] => .nil
  | b :: rest =>
    (Branch.closesNamed_rows (.dividing .elseifArm) (by simp) b).append
      (Branch.closesNamed_rowsAll rest)

end

end Listfile
