import Listfile.Proofs.Blocks

/-! Places in a source text. Trees, reports and open blocks carry the places of
the tokens they were read from, and nothing that reading does depends on them:
changing the places of all items, with a function on locations and one on spans,
changes the places in what is read and nothing else (`read_relocate`). Where the
places of tokens change in step with the places of a line index, the items are the
items of the changed tokens (`Maps.items_relocate`). -/

namespace Listfile

variable (f : Location → Location) (g : Span → Span)

/-! ### Trees -/

mutual

/-- An argument with other places. -/
def Argument.relocate : Argument → Argument
  | .unquoted text => .unquoted text
  | .quoted text => .quoted text
  | .bracket text fence location => .bracket text fence (location.map f)
  | .group arguments => .group (Argument.relocateAll arguments)
  | .lineComment text location => .lineComment text (location.map f)
  | .bracketComment text fence location => .bracketComment text fence (location.map f)
  | .unknown => .unknown

def Argument.relocateAll : List Argument → List Argument
  | [] => []
  | a :: rest => a.relocate :: Argument.relocateAll rest

end

mutual

/-- A statement with other places. -/
def Statement.relocate : Statement → Statement
  | .lineBreak location => .lineBreak (location.map f)
  | .lineComment text trailing location => .lineComment text trailing (location.map f)
  | .bracketComment text fence trailing location =>
    .bracketComment text fence trailing (location.map f)
  | .bracket text fence location => .bracket text fence (location.map f)
  | .command name arguments location =>
    .command name (Argument.relocateAll f arguments) (location.map f)
  | .definition kind name arguments body location =>
    .definition kind name (Argument.relocateAll f arguments) (Statement.relocateAll body)
      (location.map f)
  | .conditional head elseifs none => .conditional head.relocate (Branch.relocateAll elseifs) none
  | .conditional head elseifs (some arm) =>
    .conditional head.relocate (Branch.relocateAll elseifs) (some arm.relocate)
  | .loop kind arguments body location =>
    .loop kind (Argument.relocateAll f arguments) (Statement.relocateAll body) (location.map f)
  | .unknown => .unknown

def Statement.relocateAll : List Statement → List Statement
  | [] => []
  | s :: rest => s.relocate :: Statement.relocateAll rest

def Branch.relocate : Branch → Branch
  | .mk predicate body location =>
    .mk (Argument.relocateAll f predicate) (Statement.relocateAll body) (location.map f)

def Branch.relocateAll : List Branch → List Branch
  | [] => []
  | b :: rest => b.relocate :: Branch.relocateAll rest

end

def Diagnostic.relocate (d : Diagnostic) : Diagnostic := { d with span := g d.span }

def Token.relocate (t : Token) : Token := { t with span := g t.span }

theorem Argument.relocateAll_eq_map (list : List Argument) :
    Argument.relocateAll f list = list.map (Argument.relocate f) := by
  induction list with
  | nil => rfl
  | cons a rest ih => rw [Argument.relocateAll, ih, List.map_cons]

theorem Statement.relocateAll_eq_map (list : List Statement) :
    Statement.relocateAll f list = list.map (Statement.relocate f) := by
  induction list with
  | nil => rfl
  | cons s rest ih => rw [Statement.relocateAll, ih, List.map_cons]

theorem Branch.relocateAll_eq_map (list : List Branch) :
    Branch.relocateAll f list = list.map (Branch.relocate f) := by
  induction list with
  | nil => rfl
  | cons b rest ih => rw [Branch.relocateAll, ih, List.map_cons]

theorem Statement.relocate_conditional (head : Branch) (elseifs : List Branch)
    (otherwise : Option Branch) :
    (Statement.conditional head elseifs otherwise).relocate f =
      .conditional (head.relocate f) (Branch.relocateAll f elseifs)
        (otherwise.map (Branch.relocate f)) := by
  cases otherwise <;> rfl

theorem Argument.literal?_relocate (a : Argument) : (a.relocate f).literal? = a.literal? := by
  cases a <;> rfl

namespace Parse

/-! ### Open blocks -/

def Command.relocate (c : Command) : Command :=
  ⟨c.identifier, Argument.relocateAll f c.arguments, g c.span, f c.location⟩

def Content.relocate : Content → Content
  | .statement s => .statement (s.relocate f)
  | .command c => .command (c.relocate f g)
  | .skipped => .skipped

/-- An item without the tokens it was read from; it is read as the item is. -/
def Item.forget (i : Item) : Item := ⟨i.content, i.faults, [], []⟩

/-- An item with other places, without its tokens. -/
def Item.relocate (i : Item) : Item :=
  ⟨i.content.relocate f g, i.faults.map (Diagnostic.relocate g), [], []⟩

def Chain.relocate (chain : Chain) : Chain :=
  ⟨chain.head.relocate f, Branch.relocateAll f chain.elseifs,
    chain.otherwise.map (Branch.relocate f)⟩

def Arm.relocate : Arm → Arm
  | .first => .first
  | .later before divider c => .later (before.relocate f) divider (c.relocate f g)

def Opened.relocate : Opened → Opened
  | .definition kind name arguments => .definition kind name (Argument.relocateAll f arguments)
  | .conditional arm => .conditional (arm.relocate f g)
  | .loop kind => .loop kind

def Frame.relocate (b : Frame) : Frame :=
  ⟨b.command.relocate f g, b.opened.relocate f g, Statement.relocateAll f b.body⟩

def State.relocate (st : State) : State :=
  ⟨st.frames.map (Frame.relocate f g), Statement.relocateAll f st.top,
    st.faults.map (Diagnostic.relocate g), st.depth⟩

variable {f g}

@[simp] theorem Command.name_relocate (c : Command) : (c.relocate f g).name = c.name := rfl

@[simp] theorem Frame.block_relocate (b : Frame) : (b.relocate f g).block = b.block := by
  obtain ⟨c, opened, body⟩ := b
  cases opened <;> rfl

theorem Statement.relocateAll_reverse (body : List Statement) :
    Statement.relocateAll f body.reverse = (Statement.relocateAll f body).reverse := by
  rw [Statement.relocateAll_eq_map, Statement.relocateAll_eq_map, List.map_reverse]

theorem Arm.relocate_close (arm : Arm) (c : Command) (body : List Statement) :
    (arm.close c body).relocate f =
      (arm.relocate f g).close (c.relocate f g) (Statement.relocateAll f body) := by
  cases arm with
  | first => rfl
  | later before divider d =>
    cases divider with
    | elseifArm =>
      simp [Arm.close, Arm.relocate, Chain.relocate, Branch.relocateAll_eq_map, Command.branch,
        Branch.relocate, Command.relocate]
    | elseArm => rfl

theorem Frame.relocate_statement (b : Frame) :
    b.statement.relocate f = (b.relocate f g).statement := by
  obtain ⟨c, opened, body⟩ := b
  cases opened with
  | definition kind name arguments =>
    simp only [Frame.statement, Frame.relocate, Opened.relocate, ← Statement.relocateAll_reverse]
    rfl
  | conditional arm =>
    simp only [Frame.statement, Frame.relocate, Opened.relocate, ← Statement.relocateAll_reverse,
      ← Arm.relocate_close, Statement.relocate_conditional]
    rfl
  | loop kind =>
    simp only [Frame.statement, Frame.relocate, Opened.relocate, ← Statement.relocateAll_reverse]
    rfl

theorem Frame.relocate_unterminated (b : Frame) :
    b.unterminated.relocate g = (b.relocate f g).unterminated := by
  rw [Frame.unterminated, Frame.unterminated, Frame.block_relocate]
  rfl

theorem takeName_relocateAll (list : List Argument) :
    takeName (Argument.relocateAll f list) =
      (takeName list).map fun p => (p.1, Argument.relocateAll f p.2) := by
  induction list with
  | nil => rfl
  | cons a rest ih =>
    rw [Argument.relocateAll, takeName, takeName, Argument.literal?_relocate]
    split
    · rfl
    · rw [ih]
      cases takeName rest <;> rfl

/-! ### The fold -/

namespace State

variable (st : State)

theorem relocate_report (faults : List Diagnostic) :
    (st.report faults).relocate f g =
      (st.relocate f g).report (faults.map (Diagnostic.relocate g)) := by
  simp [report, relocate]

theorem relocate_add (s : Statement) :
    (st.add s).relocate f g = (st.relocate f g).add (s.relocate f) := by
  obtain ⟨frames, top, faults, depth⟩ := st
  cases frames <;> rfl

theorem relocate_enter (b : Frame) :
    (st.enter b).relocate f g = (st.relocate f g).enter (b.relocate f g) := by
  simp [enter, relocate]

theorem relocate_construct (c : Command) :
    (st.construct c).relocate f g = (st.relocate f g).construct (c.relocate f g) := by
  unfold construct
  rw [Command.name_relocate]
  split
  · have hname : takeName (c.relocate f g).arguments = _ := takeName_relocateAll c.arguments
    rw [hname]
    cases takeName c.arguments with
    | none =>
      simp only [Option.map_none, relocate_enter, relocate_report]
      rfl
    | some p =>
      simp only [Option.map_some, relocate_enter]
      rfl
  · exact relocate_enter st _
  · exact relocate_enter st _
  · rw [relocate_add, relocate_report]
    rfl
  · rw [relocate_add, relocate_report]
    rfl
  · rw [relocate_add]
    rfl

theorem relocate_divide (divider : Divider) (c : Command) (b : Frame) (arm : Arm) :
    (st.divide divider c b arm).relocate f g =
      (st.relocate f g).divide divider (c.relocate f g) (b.relocate f g) (arm.relocate f g) := by
  have hclose : (arm.close b.command b.body.reverse).relocate f =
      (arm.relocate f g).close (b.relocate f g).command (b.relocate f g).body.reverse := by
    rw [Arm.relocate_close, Statement.relocateAll_reverse]
    rfl
  have hother : ((arm.close b.command b.body.reverse).relocate f).otherwise.isSome =
      (arm.close b.command b.body.reverse).otherwise.isSome := by
    simp [Chain.relocate]
  simp only [divide, ← hclose, hother]
  split <;> simp [relocate, report, Frame.relocate, Opened.relocate, Arm.relocate,
    Statement.relocateAll, Diagnostic.relocate, Diagnostic.ofCode, Command.relocate]

theorem relocate_command (c : Command) :
    (st.command c).relocate f g = (st.relocate f g).command (c.relocate f g) := by
  obtain ⟨frames, top, faults, depth⟩ := st
  cases frames with
  | nil => exact relocate_construct _ c
  | cons b outer =>
    have hconstruct := relocate_construct (f := f) (g := g) ⟨b :: outer, top, faults, depth⟩ c
    obtain ⟨d, opened, body⟩ := b
    simp only [command, relocate, List.map_cons, Command.name_relocate, Frame.relocate]
    rcases Keyword.ofName? c.name with _ | block | divider | block
    · exact hconstruct
    · exact hconstruct
    · cases opened with
      | conditional arm =>
        exact relocate_divide ⟨outer, top, faults, depth⟩ divider c ⟨d, .conditional arm, body⟩ arm
      | definition kind name arguments => exact hconstruct
      | loop kind => exact hconstruct
    · have hblock : Frame.block ⟨d.relocate f g, opened.relocate f g,
          Statement.relocateAll f body⟩ = Frame.block ⟨d, opened, body⟩ :=
        Frame.block_relocate ⟨d, opened, body⟩
      dsimp only
      rw [hblock]
      split
      · refine (relocate_add (f := f) (g := g) ⟨outer, top, faults, depth⟩ _).trans ?_
        rw [Frame.relocate_statement (g := g)]
        rfl
      · exact hconstruct

theorem relocate_take (i : Item) :
    (st.take i).relocate f g = (st.relocate f g).take (i.relocate f g) := by
  obtain ⟨content, faults, start, rest⟩ := i
  cases content with
  | statement s => exact (relocate_add _ s).trans (by rw [relocate_report]; rfl)
  | skipped => exact relocate_report st faults
  | command c => exact (relocate_command _ c).trans (by rw [relocate_report]; rfl)

/-- Items with other places are read to the same, with other places. -/
theorem relocate_foldl_take (items : List Item) :
    (items.foldl State.take st).relocate f g =
      (items.map (Item.relocate f g)).foldl State.take (st.relocate f g) := by
  induction items generalizing st with
  | nil => rfl
  | cons i rest ih => rw [List.foldl_cons, ih, relocate_take, List.map_cons, List.foldl_cons]

theorem relocateAll_closeFrames (top inner : List Statement) (frames : List Frame) :
    Statement.relocateAll f (closeFrames top inner frames) =
      closeFrames (Statement.relocateAll f top) (Statement.relocateAll f inner)
        (frames.map (Frame.relocate f g)) := by
  induction frames generalizing inner with
  | nil =>
    simp only [closeFrames, List.map_nil, Statement.relocateAll_reverse]
    simp only [Statement.relocateAll_eq_map, List.map_append]
  | cons b outer ih =>
    rw [closeFrames, ih, List.map_cons, closeFrames, Statement.relocateAll,
      Frame.relocate_statement (g := g)]
    simp only [Frame.relocate, Statement.relocateAll_eq_map, List.map_append]
    rfl

end State

/-- What is read of items with other places is what is read of the items, with other places. -/
theorem read_relocate (items : List Item) :
    (read [] (items.map (Item.relocate f g))).statements =
        Statement.relocateAll f (read [] items).statements ∧
      (read [] (items.map (Item.relocate f g))).faults =
        (read [] items).faults.map (Diagnostic.relocate g) ∧
      (read [] (items.map (Item.relocate f g))).depth = (read [] items).depth := by
  have hstate := State.relocate_foldl_take (f := f) (g := g) .start items
  have hstart : State.start.relocate f g = .start := rfl
  rw [hstart] at hstate
  rw [read_nil_eq, read_nil_eq, ← hstate]
  generalize items.foldl State.take .start = st
  refine ⟨(State.relocateAll_closeFrames st.top [] st.frames).symm, ?_, rfl⟩
  have hopen (b : Frame) : (b.relocate f g).unterminated = b.unterminated.relocate g :=
    b.relocate_unterminated.symm
  simp [State.finish, State.relocate, hopen]

/-- Reading does not look at the tokens that items were read from. -/
theorem foldl_take_forget (items : List Item) (st : State) :
    (items.map Item.forget).foldl State.take st = items.foldl State.take st :=
  List.foldl_map

theorem read_forget (items : List Item) : read [] (items.map Item.forget) = read [] items := by
  rw [read_nil_eq, read_nil_eq, foldl_take_forget]

/-! ### Tokens -/

/-- What stands at a place in one text stands at the place that `f` and `g` give in another. -/
structure Maps (f : Location → Location) (g : Span → Span) (lines lines' : LineIndex) : Prop where
  location (s : Span) : lines'.location (g s).start = f (lines.location s.start)
  cover (s t : Span) : g (s.cover t) = (g s).cover (g t)

def OpenGroup.relocate (f : Location → Location) (g : Span → Span) (group : OpenGroup) :
    OpenGroup :=
  ⟨group.paren.relocate g, Argument.relocateAll f group.read⟩

def Enclosed.relocate (f : Location → Location) (g : Span → Span) (e : Enclosed) : Enclosed :=
  ⟨Argument.relocateAll f e.arguments, g e.stop, e.rest.map (Token.relocate g),
    e.faults.map (Diagnostic.relocate g)⟩

def Step.relocate (f : Location → Location) (g : Span → Span) (s : Step) : Step :=
  ⟨s.content.relocate f g, s.faults.map (Diagnostic.relocate g), s.rest.map (Token.relocate g)⟩

theorem Argument.relocateAll_reverse (list : List Argument) :
    Argument.relocateAll f list.reverse = (Argument.relocateAll f list).reverse := by
  rw [Argument.relocateAll_eq_map, Argument.relocateAll_eq_map, List.map_reverse]

theorem closeAll_relocate (inner : List Argument) (outer : List OpenGroup) :
    closeAll (Argument.relocateAll f inner) (outer.map (OpenGroup.relocate f g)) =
      Argument.relocateAll f (closeAll inner outer) := by
  induction outer generalizing inner with
  | nil => exact (Argument.relocateAll_reverse inner).symm
  | cons group outer ih =>
    rw [List.map_cons, closeAll, closeAll, ← ih, Argument.relocateAll, Argument.relocate,
      Argument.relocateAll_reverse]
    rfl

@[simp] theorem kind_relocate (t : Token) : (t.relocate g).kind = t.kind := rfl

theorem skipLine_relocate (opened tokens : List Token) :
    skipLine (opened.map (Token.relocate g)) (tokens.map (Token.relocate g)) =
      ((skipLine opened tokens).1.map (Token.relocate g),
        (skipLine opened tokens).2.map (Diagnostic.relocate g)) := by
  induction tokens generalizing opened with
  | nil => simp [skipLine, unterminated, Diagnostic.relocate, Diagnostic.ofCode, Token.relocate]
  | cons t rest ih =>
    rw [List.map_cons, skipLine, skipLine, kind_relocate, List.isEmpty_map]
    cases t.kind <;> simp only [ih, ← List.map_cons, ← List.map_tail]
    split <;> rfl

theorem Step.relocate_skip (fault : Diagnostic) (tokens : List Token) :
    (Step.skip fault tokens).relocate f g =
      .skip (fault.relocate g) (tokens.map (Token.relocate g)) := by
  have hskip := skipLine_relocate (g := g) [] tokens
  rw [List.map_nil] at hskip
  simp only [Step.skip, hskip]
  rfl

theorem dropLineBreak_relocate (tokens : List Token) :
    dropLineBreak (tokens.map (Token.relocate g)) =
      (dropLineBreak tokens).map (Token.relocate g) := by
  cases tokens with
  | nil => rfl
  | cons t rest =>
    rw [List.map_cons, dropLineBreak, dropLineBreak, kind_relocate]
    split <;> rfl

section Maps
variable {lines lines' : LineIndex} (h : Maps f g lines lines')
include h

theorem Maps.argument?_relocate (t : Token) :
    argument? lines' (t.relocate g) = (argument? lines t).map (Argument.relocate f) := by
  have hplace : lines'.location (t.relocate g).span.start = f (lines.location t.span.start) :=
    h.location t.span
  rw [argument?, argument?, hplace, kind_relocate]
  cases t.kind <;> rfl

theorem Maps.enclosed_relocate (stop : Span) (group : OpenGroup) (outer : List OpenGroup)
    (tokens : List Token) :
    enclosed lines' (g stop) (group.relocate f g) (outer.map (OpenGroup.relocate f g))
        (tokens.map (Token.relocate g)) =
      (enclosed lines stop group outer tokens).relocate f g := by
  fun_induction enclosed lines stop group outer tokens with
  | case1 group outer =>
    simp [enclosed, Enclosed.relocate, OpenGroup.relocate, unterminated, Diagnostic.relocate,
      Diagnostic.ofCode, Token.relocate]
    exact closeAll_relocate group.read outer
  | case2 group t rest hk =>
    rw [List.map_cons, enclosed.eq_def]
    simp [hk, Enclosed.relocate, Argument.relocateAll_reverse, OpenGroup.relocate, Token.relocate]
  | case3 group t rest hk next outer ih =>
    rw [List.map_cons, enclosed.eq_def]
    simp only [kind_relocate, hk, List.map_cons, ← ih]
    simp only [OpenGroup.relocate, Argument.relocateAll, Argument.relocate,
      Argument.relocateAll_reverse]
  | case4 group outer t rest hk ih =>
    rw [List.map_cons, enclosed.eq_def]
    simp only [kind_relocate, hk, ← ih]
    rfl
  | case5 group outer t rest a ha hc ho ih =>
    rw [List.map_cons, enclosed.eq_def]
    simp only [kind_relocate, h.argument?_relocate, ha, Option.map_some, ← ih]
    rfl
  | case6 group outer t rest ha hc ho ih =>
    rw [List.map_cons, enclosed.eq_def]
    simp only [kind_relocate, h.argument?_relocate, ha, Option.map_none, ← ih]

theorem Maps.commandStep_relocate (stop : Span) (t : Token) (rest : List Token) :
    commandStep lines' (g stop) (t.relocate g) (rest.map (Token.relocate g)) =
      (commandStep lines stop t rest).relocate f g := by
  have hplace : lines'.location (t.relocate g).span.start = f (lines.location t.span.start) :=
    h.location t.span
  have htext : (t.relocate g).text = t.text := rfl
  unfold commandStep
  rw [htext, hplace]
  split
  · cases rest with
    | nil => exact (Step.relocate_skip (.ofCode .expectedOpenParen t.span) []).symm
    | cons p inner =>
      rw [List.map_cons]
      dsimp only
      rw [kind_relocate]
      split
      · have henclosed := h.enclosed_relocate stop ⟨p, []⟩ [] inner
        have hgroup : OpenGroup.relocate f g ⟨p, []⟩ = ⟨p.relocate g, []⟩ := rfl
        rw [hgroup, List.map_nil] at henclosed
        rw [henclosed]
        simp only [Step.relocate, Content.relocate, Command.relocate, Enclosed.relocate, h.cover]
        rfl
      · exact (Step.relocate_skip (.ofCode .expectedOpenParen t.span) (p :: inner)).symm
  · exact (Step.relocate_skip (unexpected t) rest).symm

theorem Maps.step_relocate (stop : Span) (t : Token) (rest : List Token) :
    step lines' (g stop) (t.relocate g) (rest.map (Token.relocate g)) =
      (step lines stop t rest).relocate f g := by
  have hplace : lines'.location (t.relocate g).span.start = f (lines.location t.span.start) :=
    h.location t.span
  have hskip : Step.skip (unexpected (t.relocate g))
      (t.relocate g :: rest.map (Token.relocate g)) =
      (Step.skip (unexpected t) (t :: rest)).relocate f g :=
    (Step.relocate_skip (unexpected t) (t :: rest)).symm
  rw [step, step, kind_relocate]
  cases t.kind with
  | lineBreak =>
    simp only [hplace]
    rfl
  | lineComment =>
    simp only [lineComment, hplace, dropLineBreak_relocate]
    rfl
  | bracketComment =>
    simp only [bracketComment, hplace]
    rfl
  | unquoted => exact h.commandStep_relocate stop t rest
  | _ => exact hskip

/-- The items of tokens with other places are the items of the tokens, with other places. -/
theorem Maps.items_relocate (stop : Span) (tokens : List Token) :
    (items lines' (g stop) (tokens.map (Token.relocate g))).map Item.forget =
      (items lines stop tokens).map (Item.relocate f g) := by
  fun_induction items lines stop tokens with
  | case1 => simp [items]
  | case2 t rest s ih =>
    rw [List.map_cons, items, h.step_relocate, List.map_cons, List.map_cons, ← ih]
    rfl

end Maps

end Parse

end Listfile
