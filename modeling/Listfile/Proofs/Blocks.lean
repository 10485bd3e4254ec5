import Listfile.Parse.Source
import Listfile.Proofs.Row
import Mathlib.Data.List.Forall2

/-! The fold of items into blocks, where it reports nothing. `Moves` says once
what an item can do to the open blocks without a report. Each such move adds one
row to the tree read so far (`Moves.rows_eq`), so that the tree of a text without
faults has one row for each of its items (`forall₂_agrees`). What the tree keeps
of an item is said by `Agrees`: all of it, but for the place of a definition's
name, the spelling of keywords, and the arguments of the commands that close
blocks. -/

namespace Listfile.Parse

/-! ### One item after the other -/

/-- The state behind an item. -/
def State.take (st : State) (i : Item) : State :=
  match i.content with
  | .statement s => (st.report i.faults).add s
  | .skipped => st.report i.faults
  | .command c => (st.report i.faults).command c

/-- What is read once the items are over. -/
def State.finish (st : State) : Reading :=
  ⟨State.closeFrames st.top [] st.frames, none, [], st.faults ++ st.frames.map (·.unterminated),
    st.depth⟩

theorem readUntil_nil_eq (st : State) (items : List Item) :
    readUntil [] st items = (items.foldl State.take st).finish := by
  induction items generalizing st with
  | nil => rfl
  | cons i rest ih =>
    rw [List.foldl_cons, ← ih, readUntil.eq_def]
    simp only [State.take]
    cases i.content <;> simp

theorem read_nil_eq (items : List Item) :
    read [] items = (items.foldl State.take .start).finish := readUntil_nil_eq .start items

/-! ### Moves without a report -/

/-- Items that a text without faults can have. -/
def Content.IsPlain : Content → Prop
  | .statement s => ∃ r, s.rows = [r]
  | .command _ => True
  | .skipped => False

/-- What an item does to the state where it is not reported. -/
inductive Moves (st : State) : Content → State → Prop
  | statement {s : Statement} {r : Row} (h : s.rows = [r]) : Moves st (.statement s) (st.add s)
  | plain {c : Command} (h : Keyword.ofName? c.name = none) :
      Moves st (.command c) (st.add (.command c.identifier c.arguments (some c.location)))
  | definition {c : Command} {kind : DefinitionKind} {name : Text} {arguments : List Argument}
      (h : Keyword.ofName? c.name = some (.opening (.definition kind)))
      (hn : takeName c.arguments = some (name, arguments)) :
      Moves st (.command c) (st.enter ⟨c, .definition kind name arguments, []⟩)
  | conditional {c : Command} (h : Keyword.ofName? c.name = some (.opening .conditional)) :
      Moves st (.command c) (st.enter ⟨c, .conditional .first, []⟩)
  | loop {c : Command} {kind : LoopKind}
      (h : Keyword.ofName? c.name = some (.opening (.loop kind))) :
      Moves st (.command c) (st.enter ⟨c, .loop kind, []⟩)
  | divide {c : Command} {divider : Divider} {f : Frame} {outer : List Frame} {arm : Arm}
      (h : Keyword.ofName? c.name = some (.dividing divider)) (hf : st.frames = f :: outer)
      (ho : f.opened = .conditional arm)
      (he : (arm.close f.command f.body.reverse).otherwise = none) :
      Moves st (.command c) { st with
        frames := ⟨f.command, .conditional (.later (arm.close f.command f.body.reverse) divider c),
          []⟩ :: outer }
  | close {c : Command} {f : Frame} {outer : List Frame}
      (h : Keyword.ofName? c.name = some (.closing f.block)) (hf : st.frames = f :: outer) :
      Moves st (.command c) ({ st with frames := outer }.add f.statement)

theorem State.report_nil (st : State) : st.report [] = st := by simp [State.report]

@[simp] theorem State.faults_add (s : Statement) (st : State) : (st.add s).faults = st.faults := by
  unfold State.add
  split <;> rfl

@[simp] theorem State.faults_enter (f : Frame) (st : State) : (st.enter f).faults = st.faults :=
  rfl

@[simp] theorem State.faults_report (faults : List Diagnostic) (st : State) :
    (st.report faults).faults = st.faults ++ faults := rfl

theorem State.faults_construct (c : Command) (st : State) :
    st.faults <+: (st.construct c).faults := by
  unfold State.construct
  split
  · split <;> simp
  all_goals simp

/-- A command reports at most something more. -/
theorem State.faults_command (c : Command) (st : State) : st.faults <+: (st.command c).faults := by
  unfold State.command
  split
  · exact State.faults_construct c st
  · split
    · simp only [State.divide]
      split <;> simp
    · split
      · simp
      · exact State.faults_construct c st
    · exact State.faults_construct c st

theorem State.faults_take (st : State) (i : Item) :
    st.faults ++ i.faults <+: (st.take i).faults := by
  unfold State.take
  split
  · simp
  · simp
  · exact State.faults_command _ (st.report i.faults)

theorem State.faults_foldl_take (st : State) (items : List Item) :
    st.faults <+: (items.foldl State.take st).faults := by
  induction items generalizing st with
  | nil => exact List.prefix_rfl
  | cons i rest ih =>
    have hi := (List.prefix_append st.faults i.faults).trans (st.faults_take i)
    exact hi.trans (ih (st.take i))

theorem moves_of_construct {st : State} {c : Command} (h : (st.construct c).faults = []) :
    Moves st (.command c) (st.construct c) := by
  unfold State.construct at h ⊢
  split at h
  · next kind hk =>
    split at h
    · next hn => simpa [hk, hn] using Moves.definition hk hn
    · simp at h
  · next hk => simpa [hk] using Moves.conditional hk
  · next hk => simpa [hk] using Moves.loop hk
  · simp at h
  · simp at h
  · next hk => simpa [hk] using Moves.plain hk

theorem moves_of_command {st : State} {c : Command} (h : (st.command c).faults = []) :
    Moves st (.command c) (st.command c) := by
  unfold State.command at h ⊢
  split at h
  · exact moves_of_construct h
  · next f outer hf =>
    split at h
    · next divider arm hk ho =>
      simp only [State.divide] at h ⊢
      split at h
      · simp at h
      · next he => simpa [hk, ho, he] using Moves.divide hk hf ho (by simpa using he)
    · next block hk =>
      split at h
      · next hb =>
        subst hb
        simpa [hk] using Moves.close hk hf
      · next hb =>
        simpa [hk, hb] using moves_of_construct h
    · exact moves_of_construct h

/-- An item that is not reported makes a move. -/
theorem moves_of_take {st : State} {i : Item} (hp : i.content.IsPlain)
    (h : (st.take i).faults = []) : Moves st i.content (st.take i) := by
  have hi : i.faults = [] := by
    have := st.faults_take i
    rw [h, List.prefix_nil, List.append_eq_nil_iff] at this
    exact this.2
  unfold State.take at h ⊢
  rw [hi, State.report_nil] at h ⊢
  split at h
  · next s hs =>
    rw [hs] at hp
    obtain ⟨r, hr⟩ := hp
    simpa [hs] using Moves.statement hr
  · next hs => simp [hs, Content.IsPlain] at hp
  · next hs => simpa [hs] using moves_of_command h

theorem command_of_moves {st st' : State} {c : Command} (h : Moves st (.command c) st') :
    st.command c = st' := by
  cases h with
  | plain h => cases hf : st.frames <;> simp [State.command, State.construct, hf, h]
  | definition h hn => cases hf : st.frames <;> simp [State.command, State.construct, hf, h, hn]
  | conditional h => cases hf : st.frames <;> simp [State.command, State.construct, hf, h]
  | loop h => cases hf : st.frames <;> simp [State.command, State.construct, hf, h]
  | divide h hf ho he => simp [State.command, State.divide, hf, h, ho, he]
  | close h hf => simp [State.command, hf, h]

theorem take_of_moves {st st' : State} {i : Item} (hi : i.faults = [])
    (h : Moves st i.content st') : st.take i = st' := by
  unfold State.take
  rw [hi, State.report_nil]
  generalize i.content = content at h
  cases content with
  | statement s => cases h; rfl
  | command c => exact command_of_moves h
  | skipped => cases h

/-! ### The rows of open blocks -/

def Chain.rows (chain : Chain) : List Row :=
  chain.head.rows (.opening .conditional) ++ Branch.rowsAll chain.elseifs ++
    match chain.otherwise with
    | none => []
    | some arm => arm.rows (.dividing .elseArm)

theorem Chain.rows_conditional (chain : Chain) :
    (Statement.conditional chain.head chain.elseifs chain.otherwise).rows =
      chain.rows ++ [.keyword (.closing .conditional) []] := by
  obtain ⟨head, elseifs, otherwise⟩ := chain
  cases otherwise <;> simp [Statement.rows, Chain.rows]

/-- A command that divides adds its row behind the complete arms. -/
theorem Chain.rows_close_later {chain : Chain} (h : chain.otherwise = none) (opener : Command)
    (divider : Divider) (c : Command) :
    ((Arm.later chain divider c).close opener []).rows =
      chain.rows ++ [.keyword (.dividing divider) c.arguments] := by
  cases divider <;>
    simp [Arm.close, Chain.rows, h, Command.branch, Branch.rows, Branch.rowsAll_append,
      Branch.rowsAll, Statement.rowsAll]

namespace Frame

/-- The rows of an open block up to where it has been read. -/
def rows (f : Frame) : List Row :=
  match f.opened with
  | .definition kind name arguments =>
    .keyword (.opening (.definition kind)) (.unquoted name :: arguments) ::
      Statement.rowsAll f.body.reverse
  | .conditional arm => (arm.close f.command f.body.reverse).rows
  | .loop kind =>
    .keyword (.opening (.loop kind)) f.command.arguments :: Statement.rowsAll f.body.reverse

/-- The row that closes a block. -/
def closeRow (f : Frame) : Row :=
  .keyword (.closing f.block) <| match f.opened with
    | .definition _ name _ => [.unquoted name]
    | _ => []

/-- No arm of a conditional stands behind its `else`. -/
def Ordered (f : Frame) : Prop :=
  ∀ before divider c, f.opened = .conditional (.later before divider c) → before.otherwise = none

theorem rows_statement (f : Frame) : f.statement.rows = f.rows ++ [f.closeRow] := by
  unfold statement rows closeRow block
  cases f.opened with
  | definition kind name arguments => simp [Statement.rows]
  | loop kind => simp [Statement.rows]
  | conditional arm => exact Chain.rows_conditional _

/-- A statement adds its rows behind those of the block it goes into. -/
theorem rows_body_cons {f : Frame} (h : f.Ordered) (s : Statement) :
    { f with body := s :: f.body }.rows = f.rows ++ s.rows := by
  obtain ⟨c, opened, body⟩ := f
  have hbody : Statement.rowsAll (s :: body).reverse =
      Statement.rowsAll body.reverse ++ s.rows := by
    simp [Statement.rowsAll_append, Statement.rowsAll]
  cases opened with
  | definition kind name arguments => simp only [rows, hbody, List.cons_append]
  | loop kind => simp only [rows, hbody, List.cons_append]
  | conditional arm =>
    cases arm with
    | first => simp [rows, Arm.close, Chain.rows, Command.branch, Branch.rows, Branch.rowsAll,
        Statement.rowsAll_append, Statement.rowsAll]
    | later before divider d =>
      have hbefore := h before divider d rfl
      cases divider <;>
        simp [rows, Arm.close, Chain.rows, Command.branch, Branch.rows, Branch.rowsAll,
          Branch.rowsAll_append, Statement.rowsAll_append, Statement.rowsAll, hbefore]

end Frame

namespace State

def rows (st : State) : List Row :=
  Statement.rowsAll st.top.reverse ++ st.frames.reverse.flatMap Frame.rows

def Ordered (st : State) : Prop := ∀ f ∈ st.frames, f.Ordered

theorem rows_add {st : State} (h : st.Ordered) (s : Statement) :
    (st.add s).rows = st.rows ++ s.rows := by
  unfold add
  split
  · next hf => simp [rows, hf, Statement.rowsAll_append, Statement.rowsAll]
  · next f outer hf =>
    have := Frame.rows_body_cons (h f (by simp [hf])) s
    simp [rows, hf, this]

theorem rows_enter (f : Frame) (st : State) : (st.enter f).rows = st.rows ++ f.rows := by
  simp [rows, enter]

theorem Ordered.add {st : State} (h : st.Ordered) (s : Statement) : (st.add s).Ordered := by
  unfold State.add
  split
  · exact h
  · next f outer hf =>
    simp only [Ordered, hf, List.forall_mem_cons] at h ⊢
    exact h

theorem Ordered.enter {st : State} (h : st.Ordered) {f : Frame} (hf : f.Ordered) :
    (st.enter f).Ordered := by
  simpa [Ordered, State.enter] using ⟨hf, h⟩

end State

/-! ### One row for each item -/

/-- What the tree keeps of an item. -/
inductive Agrees : Row → Content → Prop
  | statement {s : Statement} {r : Row} (h : s.rows = [r]) : Agrees r (.statement s)
  | plain {c : Command} (h : Keyword.ofName? c.name = none) :
      Agrees (.call none c.identifier c.arguments) (.command c)
  | definition {c : Command} {kind : DefinitionKind} {name : Text} {arguments : List Argument}
      (h : Keyword.ofName? c.name = some (.opening (.definition kind)))
      (hn : takeName c.arguments = some (name, arguments)) :
      Agrees (.keyword (.opening (.definition kind)) (.unquoted name :: arguments)) (.command c)
  | opening {c : Command} {block : BlockKind}
      (h : Keyword.ofName? c.name = some (.opening block))
      (hb : ∀ kind, block ≠ .definition kind) :
      Agrees (.keyword (.opening block) c.arguments) (.command c)
  | dividing {c : Command} {divider : Divider}
      (h : Keyword.ofName? c.name = some (.dividing divider)) :
      Agrees (.keyword (.dividing divider) c.arguments) (.command c)
  | closing {c : Command} {block : BlockKind} {arguments : List Argument}
      (h : Keyword.ofName? c.name = some (.closing block)) :
      Agrees (.keyword (.closing block) arguments) (.command c)

theorem Moves.ordered {st st' : State} {content : Content} (h : Moves st content st')
    (ho : st.Ordered) : st'.Ordered := by
  cases h with
  | statement => exact ho.add _
  | plain => exact ho.add _
  | definition => exact ho.enter (by simp [Frame.Ordered])
  | conditional => exact ho.enter (by simp [Frame.Ordered])
  | loop => exact ho.enter (by simp [Frame.Ordered])
  | divide _ hf _ he =>
    simp only [State.Ordered, hf, List.forall_mem_cons] at ho ⊢
    refine ⟨?_, ho.2⟩
    rintro before divider c ⟨⟩
    exact he
  | close _ hf =>
    simp only [State.Ordered, hf, List.forall_mem_cons] at ho
    exact @State.Ordered.add ⟨_, _, _, _⟩ ho.2 _

/-- A move adds one row, which agrees with the item. -/
theorem Moves.rows_eq {st st' : State} {content : Content} (h : Moves st content st')
    (ho : st.Ordered) : ∃ r, Agrees r content ∧ st'.rows = st.rows ++ [r] := by
  cases h with
  | statement h => exact ⟨_, .statement h, by rw [State.rows_add ho, h]⟩
  | plain h => exact ⟨_, .plain h, State.rows_add ho _⟩
  | definition h hn => exact ⟨_, .definition h hn, State.rows_enter _ _⟩
  | conditional h => exact ⟨_, .opening h (by simp), State.rows_enter _ _⟩
  | loop h => exact ⟨_, .opening h (by simp), State.rows_enter _ _⟩
  | divide h hf ho' he =>
    next c divider f outer arm =>
    refine ⟨_, .dividing h, ?_⟩
    have hrows := Chain.rows_close_later he f.command divider c
    simp [State.rows, hf, Frame.rows, ho', hrows]
  | close h hf =>
    next c f outer =>
    refine ⟨f.closeRow, .closing h, ?_⟩
    have houter : State.Ordered { st with frames := outer } := fun g hg => ho g (by simp [hf, hg])
    rw [State.rows_add houter, Frame.rows_statement]
    simp [State.rows, hf]

/-- The items of a run without a report, with their rows. -/
theorem exists_rows_foldl_take {items : List Item} (hp : ∀ i ∈ items, i.content.IsPlain)
    {st : State} (ho : st.Ordered) (h : (items.foldl State.take st).faults = []) :
    ∃ rows, List.Forall₂ Agrees rows (items.map (·.content)) ∧
      (items.foldl State.take st).rows = st.rows ++ rows := by
  induction items generalizing st with
  | nil => exact ⟨[], .nil, by simp⟩
  | cons i rest ih =>
    rw [List.foldl_cons] at h ⊢
    have hfaults : (st.take i).faults = [] :=
      List.prefix_nil.mp (h ▸ (st.take i).faults_foldl_take rest)
    have hmove := moves_of_take (hp i (by simp)) hfaults
    obtain ⟨r, hr, hrow⟩ := hmove.rows_eq ho
    obtain ⟨rows, hrows, heq⟩ := ih (fun j hj => hp j (by simp [hj])) (hmove.ordered ho) h
    exact ⟨r :: rows, .cons hr hrows, by simp [heq, hrow]⟩

/-- Nothing is reported at the end exactly if nothing was before and no block is open. -/
theorem State.finish_faults_eq_nil_iff (st : State) :
    st.finish.faults = [] ↔ st.faults = [] ∧ st.frames = [] := by
  simp [State.finish]

theorem State.finish_statements {st : State} (h : st.frames = []) :
    st.finish.statements = st.top.reverse := by
  simp [State.finish, h, State.closeFrames]

/-- The rows of a tree that is read without a report agree with the items it is read from. -/
theorem forall₂_agrees {items : List Item} (hp : ∀ i ∈ items, i.content.IsPlain)
    (h : (read [] items).faults = []) :
    List.Forall₂ Agrees (Statement.rowsAll (read [] items).statements)
      (items.map (·.content)) := by
  rw [read_nil_eq, State.finish_faults_eq_nil_iff] at h
  obtain ⟨hfaults, hframes⟩ := h
  have hstart : State.start.Ordered := by simp [State.Ordered, State.start]
  obtain ⟨rows, hrows, heq⟩ := exists_rows_foldl_take hp hstart hfaults
  rw [read_nil_eq, State.finish_statements hframes]
  rw [State.rows, hframes] at heq
  simp only [List.reverse_nil, List.flatMap_nil, List.append_nil] at heq
  rw [heq]
  exact hrows

end Listfile.Parse
