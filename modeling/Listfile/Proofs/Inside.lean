import Listfile.Proofs.Phrase

/-! An open block as a statement list of its own. While a block is open, items go
on being read into it as if they stood alone, up to the first command outside of
all inner blocks that divides or closes it (`readUntil_inside`). So the open
blocks that the fold over items keeps in a list are those that reading one
statement list inside of the other would keep on its way down. -/

namespace Listfile.Parse

/-- The names of the commands that end the statement list of a block. -/
def Frame.closers (b : Frame) : List Text :=
  match b.opened with
  | .conditional _ => ["elseif".toList, "else".toList, "endif".toList]
  | _ => [b.block.endKeyword]

/-- What was read inside of an open block that stands in a state. -/
def State.inside (st : State) (b : Frame) (around : State) : State :=
  ⟨st.frames ++ { b with body := st.top ++ b.body } :: around.frames, around.top,
    around.faults ++ st.faults, max around.depth (around.frames.length + 1 + st.depth)⟩

/-- What is read around a block, once its statement list is over. -/
def resume (closers : List Text) (b : Frame) (around : State) (r : Reading) : Reading :=
  let st : State := ⟨{ b with body := r.statements.reverse ++ b.body } :: around.frames,
    around.top, around.faults ++ r.faults,
    max around.depth (around.frames.length + 1 + r.depth)⟩
  match r.closer with
  | none => readUntil closers st []
  | some c => readUntil closers (st.command c) r.rest

/-- A command that divides or closes a block ends its statement list. -/
theorem Frame.mem_closers {b : Frame} {c : Command} {k : Keyword}
    (hk : Keyword.ofName? c.name = some k)
    (h : (∃ divider arm, k = .dividing divider ∧ b.opened = .conditional arm) ∨
      k = .closing b.block) : c.name ∈ b.closers := by
  rw [spelling_of_ofName? hk]
  obtain ⟨command, opened, body⟩ := b
  rcases h with ⟨divider, arm, rfl, rfl⟩ | rfl
  · cases divider
    · exact List.mem_cons_self
    · exact List.mem_cons_of_mem _ List.mem_cons_self
  · cases opened with
    | conditional arm => exact List.mem_cons_of_mem _ (List.mem_cons_of_mem _ List.mem_cons_self)
    | _ => exact List.mem_singleton_self _

namespace State

variable (st : State) (b : Frame) (around : State)

theorem inside_start : State.start.inside b around = around.enter b := by
  simp [inside, start, enter]

theorem inside_report (faults : List Diagnostic) :
    (st.report faults).inside b around = (st.inside b around).report faults := by
  simp [report, inside]

theorem inside_add (s : Statement) :
    (st.add s).inside b around = (st.inside b around).add s := by
  obtain ⟨frames, top, faults, depth⟩ := st
  cases frames <;> rfl

theorem inside_enter (inner : Frame) :
    (st.enter inner).inside b around = (st.inside b around).enter inner := by
  simp only [enter, inside, List.cons_append, List.length_append, List.length_cons]
  congr 1
  omega

theorem inside_construct (c : Command) :
    (st.construct c).inside b around = (st.inside b around).construct c := by
  unfold construct
  split
  · split
    · exact inside_enter st b around _
    · rw [inside_enter, inside_report]
  · exact inside_enter st b around _
  · exact inside_enter st b around _
  · rw [inside_add, inside_report]
  · rw [inside_add, inside_report]
  · exact inside_add st b around _

theorem inside_divide (divider : Divider) (c : Command) (f : Frame) (arm : Arm) :
    (st.divide divider c f arm).inside b around =
      (st.inside b around).divide divider c f arm := by
  unfold divide
  dsimp only
  split
  · rw [inside_report]
    rfl
  · rfl

/-- A command takes the innermost block. It takes the block around only if it ends its list. -/
theorem inside_command {c : Command} (h : st.frames = [] → c.name ∉ b.closers) :
    (st.command c).inside b around = (st.inside b around).command c := by
  obtain ⟨frames, top, faults, depth⟩ := st
  cases frames with
  | nil =>
    have hout := h rfl
    refine (inside_construct _ b around c).trans ?_
    -- the block around is innermost now, and `c` neither divides nor closes it
    simp only [command, inside, List.nil_append]
    split
    · next divider arm hk hopened =>
      exact absurd (Frame.mem_closers hk (.inl ⟨divider, arm, rfl, hopened⟩)) hout
    · next block hk =>
      split
      · next hblock => exact absurd (Frame.mem_closers hk (.inr (congrArg _ hblock))) hout
      · rfl
    · rfl
  | cons f outer =>
    simp only [command, inside, List.cons_append]
    split
    · exact inside_divide ⟨outer, top, faults, depth⟩ b around _ c f _
    · split
      · exact inside_add ⟨outer, top, faults, depth⟩ b around _
      · exact inside_construct _ b around c
    · exact inside_construct _ b around c

theorem closeFrames_inside (all top inner : List Statement) (frames outer : List Frame) :
    closeFrames all inner (frames ++ { b with body := top ++ b.body } :: outer) =
      closeFrames all []
        ({ b with body := (closeFrames top inner frames).reverse ++ b.body } :: outer) := by
  induction frames generalizing inner with
  | nil => simp [closeFrames]
  | cons f frames ih =>
    rw [List.cons_append, closeFrames]
    exact ih _

end State

/-- While a block is open, items are read into it as if they stood alone, until its list ends. -/
theorem readUntil_inside (closers : List Text) (st : State) (b : Frame) (around : State)
    (items : List Item) : readUntil closers (st.inside b around) items =
      resume closers b around (readUntil b.closers st items) := by
  induction items generalizing st with
  | nil =>
    simp only [readUntil, resume, State.inside, State.closeFrames_inside, List.append_assoc,
      List.map_append, List.map_cons]
    rfl
  | cons i rest ih =>
    rw [readUntil, readUntil, ← State.inside_report]
    cases hi : i.content with
    | statement s => simp only [← State.inside_add, ih]
    | skipped => simp only [ih]
    | command c =>
      generalize st.report i.faults = st
      have hopen : (st.inside b around).frames.isEmpty = false := by simp [State.inside]
      simp only [hopen, Bool.false_and, Bool.false_eq_true, if_false]
      by_cases hend : st.frames = [] ∧ c.name ∈ b.closers
      · obtain ⟨hframes, hmem⟩ := hend
        have hstop : (st.frames.isEmpty && b.closers.contains c.name) = true := by
          simp [hframes, hmem]
        rw [if_pos hstop]
        simp only [resume, State.inside, hframes, List.nil_append, List.reverse_reverse]
      · have hgo : ¬ (st.frames.isEmpty && b.closers.contains c.name) = true := by
          simpa using hend
        rw [if_neg hgo, ← ih, State.inside_command]
        exact fun hnil hmem => hend ⟨hnil, hmem⟩

/-- A block that was just opened. -/
theorem readUntil_enter (closers : List Text) (b : Frame) (around : State) (items : List Item) :
    readUntil closers (around.enter b) items =
      resume closers b around (read b.closers items) := by
  rw [← State.inside_start, readUntil_inside, read]

end Listfile.Parse
