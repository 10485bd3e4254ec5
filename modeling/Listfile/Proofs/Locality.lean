import Listfile.Proofs.Nesting
import Listfile.Proofs.Reports
import Listfile.Proofs.Seam

/-! Reading is local. A text that ends with a line, and in which nothing ran into
the end of the source, is read to the same whatever is written behind it. No item
reaches over the end of its last line (`items_append`), and with no block left
open the rest is read as if it stood alone, further down
(`State.onto_foldl_take`). So the statements and the reports of both texts, one
after the other, are those of the joined text (`parse_append`). -/

namespace Listfile

open Token

/-- Reports that something was still open at the end of the source. -/
def Diagnostic.Code.isUnterminated : Code → Bool
  | .unterminatedQuoted | .unterminatedBracket | .unterminatedArguments | .unterminatedBlock =>
    true
  | _ => false

namespace Parse

/-! ### Items -/

section Items
variable {lines lines' : LineIndex} {stop : Span} (stop' : Span) (more : List Token)

theorem argument?_congr {t : Token}
    (h : lines'.location t.span.start = lines.location t.span.start) :
    argument? lines' t = argument? lines t := by
  rw [argument?, argument?, h]

/-- An argument list that is closed does not depend on what follows. -/
theorem enclosed_append {group : OpenGroup} {outer : List OpenGroup} {tokens : List Token}
    (hplace : ∀ t ∈ tokens, lines'.location t.span.start = lines.location t.span.start)
    (h : (enclosed lines stop group outer tokens).faults = []) :
    enclosed lines' stop' group outer (tokens ++ more) =
      { enclosed lines stop group outer tokens with
        rest := (enclosed lines stop group outer tokens).rest ++ more } := by
  fun_induction enclosed lines stop group outer tokens with
  | case1 => simp at h
  | case2 group t rest hk => rw [List.cons_append, enclosed_close_last _ _ _ _ hk]
  | case3 group t rest hk next outer ih =>
    rw [List.cons_append, enclosed_close _ _ _ _ _ hk, ih (List.forall_mem_cons.mp hplace).2 h]
  | case4 group outer t rest hk ih =>
    rw [List.cons_append, enclosed_open _ _ _ _ _ hk, ih (List.forall_mem_cons.mp hplace).2 h]
  | case5 group outer t rest a ha hc ho ih =>
    obtain ⟨ht, hrest⟩ := List.forall_mem_cons.mp hplace
    rw [List.cons_append, enclosed_leaf _ _ _ _ _ (argument?_congr ht ▸ ha), ih hrest h]
  | case6 group outer t rest ha hc ho ih =>
    obtain ⟨ht, hrest⟩ := List.forall_mem_cons.mp hplace
    rw [List.cons_append, enclosed.eq_def]
    simp only [argument?_congr ht, ha, ih hrest h]

/-- What is left behind the front of tokens that end with a line break ends with one. -/
theorem forall_getLast?_of_suffix {rest tokens : List Token} (h : rest <:+ tokens)
    (hlast : ∀ t ∈ tokens.getLast?, t.kind = .lineBreak) :
    ∀ t ∈ rest.getLast?, t.kind = .lineBreak := by
  obtain ⟨front, rfl⟩ := h
  intro t ht
  apply hlast
  rw [List.getLast?_append, ht]
  rfl

theorem rest_ne_nil {t : Token} {rest : List Token}
    (hlast : ∀ u ∈ (t :: rest).getLast?, u.kind = .lineBreak) (hk : t.kind ≠ .lineBreak) :
    rest ≠ [] := by
  rintro rfl
  exact hk (hlast t rfl)

/-- A line is skipped up to its end, whatever follows. -/
theorem skipLine_append {opened tokens : List Token}
    (hlast : ∀ t ∈ tokens.getLast?, t.kind = .lineBreak) (hne : tokens = [] → opened ≠ [])
    (h : (skipLine opened tokens).2 = []) :
    skipLine opened (tokens ++ more) = ((skipLine opened tokens).1 ++ more, []) := by
  have hbehind {t : Token} {rest : List Token}
      (hlast : ∀ u ∈ (t :: rest).getLast?, u.kind = .lineBreak) :
      ∀ u ∈ rest.getLast?, u.kind = .lineBreak :=
    forall_getLast?_of_suffix (List.suffix_cons t rest) hlast
  fun_induction skipLine opened tokens with
  | case1 opened =>
    have hopen : opened = [] := by simpa using h
    exact absurd hopen (hne rfl)
  | case2 opened t rest hk hopen =>
    rw [List.cons_append, skipLine.eq_def]
    simp only [hk, hopen, if_true]
  | case3 opened t rest hk hopen ih =>
    rw [List.cons_append, skipLine.eq_def]
    simp only [hk, hopen]
    exact ih (hbehind hlast) (fun _ => by simpa using hopen) h
  | case4 opened t rest hk ih =>
    rw [List.cons_append, skipLine.eq_def]
    simp only [hk]
    exact ih (hbehind hlast) (fun _ => List.cons_ne_nil _ _) h
  | case5 opened t rest hk ih =>
    rw [List.cons_append, skipLine.eq_def]
    simp only [hk]
    exact ih (hbehind hlast) (fun hnil => absurd hnil (rest_ne_nil hlast (by simp [hk]))) h
  | case6 opened t rest hb ho hc ih =>
    rw [List.cons_append, skipLine.eq_def]
    simp only
    exact ih (hbehind hlast) (fun hnil => absurd hnil (rest_ne_nil hlast hb)) h

/-- Nothing in a step ran into the end of the source. -/
def Step.Complete (s : Step) : Prop := ∀ d ∈ s.faults, d.code ≠ .unterminatedArguments

theorem enclosed_faults_eq_nil {group : OpenGroup} {outer : List OpenGroup} {tokens : List Token}
    (h : ∀ d ∈ (enclosed lines stop group outer tokens).faults,
      d.code ≠ .unterminatedArguments) :
    (enclosed lines stop group outer tokens).faults = [] := by
  refine List.eq_nil_iff_forall_not_mem.mpr fun d hd => ?_
  obtain ⟨t, -, rfl⟩ := mem_enclosed_faults hd
  exact h _ hd rfl

theorem skipLine_faults_eq_nil {fault : Diagnostic} {tokens : List Token}
    (h : (Step.skip fault tokens).Complete) : (skipLine [] tokens).2 = [] := by
  refine List.eq_nil_iff_forall_not_mem.mpr fun d hd => ?_
  obtain ⟨t, -, rfl⟩ := mem_skipLine_faults hd
  exact h _ (List.mem_cons_of_mem fault hd) rfl

/-- The same step with more tokens behind what is left. -/
def Step.before (more : List Token) (s : Step) : Step := { s with rest := s.rest ++ more }

theorem Step.skip_append {fault : Diagnostic} {tokens : List Token} (hne : tokens ≠ [])
    (hlast : ∀ t ∈ tokens.getLast?, t.kind = .lineBreak)
    (h : (Step.skip fault tokens).Complete) :
    Step.skip fault (tokens ++ more) = (Step.skip fault tokens).before more := by
  have hfaults := skipLine_faults_eq_nil h
  have hskip := skipLine_append more hlast (fun hnil => absurd hnil hne) hfaults
  simp only [Step.skip, hskip, Step.before, hfaults]

theorem commandStep_append {t : Token} {rest : List Token} (hne : rest ≠ [])
    (hplace : ∀ u ∈ t :: rest, lines'.location u.span.start = lines.location u.span.start)
    (hlast : ∀ u ∈ rest.getLast?, u.kind = .lineBreak)
    (h : (commandStep lines stop t rest).Complete) :
    commandStep lines' stop' t (rest ++ more) = (commandStep lines stop t rest).before more := by
  obtain ⟨ht, hrest⟩ := List.forall_mem_cons.mp hplace
  revert h
  unfold commandStep
  split
  · cases rest with
    | nil => contradiction
    | cons p inner =>
      dsimp only [List.cons_append]
      split
      · intro h
        have henclosed := enclosed_append stop' more (List.forall_mem_cons.mp hrest).2
          (enclosed_faults_eq_nil h)
        rw [henclosed, ht]
        rfl
      · exact Step.skip_append more hne hlast
  · exact Step.skip_append more hne hlast

/-- An item does not depend on what stands behind the last line break. -/
theorem step_append {t : Token} {rest : List Token}
    (hplace : ∀ u ∈ t :: rest, lines'.location u.span.start = lines.location u.span.start)
    (hlast : ∀ u ∈ (t :: rest).getLast?, u.kind = .lineBreak)
    (h : (step lines stop t rest).Complete) :
    step lines' stop' t (rest ++ more) = (step lines stop t rest).before more := by
  have hrest : t.kind ≠ .lineBreak → rest ≠ [] := rest_ne_nil hlast
  have hplaced := hplace t (List.mem_cons_self ..)
  have hbehind := forall_getLast?_of_suffix (List.suffix_cons t rest) hlast
  revert h
  rw [step, step]
  cases hk : t.kind with
  | lineBreak =>
    intro _
    simp only [hplaced]
    rfl
  | lineComment =>
    intro _
    obtain ⟨u, inner, hcons⟩ := List.exists_cons_of_ne_nil (hrest (by simp [hk]))
    have hdrop : dropLineBreak (rest ++ more) = dropLineBreak rest ++ more := by
      rw [hcons, List.cons_append, dropLineBreak, dropLineBreak]
      split <;> rfl
    simp only [lineComment, hplaced, hdrop]
    rfl
  | bracketComment =>
    intro _
    simp only [bracketComment, hplaced]
    rfl
  | unquoted => exact commandStep_append stop' more (hrest (by simp [hk])) hplace hbehind
  | _ => exact Step.skip_append more (List.cons_ne_nil t rest) hlast

theorem items_append {tokens : List Token}
    (hplace : ∀ t ∈ tokens, lines'.location t.span.start = lines.location t.span.start)
    (hlast : ∀ t ∈ tokens.getLast?, t.kind = .lineBreak)
    (h : ∀ i ∈ items lines stop tokens, ∀ d ∈ i.faults, d.code ≠ .unterminatedArguments) :
    (items lines' stop' (tokens ++ more)).map Item.forget =
      (items lines stop tokens).map Item.forget ++ (items lines' stop' more).map Item.forget := by
  fun_induction items lines stop tokens with
  | case1 => rfl
  | case2 t rest s ih =>
    obtain ⟨hs, hitems⟩ := List.forall_mem_cons.mp h
    have hsuffix := step_rest_suffix lines stop t rest
    have hstep := step_append stop' more hplace hlast hs
    rw [List.cons_append, items, hstep, List.map_cons, List.map_cons, List.cons_append]
    congr 1
    exact ih (fun u hu => hplace u (hsuffix.subset hu)) (forall_getLast?_of_suffix hsuffix hlast)
      hitems

end Items

/-! ### Parentheses -/

theorem parenDepth_append (level : Nat) (s t : List Token) : parenDepth level (s ++ t) =
    max (parenDepth level s) (parenDepth (s.foldl parenLevel level) t) := by
  induction s generalizing level with
  | nil => exact (Nat.max_eq_right (le_parenDepth level t)).symm
  | cons u s ih =>
    rw [List.cons_append, parenDepth, ih, parenDepth, List.foldl_cons, Nat.max_assoc]

theorem parenDepth_relocate (g : Span → Span) (level : Nat) (tokens : List Token) :
    parenDepth level (tokens.map (Token.relocate g)) = parenDepth level tokens := by
  induction tokens generalizing level with
  | nil => rfl
  | cons t rest ih =>
    rw [List.map_cons, parenDepth, ih]
    rfl

section Levels
variable {lines : LineIndex} {stop : Span}

theorem enclosed_level {group : OpenGroup} {outer : List OpenGroup} {tokens : List Token}
    (h : (enclosed lines stop group outer tokens).faults = []) :
    tokens.foldl parenLevel (outer.length + 1) =
      (enclosed lines stop group outer tokens).rest.foldl parenLevel 0 := by
  fun_induction enclosed lines stop group outer tokens with
  | case1 => simp at h
  | case2 group t rest hk => simp [parenLevel, hk]
  | case3 group t rest hk next outer ih =>
    rw [← ih h]
    simp [parenLevel, hk]
  | case4 group outer t rest hk ih =>
    rw [← ih h]
    simp [parenLevel, hk]
  | case5 group outer t rest a ha hc ho ih =>
    rw [← ih h, List.foldl_cons, parenLevel_of_ne ho hc]
  | case6 group outer t rest ha hc ho ih =>
    rw [← ih h, List.foldl_cons, parenLevel_of_ne ho hc]

theorem skipLine_level {opened tokens : List Token} (h : (skipLine opened tokens).2 = []) :
    tokens.foldl parenLevel opened.length = (skipLine opened tokens).1.foldl parenLevel 0 := by
  fun_induction skipLine opened tokens with
  | case1 opened =>
    have hopen : opened = [] := by simpa using h
    rw [hopen]
    rfl
  | case2 opened t rest hk hopen =>
    have hopen : opened = [] := by simpa using hopen
    rw [hopen]
    rfl
  | case3 opened t rest hk hopen ih =>
    rw [← ih h]
    simp [parenLevel, hk]
  | case4 opened t rest hk ih =>
    rw [← ih h]
    simp [parenLevel, hk]
  | case5 opened t rest hk ih =>
    rw [← ih h]
    simp [parenLevel, hk]
  | case6 opened t rest hb ho hc ih => rw [← ih h, List.foldl_cons, parenLevel_of_ne ho hc]

theorem Step.skip_level {fault : Diagnostic} {tokens : List Token}
    (h : (Step.skip fault tokens).Complete) :
    tokens.foldl parenLevel 0 = (Step.skip fault tokens).rest.foldl parenLevel 0 :=
  skipLine_level (skipLine_faults_eq_nil h)

theorem commandStep_level {t : Token} {rest : List Token}
    (h : (commandStep lines stop t rest).Complete) :
    rest.foldl parenLevel 0 = (commandStep lines stop t rest).rest.foldl parenLevel 0 := by
  revert h
  unfold commandStep
  split
  · split
    · exact Step.skip_level
    · next p inner =>
      split
      · next hp =>
        intro h
        have hopen : parenLevel 0 p = 1 := by simp [parenLevel, hp]
        rw [List.foldl_cons, hopen]
        exact enclosed_level (enclosed_faults_eq_nil h)
      · exact Step.skip_level
  · exact Step.skip_level

theorem step_level {t : Token} {rest : List Token} (h : (step lines stop t rest).Complete) :
    (t :: rest).foldl parenLevel 0 = (step lines stop t rest).rest.foldl parenLevel 0 := by
  revert h
  rw [step]
  cases hk : t.kind with
  | lineBreak => simp [parenLevel, hk]
  | lineComment =>
    intro _
    cases rest with
    | nil => simp [parenLevel, hk, dropLineBreak]
    | cons u inner =>
      by_cases hu : u.kind = .lineBreak <;> simp [parenLevel, hk, hu, dropLineBreak]
  | bracketComment => simp [parenLevel, hk]
  | unquoted =>
    rw [List.foldl_cons, parenLevel_of_ne (by simp [hk]) (by simp [hk])]
    exact commandStep_level
  | _ => exact Step.skip_level

/-- Behind items in which nothing ran into the end of the source, no parenthesis is open. -/
theorem items_level {tokens : List Token}
    (h : ∀ i ∈ items lines stop tokens, ∀ d ∈ i.faults, d.code ≠ .unterminatedArguments) :
    tokens.foldl parenLevel 0 = 0 := by
  fun_induction items lines stop tokens with
  | case1 => rfl
  | case2 t rest s ih =>
    obtain ⟨hs, hitems⟩ := List.forall_mem_cons.mp h
    rw [step_level hs]
    exact ih hitems

end Levels

/-! ### Blocks -/

/-- What was read before, with all blocks closed, in front of a state. -/
def State.onto (st base : State) : State :=
  ⟨st.frames, st.top ++ base.top, base.faults ++ st.faults, max base.depth st.depth⟩

namespace State

variable (st base : State)

theorem onto_report (faults : List Diagnostic) :
    (st.report faults).onto base = (st.onto base).report faults := by
  simp [report, onto]

theorem onto_add (s : Statement) : (st.add s).onto base = (st.onto base).add s := by
  obtain ⟨frames, top, faults, depth⟩ := st
  cases frames <;> rfl

theorem onto_enter (b : Frame) : (st.enter b).onto base = (st.onto base).enter b := by
  simp [enter, onto, Nat.max_assoc]

theorem onto_construct (c : Command) :
    (st.construct c).onto base = (st.onto base).construct c := by
  unfold construct
  split
  · split
    · exact onto_enter st base _
    · rw [onto_enter, onto_report]
  · exact onto_enter st base _
  · exact onto_enter st base _
  · rw [onto_add, onto_report]
  · rw [onto_add, onto_report]
  · exact onto_add st base _

theorem onto_divide (divider : Divider) (c : Command) (b : Frame) (arm : Arm) :
    (st.divide divider c b arm).onto base = (st.onto base).divide divider c b arm := by
  unfold divide
  dsimp only
  split
  · rw [onto_report]
    rfl
  · rfl

theorem onto_command (c : Command) : (st.command c).onto base = (st.onto base).command c := by
  obtain ⟨frames, top, faults, depth⟩ := st
  cases frames with
  | nil => exact onto_construct _ base c
  | cons b outer =>
    simp only [command, onto]
    split
    · exact onto_divide ⟨outer, top, faults, depth⟩ base _ c b _
    · split
      · exact onto_add ⟨outer, top, faults, depth⟩ base _
      · exact onto_construct _ base c
    · exact onto_construct _ base c

theorem onto_take (i : Item) : (st.take i).onto base = (st.onto base).take i := by
  unfold take
  split
  · rw [onto_add, onto_report]
  · exact onto_report st base _
  · rw [onto_command, onto_report]

/-- With no block open, items are read as if nothing stood before them. -/
theorem onto_foldl_take (items : List Item) :
    (items.foldl State.take st).onto base = items.foldl State.take (st.onto base) := by
  induction items generalizing st with
  | nil => rfl
  | cons i rest ih => rw [List.foldl_cons, ih, onto_take, List.foldl_cons]

theorem closeFrames_append (top inner before : List Statement) (frames : List Frame) :
    closeFrames (top ++ before) inner frames =
      before.reverse ++ closeFrames top inner frames := by
  induction frames generalizing inner with
  | nil => simp [closeFrames]
  | cons b outer ih => rw [closeFrames, ih, closeFrames]

end State

/-- Items behind others that leave no block open. -/
theorem read_append {items : List Item}
    (h : (items.foldl State.take .start).frames = []) (more : List Item) :
    (read [] (items ++ more)).statements =
        (read [] items).statements ++ (read [] more).statements ∧
      (read [] (items ++ more)).faults = (read [] items).faults ++ (read [] more).faults ∧
      (read [] (items ++ more)).depth = max (read [] items).depth (read [] more).depth := by
  rw [read_nil_eq, read_nil_eq, read_nil_eq, List.foldl_append]
  generalize items.foldl State.take .start = base at h
  have hbase : base = State.start.onto base := by
    obtain ⟨frames, top, faults, depth⟩ := base
    obtain rfl : frames = [] := h
    simp [State.onto, State.start]
  rw [hbase, ← State.onto_foldl_take, ← hbase]
  simp [State.finish, State.onto, State.closeFrames_append, h, State.closeFrames]

/-! ### Reports -/

theorem mem_faults_foldl_take {items : List Item} {i : Item} (hi : i ∈ items) {d : Diagnostic}
    (hd : d ∈ i.faults) (st : State) : d ∈ (items.foldl State.take st).faults := by
  induction items generalizing st with
  | nil => simp at hi
  | cons j rest ih =>
    rw [List.foldl_cons]
    rcases List.mem_cons.mp hi with rfl | hi
    · have htake := (st.faults_take i).subset (List.mem_append_right _ hd)
      exact ((st.take i).faults_foldl_take rest).subset htake
    · exact ih hi _

end Parse

open Parse

theorem Token.isUnterminated_of_mem_faults {tokens : List Token} {d : Diagnostic}
    (h : d ∈ faults tokens) : d.code.isUnterminated = true := by
  obtain ⟨t, -, ht⟩ := List.mem_filterMap.mp h
  unfold fault? at ht
  split at ht
  · contradiction
  · split at ht <;> cases ht <;> rfl

theorem Token.EndsLine.significant {a : Text} (h : EndsLine a) :
    ∀ t ∈ (Parse.significant a).getLast?, t.kind = .lineBreak := by
  have hink : Parse.significant a = (Reader.start a).body.filter isSignificant :=
    (filter_body (Reader.start a)).symm
  rw [hink]
  rw [EndsLine, Reader.EndsLine] at h
  rcases List.eq_nil_or_concat' (Reader.start a).body with hnil | ⟨front, t, hbody⟩
  · simp [hnil]
  · rw [hbody] at h ⊢
    obtain ⟨hk, -⟩ := h t (by simp)
    rw [List.filter_append, List.filter_cons_of_pos (by simp [isSignificant, hk])]
    simpa using hk

section Joined
variable {a : Text} (hline : EndsLine a)
  (hcomplete : ∀ d ∈ (Source.parse a).diagnostics, d.code.isUnterminated = false) (b : Text)
include hcomplete

/-- Nothing that was read of the first text ran into its end. -/
theorem Parse.complete_of_parse : faults (scan a) = [] ∧
    (∀ i ∈ itemsOf a, ∀ d ∈ i.faults, d.code ≠ .unterminatedArguments) ∧
    ((itemsOf a).foldl State.take .start).frames = [] := by
  have hread : ∀ d ∈ (read [] (itemsOf a)).faults, d.code.isUnterminated = false := fun d hd =>
    hcomplete d (Source.mem_diagnostics.mpr (.inr hd))
  refine ⟨List.eq_nil_iff_forall_not_mem.mpr fun d hd => ?_, fun i hi d hd hcode => ?_, ?_⟩
  · have := hcomplete d (Source.mem_diagnostics.mpr (.inl hd))
    simp [isUnterminated_of_mem_faults hd] at this
  · have hmem : d ∈ (read [] (itemsOf a)).faults := by
      rw [read_nil_eq]
      exact List.mem_append_left _ (mem_faults_foldl_take hi hd _)
    have := hread d hmem
    simp [hcode, Diagnostic.Code.isUnterminated] at this
  · refine List.eq_nil_iff_forall_not_mem.mpr fun b hb => ?_
    have hmem : b.unterminated ∈ (read [] (itemsOf a)).faults := by
      rw [read_nil_eq]
      exact List.mem_append_right _ (List.mem_map_of_mem hb)
    exact absurd (hread _ hmem) (by simp [Frame.unterminated, Diagnostic.worded,
      Diagnostic.Code.isUnterminated])

include hline

theorem Parse.itemsOf_append : (itemsOf (a ++ b)).map Item.forget =
    (itemsOf a).map Item.forget ++
      (itemsOf b).map (Item.relocate (Location.below (a.count '\n')) (Span.shift a.length)) := by
  have hmaps : Maps (Location.below (a.count '\n')) (Span.shift a.length) (.ofText b)
      (.ofText (a ++ b)) :=
    ⟨fun s => LineIndex.location_append_right hline.getLast? b s.start, Span.shift_cover _⟩
  have hstop : Span.point (a ++ b).length = (Span.point b.length).shift a.length := by
    simp [Span.point, Span.shift, Nat.add_comm]
  have hplace : ∀ t ∈ significant a, (LineIndex.ofText (a ++ b)).location t.span.start =
      (LineIndex.ofText a).location t.span.start := fun t ht => by
    have := span_of_mem_significant ht
    exact LineIndex.location_append_left a b (by omega)
  obtain ⟨-, hitems, -⟩ := complete_of_parse hcomplete
  rw [itemsOf, significant_append hline, hstop, items_append _ _ hplace hline.significant hitems,
    hmaps.items_relocate]
  rfl

/-- Errors stay on their side of the end of a line. The statements of a text that goes on behind
the end of a line, with nothing left open, are those of its two parts, and so are its reports, each
further down by the length of the first part. It nests as deeply as the deeper part. -/
theorem parse_append :
    (Source.parse (a ++ b)).statements = (Source.parse a).statements ++
        Statement.relocateAll (Location.below (a.count '\n')) (Source.parse b).statements ∧
      (Source.parse (a ++ b)).diagnostics = (Source.parse a).diagnostics ++
        (Source.parse b).diagnostics.map (Diagnostic.relocate (Span.shift a.length)) ∧
      (Source.parse (a ++ b)).depth = max (Source.parse a).depth (Source.parse b).depth := by
  obtain ⟨hfaults, hitems, hframes⟩ := complete_of_parse hcomplete
  rw [← foldl_take_forget] at hframes
  have hread := read_append hframes ((itemsOf b).map
    (Item.relocate (Location.below (a.count '\n')) (Span.shift a.length)))
  rw [← itemsOf_append hline hcomplete b, read_forget, read_forget] at hread
  obtain ⟨hstatements, hreports, hdepth⟩ := hread
  obtain ⟨hstatements', hreports', hdepth'⟩ := read_relocate (f := Location.below (a.count '\n'))
    (g := Span.shift a.length) (itemsOf b)
  rw [hstatements'] at hstatements
  rw [hreports'] at hreports
  rw [hdepth'] at hdepth
  have hearly : ∀ d ∈ (read [] (itemsOf a)).faults, d.span.start < a.length := by
    refine reports_read (P := fun s => s.start < a.length) fun t ht => ?_
    obtain ⟨hlt, hle⟩ := span_of_mem_significant ht
    have hstart : t.span.start < a.length := by omega
    exact ⟨hstart, (Nat.min_le_left ..).trans_lt hstart, fun u _ =>
      (Nat.min_le_left ..).trans_lt hstart⟩
  have hshift : (Diagnostic.sortByStart (faults (scan b) ++ (read [] (itemsOf b)).faults)).map
      (Diagnostic.relocate (Span.shift a.length)) = Diagnostic.sortByStart
        ((faults (scan b) ++ (read [] (itemsOf b)).faults).map
          (Diagnostic.relocate (Span.shift a.length))) :=
    List.map_mergeSort fun d _ e _ => by simp [Diagnostic.relocate, Span.shift]
  refine ⟨hstatements, ?_, ?_⟩
  · simp only [Source.parse]
    rw [hreports, faults_append hline, hfaults, List.nil_append, List.nil_append, hshift,
      List.map_append]
    refine Diagnostic.sortByStart_append hearly ?_
    rw [← List.map_append]
    intro d hd
    obtain ⟨e, -, rfl⟩ := List.mem_map.mp hd
    exact Nat.le_add_left ..
  · simp only [Source.parse]
    rw [hdepth, significant_append hline, parenDepth_append, parenDepth_relocate,
      items_level hitems]
    omega

end Joined

/-- Two lines of which neither is a command, and a branch outside of all blocks. -/
def brokenLines : Text := "a b(\n)\n)\nelse()\nif(x)\nendif()\r\n".toList

theorem parse_append_brokenLines :
    EndsLine brokenLines ∧
      (∀ d ∈ (Source.parse brokenLines).diagnostics, d.code.isUnterminated = false) ∧
      (Source.parse brokenLines).diagnostics.length = 3 ∧
      (Source.parse (brokenLines ++ "  x\nf(y".toList)).diagnostics =
        (Source.parse brokenLines).diagnostics ++
          (Source.parse "  x\nf(y".toList).diagnostics.map
            (Diagnostic.relocate (Span.shift brokenLines.length)) := by
  have hline : EndsLine brokenLines := by
    unfold EndsLine Reader.EndsLine
    decide +kernel
  have hreports : ∀ d ∈ faults (scan brokenLines) ++ (read [] (itemsOf brokenLines)).faults,
      d.code.isUnterminated = false := by decide +kernel
  have hcomplete :
      ∀ d ∈ (Source.parse brokenLines).diagnostics, d.code.isUnterminated = false :=
    fun d hd => hreports d (List.mem_append.mpr (Source.mem_diagnostics.mp hd))
  have hlength :
      (faults (scan brokenLines) ++ (read [] (itemsOf brokenLines)).faults).length = 3 := by
    decide +kernel
  exact ⟨hline, hcomplete, (List.length_mergeSort _).trans hlength,
    (parse_append hline hcomplete "  x\nf(y".toList).2.1⟩

end Listfile
