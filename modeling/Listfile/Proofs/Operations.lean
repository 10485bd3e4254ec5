import Listfile.Proofs.Indentation

/-! Pages under any run of operations. A page keeps its column, its line start and
its count of line breaks beside the text and apart from it, and each operation
updates them on its own. An operation does one of three things (`effect_run`): it
leaves the text alone, it writes something, or it appends one line break and counts
it. From there, what the page keeps is told by its text and by the operations that
led to it (`page_tells_history`): the column by the last line of the text, the line
breaks by what has been appended since something was written last, the indentation
by the indents that are still open. -/

namespace Listfile.Layout.Page

/-- What can be done to a page. -/
inductive Operation
  | write (t : Text)
  | newline
  | ensureLineStart
  | indent
  | dedent
  deriving DecidableEq

/-- Carry out an operation. Where no level is open, closing one fails and leaves the page as it
is. -/
def Operation.run (s : Style) (p : Page) : Operation → Page
  | .write t => p.write t
  | .newline => p.newline s
  | .ensureLineStart => p.ensureLineStart s
  | .indent => p.indent s
  | .dedent =>
    match p.dedent? with
    | .ok q => q
    | .error _ => p

/-- An empty page after some operations. -/
def after (s : Style) (ops : List Operation) : Page := ops.foldl (Operation.run s) .empty

@[simp] theorem after_append_singleton (s : Style) (ops : List Operation) (o : Operation) :
    after s (ops ++ [o]) = o.run s (after s ops) := by
  simp [after, List.foldl_append]

/-! ### What an operation does -/

/-- A page with one line break more, which is counted. -/
def fed (p : Page) : Page := ⟨'\n' :: p.written, p.levels, 0, true, p.breaks + 1⟩

@[simp] theorem text_fed (p : Page) : p.fed.text = p.text ++ ['\n'] := by simp [fed, text]

/-- The page after an operation: the text is left alone, or something is written, or one line break
is appended, for which there was room. -/
inductive Effect (s : Style) (p : Page) : Operation → Page → Prop
  | still {o : Operation} (levels : List Nat) (h : ∀ t, o = .write t → t = []) :
      Effect s p o { p with levels }
  | written {t : Text} (h : t ≠ []) : Effect s p (.write t) (p.write t)
  | broken {o : Operation} (h : ∀ t, o ≠ .write t) (hroom : p.breaks ≤ s.allowedBlankLines) :
      Effect s p o p.fed

theorem effect_newline (s : Style) (p : Page) {o : Operation} (h : ∀ t, o ≠ .write t) :
    Effect s p o (p.newline s) := by
  by_cases hroom : p.breaks ≤ s.allowedBlankLines
  · have hp : p.newline s = p.fed := by simp [newline, canBreak, hroom, fed]
    rw [hp]
    exact .broken h hroom
  · have hp : p.newline s = p := by simp [newline, canBreak, hroom]
    rw [hp]
    exact .still p.levels fun t ht => absurd ht (h t)

theorem effect_run (s : Style) (p : Page) (o : Operation) : Effect s p o (o.run s p) := by
  cases o with
  | write t =>
    by_cases ht : t = []
    · subst ht
      exact .still p.levels fun t h => (Operation.write.inj h).symm
    · exact .written ht
  | newline => exact effect_newline s p fun t => by simp
  | ensureLineStart =>
    simp only [Operation.run, ensureLineStart]
    split
    · exact .still p.levels fun t h => by simp at h
    · exact effect_newline s p fun t => by simp
  | indent => exact .still _ fun t h => by simp at h
  | dedent =>
    simp only [Operation.run, dedent?]
    split
    · next q hq =>
      split at hq
      · contradiction
      · obtain rfl := Except.ok.inj hq
        exact .still _ fun t h => by simp at h
    · exact .still p.levels fun t h => by simp at h

/-- What is written: the text, behind the indentation if it starts its line. -/
theorem text_write {p : Page} {t : Text} (h : t ≠ []) :
    (p.write t).text =
      p.text ++ ((if p.atLineStart then Text.spaces p.indentation else []) ++ t) := by
  cases hstart : p.atLineStart <;> simp [write, text, h, hstart]

theorem text_prefix_run (s : Style) (p : Page) (o : Operation) : p.text <+: (o.run s p).text := by
  have heffect := effect_run s p o
  generalize o.run s p = q at heffect ⊢
  cases heffect with
  | still levels h => exact List.prefix_rfl
  | written h => exact ⟨_, (text_write h).symm⟩
  | broken h hroom => exact ⟨['\n'], (text_fed p).symm⟩

/-! ### Columns -/

/-- The column behind a text is the width of its last line. -/
theorem endColumn_eq_length (t : Text) :
    Text.endColumn t 0 = (t.reverse.takeWhile (· ≠ '\n')).length := by
  induction t using List.reverseRecOn with
  | nil => rfl
  | append_singleton t c ih =>
    rw [Text.endColumn_append, ih, List.reverse_append, List.reverse_singleton,
      List.singleton_append]
    by_cases hc : c = '\n' <;> simp [Text.endColumn, Text.advance, hc]

theorem currentColumn_run (s : Style) {p : Page} (o : Operation)
    (h : p.currentColumn = Text.endColumn p.text 0) :
    (o.run s p).currentColumn = Text.endColumn (o.run s p).text 0 := by
  have heffect := effect_run s p o
  generalize o.run s p = q at heffect ⊢
  cases heffect with
  | still levels _ => exact h
  | @written t ht =>
    have hcolumn : (p.write t).currentColumn =
        Text.endColumn ((if p.atLineStart then Text.spaces p.indentation else []) ++ t)
          p.currentColumn := by
      cases hstart : p.atLineStart <;> simp [write, currentColumn, ht, hstart]
    rw [hcolumn, h, text_write ht, Text.endColumn_append p.text]
  | broken _ _ =>
    rw [text_fed, Text.endColumn_append]
    rfl

theorem currentColumn_after (s : Style) (ops : List Operation) :
    (after s ops).currentColumn = Text.endColumn (after s ops).text 0 := by
  induction ops using List.reverseRecOn with
  | nil => rfl
  | append_singleton ops o ih =>
    rw [after_append_singleton]
    exact currentColumn_run s o ih

/-! ### Line starts and line breaks -/

/-- A page that stands at a line start has nothing on its last line, and one that does not has
counted no line break since. -/
structure Steady (s : Style) (p : Page) : Prop where
  lineStart : p.atLineStart = true → LineStart p.text
  midLine : p.atLineStart = false → p.breaks = 0
  breaks_le : p.breaks ≤ s.allowedBlankLines + 1

theorem steady_empty (s : Style) : Steady s .empty :=
  ⟨fun _ => .inl rfl, fun h => by simp [empty] at h, Nat.zero_le _⟩

theorem Steady.run {s : Style} {p : Page} (h : Steady s p) (o : Operation) :
    Steady s (o.run s p) := by
  have heffect := effect_run s p o
  generalize o.run s p = q at heffect ⊢
  cases heffect with
  | still levels _ => exact ⟨h.lineStart, h.midLine, h.breaks_le⟩
  | @written t ht =>
    have hstart : (p.write t).atLineStart = false := by simp [write, ht]
    have hbreaks : (p.write t).breaks = 0 := by simp [write, ht]
    refine ⟨?_, fun _ => hbreaks, by omega⟩
    intro htrue
    simp [hstart] at htrue
  | broken _ hroom =>
    refine ⟨fun _ => .inr (by simp), ?_, Nat.succ_le_succ hroom⟩
    intro hfalse
    simp [fed] at hfalse

theorem steady_after (s : Style) (ops : List Operation) : Steady s (after s ops) := by
  induction ops using List.reverseRecOn with
  | nil => exact steady_empty s
  | append_singleton ops o ih =>
    rw [after_append_singleton]
    exact ih.run o

/-- On a line there is room for the line break that ends it. -/
theorem Steady.atLineStart_ensureLineStart {s : Style} {p : Page} (h : Steady s p) :
    (p.ensureLineStart s).atLineStart = true := by
  unfold ensureLineStart
  split
  · assumption
  · next hstart =>
    have hroom : p.breaks ≤ s.allowedBlankLines := by
      rw [h.midLine (by simpa using hstart)]
      exact Nat.zero_le _
    simp [newline, canBreak, hroom]

/-- A run is cut behind the last operation that wrote something, or at its start if none did, and
what the operations behind the cut have appended is `breaks` line breaks and nothing else. -/
structure SinceWrite (s : Style) (ops : List Operation) (breaks : Nat) (t : Text)
    (front back : List Operation) : Prop where
  ops_eq : ops = front ++ back
  front_ends : front = [] ∨ ∃ u, u ≠ [] ∧ front.getLast? = some (.write u)
  back_blank : ∀ u, .write u ∈ back → u = []
  text_eq : t = (after s front).text ++ List.replicate breaks '\n'

theorem exists_sinceWrite (s : Style) (ops : List Operation) :
    ∃ front back, SinceWrite s ops (after s ops).breaks (after s ops).text front back := by
  induction ops using List.reverseRecOn with
  | nil => exact ⟨[], [], rfl, .inl rfl, by simp, rfl⟩
  | append_singleton ops o ih =>
    obtain ⟨front, back, hops, hfront, hback, htext⟩ := ih
    have hlonger : ops ++ [o] = front ++ (back ++ [o]) := by rw [hops, List.append_assoc]
    rw [after_append_singleton]
    have heffect := effect_run s (after s ops) o
    generalize hq : o.run s (after s ops) = q at heffect ⊢
    cases heffect with
    | still levels ho =>
      refine ⟨front, back ++ [o], hlonger, hfront, ?_, htext⟩
      intro u hu
      rcases List.mem_append.mp hu with hu | hu
      · exact hback u hu
      · exact ho u (List.mem_singleton.mp hu).symm
    | @written t ht =>
      refine ⟨ops ++ [.write t], [], by simp, .inr ⟨t, ht, by simp⟩, by simp, ?_⟩
      have hbreaks : ((after s ops).write t).breaks = 0 := by simp [write, ht]
      rw [hbreaks, after_append_singleton, hq]
      simp
    | broken ho hroom =>
      refine ⟨front, back ++ [o], hlonger, hfront, ?_, ?_⟩
      · intro u hu
        rcases List.mem_append.mp hu with hu | hu
        · exact hback u hu
        · exact absurd (List.mem_singleton.mp hu).symm (ho u)
      · have hbreaks : (after s ops).fed.breaks = (after s ops).breaks + 1 := rfl
        rw [text_fed, htext, hbreaks, List.replicate_succ', List.append_assoc]

/-! ### Levels -/

/-- The indents that are open behind an operation, if `n` are open before it. A dedent closes the
last of them, if there is one. -/
def Operation.openBehind (n : Nat) : Operation → Nat
  | .indent => n + 1
  | .dedent => n - 1
  | _ => n

/-- The indents of a run that no dedent has closed. -/
def openIndents (ops : List Operation) : Nat := ops.foldl Operation.openBehind 0

theorem levels_run (s : Style) (p : Page) (o : Operation) :
    (o.run s p).levels =
      match o with
      | .indent => opened s p.levels
      | .dedent => p.levels.tail
      | _ => p.levels := by
  cases o with
  | write t => exact levels_write t p
  | newline => exact levels_newline s p
  | ensureLineStart => exact levels_ensureLineStart s p
  | indent => rfl
  | dedent =>
    simp only [Operation.run, dedent?]
    cases hlevels : p.levels <;> simp [dedent, hlevels]

theorem tail_nest (s : Style) (n : Nat) : (nest s n).tail = nest s (n - 1) := by
  cases n with
  | zero => rfl
  | succ n => exact tail_opened s (nest s n)

theorem levels_after (s : Style) (ops : List Operation) :
    (after s ops).levels = nest s (openIndents ops) := by
  induction ops using List.reverseRecOn with
  | nil => rfl
  | append_singleton ops o ih =>
    have hopen : openIndents (ops ++ [o]) = o.openBehind (openIndents ops) := by
      simp [openIndents, List.foldl_append]
    rw [after_append_singleton, levels_run, ih, hopen]
    cases o with
    | dedent => exact tail_nest s _
    | _ => rfl

theorem dedent?_after (s : Style) (ops : List Operation) :
    (after s ops).dedent? = .error .noOpenLevel ↔ openIndents ops = 0 := by
  have hnil : (nest s (openIndents ops)).isEmpty = true ↔ openIndents ops = 0 := by
    cases openIndents ops <;> simp [nest, opened]
  rw [← hnil, ← levels_after]
  by_cases h : (after s ops).levels.isEmpty = true <;> simp [dedent?, h]

/-! ### Whole runs -/

/-- What a page keeps, as its text and the operations that led to it tell it. -/
structure Told (s : Style) (ops : List Operation) (p : Page) : Prop where
  /-- The column is the width of what stands behind the last line break. -/
  column : p.currentColumn = (p.text.reverse.takeWhile (· ≠ '\n')).length
  lineStart : p.atLineStart = true → p.text = [] ∨ p.text.getLast? = some '\n'
  midLine : p.atLineStart = false → p.breaks = 0
  /-- Since something was written last, the count of line breaks and nothing else was appended. -/
  breaks : ∃ front back, SinceWrite s ops p.breaks p.text front back
  breaks_le : p.breaks ≤ s.allowedBlankLines + 1
  ends : List.replicate p.breaks '\n' <:+ p.text
  indentation : p.indentation = s.indentWidth * openIndents ops

theorem told_after (s : Style) (ops : List Operation) : Told s ops (after s ops) := by
  obtain ⟨front, back, hsince⟩ := exists_sinceWrite s ops
  have hsteady := steady_after s ops
  exact {
    column := (currentColumn_after s ops).trans (endColumn_eq_length _)
    lineStart := hsteady.lineStart
    midLine := hsteady.midLine
    breaks := ⟨front, back, hsince⟩
    breaks_le := hsteady.breaks_le
    ends := ⟨_, hsince.text_eq.symm⟩
    indentation := by rw [indentation, levels_after, headD_nest, Nat.mul_comm] }

/-- After every run of operations on an empty page, what the page keeps is told by its text and by
the operations. Each operation appends to the text, a line start can always be reached, and closing
a level fails if and only if none is open, and then changes nothing. -/
theorem page_tells_history (s : Style) (ops : List Operation) :
    Told s ops (after s ops) ∧
      (∀ o, (after s ops).text <+: (after s (ops ++ [o])).text) ∧
      (after s (ops ++ [.ensureLineStart])).atLineStart = true ∧
      ((after s ops).dedent? = .error .noOpenLevel ↔ openIndents ops = 0) ∧
      (openIndents ops = 0 → after s (ops ++ [.dedent]) = after s ops) := by
  refine ⟨told_after s ops, fun o => ?_, ?_, dedent?_after s ops, fun hopen => ?_⟩
  · rw [after_append_singleton]
    exact text_prefix_run s _ o
  · rw [after_append_singleton]
    exact (steady_after s ops).atLineStart_ensureLineStart
  · rw [after_append_singleton, Operation.run, (dedent?_after s ops).mpr hopen]

end Listfile.Layout.Page
