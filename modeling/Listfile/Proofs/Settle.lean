import Listfile.Proofs.Emit

/-! The line breaks of a text, told apart from what stands between them. `settle`
turns rows into the rows that are written: it drops the line breaks that the
style does not allow and puts in those that it asks for. `verbatim` writes rows
with the line breaks they have. The printer is the one after the other
(`statements_eq_verbatim`), and settled rows are not changed any further
(`settle_settle`). -/

namespace Listfile.Layout

/-! ### Settling line breaks -/

/-- What the printer knows between two rows, the page apart. -/
structure Pace where
  /-- Line breaks since the last text. -/
  breaks : Nat
  /-- Nothing is written yet. -/
  fresh : Bool
  /-- A blank line is owed after a closed block. -/
  due : Bool
  /-- Nothing but line breaks was written since a block was opened. -/
  blockStart : Bool
  /-- The last row was a comment on a line of its own. -/
  own : Bool

/-- The line breaks in a row that make up a blank line, if the style allows one. -/
def blankGap (s : Style) : Nat := min 2 (s.allowedBlankLines + 1)

namespace Pace

def start : Pace := ⟨0, true, false, false, false⟩

def atStart (σ : Pace) : Bool := σ.fresh || 0 < σ.breaks

/-- The line breaks before a statement; `heads` says that a block with blank lines around it
follows. -/
def wantStatement (s : Style) (heads : Bool) (σ : Pace) : Nat :=
  if σ.fresh then 0
  else if !σ.blockStart && (σ.due || (!σ.own && heads)) then blankGap s
  else 1

/-- The line breaks before a row, in front of the rows `rest`. -/
def want (s : Style) (rest : List Row) (σ : Pace) : Row → Nat
  | .lineBreak => 0
  | .unknown => 0
  | .lineComment _ true => if σ.atStart then σ.wantStatement s false else 0
  | .bracketComment _ _ true => if σ.atStart then σ.wantStatement s false else 0
  | .call (some (.dividing _)) _ _ => if σ.fresh then 0 else 1
  | .call (some (.closing _)) _ _ => if σ.fresh then 0 else 1
  | r => σ.wantStatement s (leads s (r :: rest))

/-- Behind a comment. A comment that trails pays no blank line. -/
def behindComment (breaks : Nat) (trailing own : Bool) (σ : Pace) : Pace :=
  if trailing && !σ.atStart then { σ with breaks := breaks, fresh := false, own := own }
  else ⟨breaks, false, false, false, own⟩

/-- Behind a row. -/
def behind (s : Style) (σ : Pace) : Row → Pace
  | .lineBreak => { σ with breaks := σ.breaks + 1, fresh := false, own := false }
  | .lineComment _ trailing => σ.behindComment 1 trailing (!trailing)
  | .bracketComment _ _ trailing => σ.behindComment 0 trailing false
  | .bracket _ _ => ⟨0, false, false, false, false⟩
  | .call none _ _ => ⟨0, false, false, false, false⟩
  | .call (some (.opening _)) _ _ => ⟨0, false, false, true, false⟩
  | .call (some (.dividing _)) _ _ => ⟨0, false, false, true, false⟩
  | .call (some (.closing block)) _ _ => ⟨0, false, spaced s block, false, false⟩
  | .unknown => { σ with own := false }

end Pace

/-- The rows with the line breaks that are written. -/
def settle (s : Style) (σ : Pace) : List Row → List Row
  | [] => []
  | r :: rest =>
    if r.isLineBreak && s.allowedBlankLines < σ.breaks then settle s { σ with own := false } rest
    else
      List.replicate (σ.want s rest r - σ.breaks) .lineBreak ++
        r :: settle s (σ.behind s r) rest

/-! ### Writing rows as they are -/

/-- A command at the start of a line with some indentation. -/
def callText (s : Style) (indentation : Nat) (name : Text) (list : List Argument) : Text :=
  let column := Text.endColumn (Text.spaces indentation ++ (name ++ ['('])) 0
  name ++ ['('] ++ arguments s column (continuationColumn s column indentation) 1 list ++ [')']

/-- The text of a row, without what stands before it on its line. -/
def rowText (s : Style) (indentation : Nat) : Row → Text
  | .lineBreak => ['\n']
  | .lineComment text _ => lineCommentText s text ++ ['\n']
  | .bracketComment text fence _ => bracketCommentText text fence
  | .bracket text fence => bracketText text fence
  | .call _ name list => callText s indentation name list
  | .unknown => []

/-- What stands before a row on its line: the indentation, or a space behind something else. -/
def rowLead (indentation : Nat) (lineStart : Bool) : Row → Text
  | .lineBreak => []
  | .unknown => []
  | _ => if lineStart then Text.spaces indentation else [' ']

/-- The levels of indentation at a row. -/
def levelsAt (levels : List Nat) : Row → List Nat
  | .call (some (.dividing _)) _ _ => levels.tail
  | .call (some (.closing _)) _ _ => levels.tail
  | _ => levels

/-- The levels of indentation behind a row. -/
def levelsBehind (s : Style) (levels : List Nat) : Row → List Nat
  | .call (some (.opening _)) _ _ => (levels.headD 0 + s.indentWidth) :: levels
  | .call (some (.dividing _)) _ _ => (levels.tail.headD 0 + s.indentWidth) :: levels.tail
  | .call (some (.closing _)) _ _ => levels.tail
  | _ => levels

/-- Whether a line starts behind a row. -/
def lineStartBehind (lineStart : Bool) : Row → Bool
  | .lineBreak => true
  | .lineComment _ _ => true
  | .unknown => lineStart
  | _ => false

/-- Rows as text, with no line breaks but their own. -/
def verbatim (s : Style) (levels : List Nat) (lineStart : Bool) : List Row → Text
  | [] => []
  | r :: rest =>
    let indentation := (levelsAt levels r).headD 0
    rowLead indentation lineStart r ++ rowText s indentation r ++
      verbatim s (levelsBehind s levels r) (lineStartBehind lineStart r) rest

/-! ### What a printer shows -/

/-- The state once line breaks are written up to `n` in a row. -/
def Pace.advance (n : Nat) (σ : Pace) : Pace :=
  if n ≤ σ.breaks then σ else { σ with breaks := n, fresh := false }

namespace Pace

theorem advance_of_le {n : Nat} {σ : Pace} (h : n ≤ σ.breaks) : σ.advance n = σ := if_pos h

theorem advance_of_lt {n : Nat} {σ : Pace} (h : σ.breaks < n) :
    σ.advance n = { σ with breaks := n, fresh := false } := if_neg (Nat.not_le.mpr h)

theorem breaks_advance (n : Nat) (σ : Pace) : (σ.advance n).breaks = max σ.breaks n := by
  unfold advance
  split
  · omega
  · next h => exact (Nat.max_eq_right (Nat.le_of_not_le h)).symm

theorem advance_advance (m n : Nat) (σ : Pace) :
    (σ.advance m).advance n = σ.advance (max m n) := by
  rcases Nat.lt_or_ge σ.breaks m with hm | hm
  · rw [advance_of_lt hm, advance_of_lt (n := max m n) (by omega)]
    rcases Nat.lt_or_ge m n with hn | hn
    · rw [advance_of_lt (by simpa using hn), Nat.max_eq_right (Nat.le_of_lt hn)]
    · rw [advance_of_le (by simpa using hn), Nat.max_eq_left hn]
  · rw [advance_of_le hm]
    rcases Nat.lt_or_ge σ.breaks n with hn | hn
    · rw [Nat.max_eq_right (by omega)]
    · rw [advance_of_le hn, advance_of_le (by omega)]

/-- Nothing is fresh behind line breaks, and breaks are wanted only where nothing is fresh. -/
theorem fresh_advance {n : Nat} {σ : Pace} (h : σ.fresh = true → n = 0) :
    (σ.advance n).fresh = σ.fresh := by
  rcases Nat.lt_or_ge σ.breaks n with hn | hn
  · rw [advance_of_lt hn]
    cases hf : σ.fresh with
    | true => rw [h hf] at hn; contradiction
    | false => rfl
  · rw [advance_of_le hn]

theorem atStart_advance {n : Nat} {σ : Pace} (h : σ.fresh = false → 0 < n) :
    (σ.advance n).atStart = true := by
  rcases Nat.lt_or_ge σ.breaks n with hn | hn
  · rw [advance_of_lt hn]
    simpa [atStart] using Nat.zero_lt_of_lt hn
  · rw [advance_of_le hn, atStart]
    cases hf : σ.fresh with
    | true => rfl
    | false => simpa using Nat.lt_of_lt_of_le (h hf) hn

theorem atStart_advance_eq (n : Nat) (σ : Pace) :
    (σ.advance n).atStart = (σ.atStart || decide (0 < n - σ.breaks)) := by
  rcases Nat.lt_or_ge σ.breaks n with hn | hn
  · have hpos : 0 < n - σ.breaks := by omega
    simp [advance_of_lt hn, atStart, hpos, Nat.zero_lt_of_lt hn]
  · simp [advance_of_le hn, Nat.sub_eq_zero_of_le hn]

@[simp] theorem due_advance (n : Nat) (σ : Pace) : (σ.advance n).due = σ.due := by
  unfold advance
  split <;> rfl

@[simp] theorem blockStart_advance (n : Nat) (σ : Pace) :
    (σ.advance n).blockStart = σ.blockStart := by
  unfold advance
  split <;> rfl

@[simp] theorem own_advance (n : Nat) (σ : Pace) : (σ.advance n).own = σ.own := by
  unfold advance
  split <;> rfl

/-- At the start of a line no break is missing. -/
theorem line_sub_breaks {σ : Pace} (h : σ.atStart = true) :
    (if σ.fresh then 0 else 1) - σ.breaks = 0 := by
  simp only [atStart, Bool.or_eq_true, decide_eq_true_eq] at h
  split
  · exact Nat.zero_sub _
  · next hf =>
    have := h.resolve_left hf
    omega

theorem wantStatement_pos (s : Style) (heads : Bool) (σ : Pace) (h : σ.fresh = false) :
    0 < σ.wantStatement s heads := by
  rw [wantStatement, h]
  split
  · contradiction
  · split
    · simp only [blankGap]
      omega
    · exact Nat.one_pos

theorem wantStatement_of_fresh (s : Style) (heads : Bool) {σ : Pace} (h : σ.fresh = true) :
    σ.wantStatement s heads = 0 := by
  rw [wantStatement, if_pos h]

end Pace

/-- A printer as far as rows depend on it. -/
structure Shows (p : Printer) (text : Text) (levels : List Nat) (σ : Pace) : Prop where
  text : p.page.text = text
  levels : p.page.levels = levels
  breaks : p.page.breaks = σ.breaks
  fresh : p.page.isEmpty = σ.fresh
  lineStart : p.page.atLineStart = σ.atStart
  due : p.blankDue = σ.due
  blockStart : p.atBlockStart = σ.blockStart

theorem shows_start : Shows .start [] [] .start := ⟨rfl, rfl, rfl, rfl, rfl, rfl, rfl⟩

namespace Shows

variable {s : Style} {p : Printer} {text : Text} {levels : List Nat} {σ : Pace}

theorem newline (h : Shows p text levels σ) (hb : σ.breaks ≤ s.allowedBlankLines) :
    Shows (p.newline s) (text ++ ['\n']) levels
      { σ with breaks := σ.breaks + 1, fresh := false } := by
  have hcan : p.page.canBreak s = true := by simp [Page.canBreak, h.breaks, hb]
  constructor
  · simp [Printer.newline, Page.newline, hcan, Page.text, ← h.text]
  · simp [Printer.newline, Page.newline, hcan, h.levels]
  · simp [Printer.newline, Page.newline, hcan, h.breaks]
  · simp [Printer.newline, Page.newline, hcan, Page.isEmpty]
  · simp [Printer.newline, Page.newline, hcan, Pace.atStart]
  · exact h.due
  · exact h.blockStart

theorem newline_eq (h : Shows p text levels σ) (hb : s.allowedBlankLines < σ.breaks) :
    p.newline s = p := by
  have hcan : p.page.canBreak s = false := by simp [Page.canBreak, h.breaks, hb]
  simp [Printer.newline, Page.newline, hcan]

/-- Nothing is written where the gap is there. -/
theorem breakBelowTwo_eq (h : Shows p text levels σ) (hb : blankGap s ≤ σ.breaks) :
    p.breakBelowTwo s = p := by
  unfold Printer.breakBelowTwo
  split
  · next hlt =>
    rw [h.breaks] at hlt
    exact h.newline_eq (by simp only [blankGap] at hb; omega)
  · rfl

theorem breakBelowTwo_of_lt (h : Shows p text levels σ) (hb : σ.breaks < blankGap s) :
    Shows (p.breakBelowTwo s) (text ++ ['\n']) levels
      { σ with breaks := σ.breaks + 1, fresh := false } := by
  simp only [blankGap] at hb
  have hlt : p.page.breaks < 2 := by rw [h.breaks]; omega
  rw [Printer.breakBelowTwo, if_pos hlt]
  exact h.newline (by omega)

/-- Two tries make up the gap. -/
theorem breakBelowTwo_breakBelowTwo (h : Shows p text levels σ) :
    Shows ((p.breakBelowTwo s).breakBelowTwo s)
      (text ++ List.replicate (blankGap s - σ.breaks) '\n') levels (σ.advance (blankGap s)) := by
  have hgap : blankGap s ≤ 2 := Nat.min_le_left _ _
  by_cases hb : blankGap s ≤ σ.breaks
  · have heq := h.breakBelowTwo_eq hb
    rw [heq, heq, Pace.advance, if_pos hb, Nat.sub_eq_zero_of_le hb]
    simpa using h
  · have h₁ := h.breakBelowTwo_of_lt (Nat.lt_of_not_le hb)
    rw [Pace.advance, if_neg hb]
    by_cases hb' : blankGap s ≤ σ.breaks + 1
    · have hsucc : blankGap s = σ.breaks + 1 := by omega
      rw [h₁.breakBelowTwo_eq hb', hsucc]
      simpa using h₁
    · have h₂ := h₁.breakBelowTwo_of_lt (s := s) (by simp only; omega)
      have hzero : σ.breaks = 0 := by omega
      have htwo : blankGap s = 2 := by omega
      simpa [htwo, hzero, List.replicate_succ] using h₂

/-- A blank line before what comes next. -/
theorem separate (h : Shows p text levels σ) (enabled : Bool) (n : Nat)
    (hn : n = if enabled && !σ.fresh && !σ.blockStart then blankGap s else 0) :
    Shows (p.separate s enabled) (text ++ List.replicate (n - σ.breaks) '\n') levels
      (σ.advance n) := by
  unfold Printer.separate
  rw [h.fresh, h.blockStart]
  subst hn
  cases enabled <;> cases hf : σ.fresh <;> cases hb : σ.blockStart <;>
    simp [Pace.advance, h]
  exact h.breakBelowTwo_breakBelowTwo

theorem ensureLineStart (h : Shows p text levels σ) (n : Nat)
    (hn : n = if σ.fresh then 0 else 1) :
    Shows (p.ensureLineStart s) (text ++ List.replicate (n - σ.breaks) '\n') levels
      (σ.advance n) := by
  unfold Printer.ensureLineStart Page.ensureLineStart
  rw [h.lineStart]
  cases hs : σ.atStart with
  | true =>
    have hb : n - σ.breaks = 0 := hn ▸ Pace.line_sub_breaks hs
    rw [hb, Pace.advance_of_le (Nat.sub_eq_zero_iff_le.mp hb)]
    simpa using h
  | false =>
    simp only [Pace.atStart, Bool.or_eq_false_iff, decide_eq_false_iff_not, Nat.not_lt,
      Nat.le_zero] at hs
    obtain ⟨hf, hb⟩ := hs
    have hone : n = 1 := by simpa [hf] using hn
    simpa [Pace.advance, hone, hb, Printer.newline] using h.newline (s := s) (by omega)

theorem withFlags (h : Shows p text levels σ) (due blockStart : Bool) :
    Shows { p with blankDue := due, atBlockStart := blockStart } text levels
      { σ with due := due, blockStart := blockStart } :=
  ⟨h.text, h.levels, h.breaks, h.fresh, h.lineStart, rfl, rfl⟩

end Shows

theorem Printer.startStatement_eq (s : Style) (p : Printer) :
    p.startStatement s =
      { p.separate s p.blankDue with blankDue := false, atBlockStart := false }.ensureLineStart
        s := by
  obtain ⟨page, due, blockStart, separated⟩ := p
  cases due <;> rfl

namespace Shows

variable {s : Style} {p : Printer} {text : Text} {levels : List Nat} {σ : Pace}

/-- Line breaks written in two steps. -/
theorem advance_trans {m n : Nat}
    (h : Shows p (text ++ List.replicate (m - σ.breaks) '\n' ++
      List.replicate (n - (σ.advance m).breaks) '\n') levels ((σ.advance m).advance n)) :
    Shows p (text ++ List.replicate (max m n - σ.breaks) '\n') levels (σ.advance (max m n)) := by
  have hbreaks : m - σ.breaks + (n - max σ.breaks m) = max m n - σ.breaks := by omega
  rw [Pace.advance_advance, Pace.breaks_advance, List.append_assoc,
    List.replicate_append_replicate, hbreaks] at h
  exact h

/-- The line breaks before a statement. -/
theorem separate_startStatement (h : Shows p text levels σ) (heads : Bool) :
    Shows ((p.separate s (!σ.own && heads)).startStatement s)
      (text ++ List.replicate (σ.wantStatement s heads - σ.breaks) '\n') levels
      { σ.advance (σ.wantStatement s heads) with due := false, blockStart := false } := by
  obtain ⟨m₁, hm₁⟩ : ∃ m, m =
      if (!σ.own && heads) && !σ.fresh && !σ.blockStart then blankGap s else 0 := ⟨_, rfl⟩
  obtain ⟨m₂, hm₂⟩ : ∃ m, m =
      if σ.due && !σ.fresh && !σ.blockStart then blankGap s else 0 := ⟨_, rfl⟩
  obtain ⟨m₃, hm₃⟩ : ∃ m, m = if σ.fresh then 0 else 1 := ⟨_, rfl⟩
  have hone : max (blankGap s) 1 = blankGap s := by
    unfold blankGap
    omega
  have hwant : max (max m₁ m₂) m₃ = σ.wantStatement s heads := by
    subst hm₁ hm₂ hm₃
    unfold Pace.wantStatement
    cases σ.fresh <;> cases σ.blockStart <;> cases σ.due <;> cases σ.own <;> cases heads <;>
      simp [hone]
  have h₁ := h.separate (s := s) _ m₁ hm₁
  have hf₁ : (σ.advance m₁).fresh = σ.fresh := Pace.fresh_advance fun hf => by simp [hm₁, hf]
  have h₂ := (h₁.separate (s := s) σ.due m₂ (by simp [hf₁, hm₂])).advance_trans
  have hf₂ : (σ.advance (max m₁ m₂)).fresh = σ.fresh :=
    Pace.fresh_advance fun hf => by simp [hm₁, hm₂, hf]
  have h₃ := (h₂.ensureLineStart (s := s) m₃ (by simp [hf₂, hm₃])).advance_trans
  rw [Printer.startStatement_eq, h₁.due, Pace.due_advance, ← hwant]
  exact h₃.withFlags false false

theorem write (h : Shows p text levels σ) {t : Text} (ht : t ≠ []) :
    Shows (p.write t)
      (text ++ ((if σ.atStart then Text.spaces (levels.headD 0) else []) ++ t)) levels
      { σ with breaks := 0, fresh := false } := by
  have hne : t.isEmpty = false := by simpa using ht
  constructor
  · simp only [Printer.write, Page.write, hne, h.lineStart, Page.indentation, h.levels, Page.text,
      ← h.text]
    cases σ.atStart <;> simp
  · simp [Printer.write, Page.write, hne, h.levels]
  · simp [Printer.write, Page.write, hne]
  · simp only [Printer.write, Page.write, hne, Page.isEmpty]
    cases p.page.atLineStart <;> simp [ht]
  · simp [Printer.write, Page.write, hne, Pace.atStart]
  · exact h.due
  · exact h.blockStart

/-- Behind something on the line, a text is written as it is. -/
theorem write_append (h : Shows p text levels σ) (hs : σ.atStart = false) (t : Text) :
    Shows (p.write t) (text ++ t) levels σ := by
  have hσ : σ.fresh = false ∧ σ.breaks = 0 := by simpa [Pace.atStart] using hs
  by_cases ht : t = []
  · subst ht
    rw [List.append_nil]
    exact h
  · have hw := h.write ht
    obtain ⟨breaks, fresh, due, blockStart, own⟩ := σ
    obtain ⟨rfl, rfl⟩ := hσ
    simpa [hs] using hw

theorem currentColumn_write (h : Shows p text levels σ) (hs : σ.atStart = true) {t : Text}
    (ht : t ≠ []) :
    (p.write t).page.currentColumn = Text.endColumn (Text.spaces (levels.headD 0) ++ t) 0 := by
  have hne : t.isEmpty = false := by simpa using ht
  have hstart : p.page.atLineStart = true := h.lineStart.trans hs
  simp [Printer.write, Page.write, hne, hstart, Page.currentColumn, Page.indentation, h.levels]

/-- A command goes to the start of a line. -/
theorem invoke (h : Shows p text levels σ) (name : Text) (list : List Argument) (n : Nat)
    (hn : n = if σ.fresh then 0 else 1) :
    Shows (p.invoke s name list) (text ++ List.replicate (n - σ.breaks) '\n' ++
      (Text.spaces (levels.headD 0) ++ callText s (levels.headD 0) name list)) levels
      ⟨0, false, false, false, σ.own⟩ := by
  have h₁ := h.ensureLineStart (s := s) n hn
  have hs : (σ.advance n).atStart = true := Pace.atStart_advance fun hf => by simp [hn, hf]
  have hne : name ++ ['('] ≠ [] := by simp
  have hcolumn := h₁.currentColumn_write hs hne
  have h₂ := h₁.write hne
  rw [hs, if_pos rfl] at h₂
  generalize hq : (p.ensureLineStart s).write (name ++ ['(']) = q at hcolumn h₂
  have hindent : q.page.indentation = levels.headD 0 := congrArg (·.headD 0) h₂.levels
  have hinvoke : p.invoke s name list =
      { (q.write (arguments s q.page.currentColumn
          (continuationColumn s q.page.currentColumn q.page.indentation) 1 list)).write [')'] with
        blankDue := false, atBlockStart := false } := by
    subst hq
    rfl
  rw [hcolumn, hindent] at hinvoke
  have h₃ := fun t => ((h₂.write_append rfl t).write_append rfl [')']).withFlags false false
  rw [hinvoke]
  simpa [callText] using h₃ _

theorem withOwn (h : Shows p text levels σ) (own : Bool) :
    Shows p text levels { σ with own := own } :=
  ⟨h.text, h.levels, h.breaks, h.fresh, h.lineStart, h.due, h.blockStart⟩

theorem withSeparated (h : Shows p text levels σ) (separated : Bool) :
    Shows { p with separated := separated } text levels σ :=
  ⟨h.text, h.levels, h.breaks, h.fresh, h.lineStart, h.due, h.blockStart⟩

theorem dedent (h : Shows p text levels σ) : Shows p.dedent text levels.tail σ :=
  ⟨h.text, congrArg List.tail h.levels, h.breaks, h.fresh, h.lineStart, h.due, h.blockStart⟩

theorem indent (h : Shows p text levels σ) :
    Shows { p with page := p.page.indent s, atBlockStart := true } text
      ((levels.headD 0 + s.indentWidth) :: levels) { σ with blockStart := true } := by
  refine ⟨h.text, ?_, h.breaks, h.fresh, h.lineStart, h.due, rfl⟩
  simp [Page.indent, Page.indentation, h.levels]

/-- A text at the start of a statement. -/
theorem statement_write (h : Shows p text levels σ) (heads : Bool) {t : Text} (ht : t ≠ []) :
    Shows (((p.separate s (!σ.own && heads)).startStatement s).write t)
      (text ++ List.replicate (σ.wantStatement s heads - σ.breaks) '\n' ++
        (Text.spaces (levels.headD 0) ++ t)) levels ⟨0, false, false, false, σ.own⟩ := by
  have hs := Pace.atStart_advance (Pace.wantStatement_pos s heads σ)
  have hw := (h.separate_startStatement (s := s) heads).write ht
  simp only [Pace.atStart] at hs
  simp only [Pace.atStart, hs, if_true, Pace.own_advance] at hw
  exact hw

/-- A command at the start of a statement. -/
theorem statement_invoke (h : Shows p text levels σ) (heads : Bool) (name : Text)
    (list : List Argument) :
    Shows (((p.separate s (!σ.own && heads)).startStatement s).invoke s name list)
      (text ++ List.replicate (σ.wantStatement s heads - σ.breaks) '\n' ++
        (Text.spaces (levels.headD 0) ++ callText s (levels.headD 0) name list)) levels
      ⟨0, false, false, false, σ.own⟩ := by
  have hs := Pace.atStart_advance (Pace.wantStatement_pos s heads σ)
  have hi := (h.separate_startStatement (s := s) heads).invoke (s := s) name list _ rfl
  simp only [Pace.line_sub_breaks hs, List.replicate_zero, List.append_nil,
    Pace.own_advance] at hi
  exact hi

end Shows

/-! ### The printer settles and writes -/

theorem leads_of_own {s : Style} {r : Row} (h : isOwn r = true) (rest : List Row) :
    leads s (r :: rest) = leads s rest := by
  simp [leads, h]

theorem leads_of_not_own {s : Style} {r : Row} (h : isOwn r = false) (rest : List Row) :
    leads s (r :: rest) = opensSpaced s r := by
  simp [leads, h]

theorem Printer.separate_withSeparated (s : Style) (enabled separated : Bool) (p : Printer) :
    { p.separate s enabled with separated := separated } =
      { p with separated := separated }.separate s enabled := by
  have hbreak (q : Printer) : { q.breakBelowTwo s with separated := separated } =
      { q with separated := separated }.breakBelowTwo s := by
    simp only [Printer.breakBelowTwo]
    split <;> rfl
  simp only [Printer.separate]
  split
  · rfl
  · rw [hbreak, hbreak]

theorem announce_of_own {s : Style} {own : Bool} {p : Printer} {r : Row} {rest : List Row}
    (hr : isOwn r = true) (h : p.separated = (own && leads s (r :: rest))) :
    announce s own p (r :: rest) =
      { p with separated := leads s (r :: rest) }.separate s (!own && leads s (r :: rest)) := by
  obtain ⟨page, due, blockStart, separated⟩ := p
  obtain rfl : separated = (own && leads s (r :: rest)) := h
  rw [announce, hr]
  cases own with
  | true => simp [Printer.separate]
  | false =>
    cases leads s (r :: rest) with
    | true => exact Printer.separate_withSeparated s true true _
    | false => simp [Printer.separate]

theorem openBlock_eq {s : Style} (enabled : Bool) {own : Bool} {p : Printer}
    (h : p.separated = (own && enabled)) :
    p.openBlock s enabled =
      ({ p with separated := false }.separate s (!own && enabled)).startStatement s := by
  obtain ⟨page, due, blockStart, separated⟩ := p
  obtain rfl : separated = (own && enabled) := h
  cases own <;> cases enabled <;> rfl

namespace Printer

@[simp] theorem separated_separate (s : Style) (enabled : Bool) (p : Printer) :
    (p.separate s enabled).separated = p.separated := by
  have hbreak (q : Printer) : (q.breakBelowTwo s).separated = q.separated := by
    unfold breakBelowTwo
    split <;> rfl
  unfold separate
  split
  · rfl
  · rw [hbreak, hbreak]

@[simp] theorem separated_startStatement (s : Style) (p : Printer) :
    (p.startStatement s).separated = p.separated := by
  rw [startStatement_eq]
  exact separated_separate s p.blankDue p

@[simp] theorem separated_invoke (s : Style) (name : Text) (list : List Argument) (p : Printer) :
    (p.invoke s name list).separated = p.separated := rfl

@[simp] theorem separated_comment (s : Style) (text : Text) (trailing : Bool) (p : Printer) :
    (p.comment s text trailing).separated = p.separated := by
  unfold comment
  split
  · rfl
  · exact separated_startStatement s p

end Printer

/-- A printer remembers that room was made exactly between a comment and the block it leads up
to. -/
theorem separated_emitRow {s : Style} {own : Bool} {p : Printer} {r : Row} {rest : List Row}
    (h : p.separated = (own && leads s (r :: rest))) :
    (emitRow s (announce s own p (r :: rest)) r).separated = (isOwn r && leads s rest) := by
  cases hr : isOwn r with
  | true =>
    rw [announce_of_own hr h, leads_of_own hr]
    cases r with
    | lineComment text trailing => simp [emitRow, Printer.newline]
    | _ => simp [isOwn] at hr
  | false =>
    rw [announce_of_not_own (by simpa using hr)]
    rw [leads_of_not_own hr] at h
    cases r with
    | lineBreak => simpa [emitRow, Printer.newline, opensSpaced] using h
    | lineComment text trailing => simpa [emitRow, Printer.newline, opensSpaced] using h
    | bracketComment text fence trailing => simpa [emitRow, opensSpaced] using h
    | bracket text fence => simpa [emitRow, Printer.write, opensSpaced] using h
    | unknown => simpa [emitRow, opensSpaced] using h
    | call role name list =>
      obtain _ | block | divider | block := role
      · simpa [emitRow, opensSpaced] using h
      · rw [emitRow, openBlock_eq (spaced s block) h]
        simp [Printer.invokeOpening]
      · simpa [emitRow, Printer.invokeOpening, Printer.dedent, opensSpaced] using h
      · simpa [emitRow, Printer.closeBlock, Printer.dedent, opensSpaced] using h

/-- Behind rows other than those that open a block with blank lines, a printer that makes room for
what follows has made it. -/
theorem announce_eq {s : Style} {own : Bool} {p : Printer} {r : Row} {rest : List Row}
    (hr : opensSpaced s r = false) (h : p.separated = (own && leads s (r :: rest))) :
    ∃ separated, announce s own p (r :: rest) =
      { p with separated := separated }.separate s (!own && leads s (r :: rest)) := by
  cases hown : isOwn r with
  | true => exact ⟨_, announce_of_own hown h⟩
  | false =>
    refine ⟨p.separated, ?_⟩
    rw [announce_of_not_own (by simpa using hown), leads_of_not_own hown, hr]
    simp [Printer.separate]

namespace Shows

variable {s : Style} {p : Printer} {text : Text} {levels : List Nat} {σ : Pace}

/-- A comment, behind what stands on its line or on a line of its own. -/
theorem comment (h : Shows p text levels σ) {t : Text} (ht : t ≠ []) {trailing heads : Bool}
    (hheads : trailing = true → heads = false) (n : Nat)
    (hn : n = if trailing && !σ.atStart then 0 else σ.wantStatement s heads) :
    Shows ((p.separate s (!σ.own && heads)).comment s t trailing)
      (text ++ List.replicate (n - σ.breaks) '\n' ++
        ((if (σ.advance n).atStart then Text.spaces (levels.headD 0) else [' ']) ++ t)) levels
      (σ.behindComment 0 trailing σ.own) := by
  cases hbehind : trailing && !σ.atStart with
  | true =>
    obtain ⟨rfl, hs⟩ : trailing = true ∧ σ.atStart = false := by simpa using hbehind
    obtain rfl : heads = false := hheads rfl
    obtain rfl : n = 0 := by simpa [hbehind] using hn
    have hline : p.page.atLineStart = false := h.lineStart.trans hs
    have hσ : σ.fresh = false ∧ σ.breaks = 0 := by simpa [Pace.atStart] using hs
    have hcomment : (p.separate s (!σ.own && false)).comment s t true = p.write (' ' :: t) := by
      simp [Printer.separate, Printer.comment, hline]
    have hbehind' : σ.behindComment 0 true σ.own = σ := by
      rw [Pace.behindComment, if_pos hbehind, ← hσ.1, ← hσ.2]
    rw [hcomment, hbehind', Pace.advance_of_le (Nat.zero_le _), hs]
    simpa using h.write_append hs (' ' :: t)
  | false =>
    obtain rfl : n = σ.wantStatement s heads := by simpa [hbehind] using hn
    have hline : (trailing && !(p.separate s (!σ.own && heads)).page.atLineStart) = false := by
      cases trailing with
      | false => rfl
      | true =>
        obtain rfl : heads = false := hheads rfl
        have hs : σ.atStart = true := by simpa using hbehind
        simp [Printer.separate, h.lineStart, hs]
    have hs := Pace.atStart_advance (Pace.wantStatement_pos s heads σ)
    rw [Printer.comment, hline, Pace.behindComment, hbehind, hs]
    exact h.statement_write heads ht

end Shows

/-! ### One row -/

theorem lineCommentText_ne_nil (s : Style) (comment : Text) : lineCommentText s comment ≠ [] := by
  unfold lineCommentText
  split <;> simp

theorem leads_of_trailing (s : Style) (comment : Text) (rest : List Row) {trailing : Bool}
    (h : trailing = true) : leads s (.lineComment comment trailing :: rest) = false := by
  subst h
  exact leads_of_not_own rfl rest

/-- The line breaks before a comment: none if it stands behind something on its line. -/
theorem want_lineComment (s : Style) (rest : List Row) (σ : Pace) (comment : Text)
    (trailing : Bool) :
    σ.want s rest (.lineComment comment trailing) =
      if trailing && !σ.atStart then 0
      else σ.wantStatement s (leads s (.lineComment comment trailing :: rest)) := by
  cases trailing with
  | false => rfl
  | true => cases hs : σ.atStart <;> simp [Pace.want, hs, leads_of_trailing]

theorem want_bracketComment (s : Style) (rest : List Row) (σ : Pace) (comment : Text)
    (fence : Nat) (trailing : Bool) :
    σ.want s rest (.bracketComment comment fence trailing) =
      if trailing && !σ.atStart then 0
      else σ.wantStatement s (leads s (.bracketComment comment fence trailing :: rest)) := by
  have hleads : leads s (.bracketComment comment fence true :: rest) = false :=
    leads_of_not_own rfl rest
  cases trailing with
  | false => rfl
  | true => cases hs : σ.atStart <;> simp [Pace.want, hs, hleads]

/-- One row is shown: the line breaks before it, what stands before it on its line, and its text. -/
def ShowsRow (s : Style) (p : Printer) (text : Text) (levels : List Nat) (σ : Pace)
    (rest : List Row) (r : Row) : Prop :=
  Shows (emitRow s (announce s σ.own p (r :: rest)) r)
    (text ++ List.replicate (σ.want s rest r - σ.breaks) '\n' ++
      (rowLead ((levelsAt levels r).headD 0) (σ.advance (σ.want s rest r)).atStart r ++
        rowText s ((levelsAt levels r).headD 0) r))
    (levelsBehind s levels r) (σ.behind s r)

section Row
variable {s : Style} {p : Printer} {text : Text} {levels : List Nat} {σ : Pace} {rest : List Row}
  (h : Shows p text levels σ)
include h

theorem showsRow_lineComment {comment : Text} {trailing : Bool}
    (hsep : p.separated = (σ.own && leads s (.lineComment comment trailing :: rest))) :
    ShowsRow s p text levels σ rest (.lineComment comment trailing) := by
  obtain ⟨separated, heq⟩ := announce_eq rfl hsep
  have hcomment := (h.withSeparated separated).comment (lineCommentText_ne_nil s comment)
    (leads_of_trailing s comment rest) _ (want_lineComment s rest σ comment trailing)
  have hbreaks : (σ.behindComment 0 trailing σ.own).breaks = 0 := by
    unfold Pace.behindComment
    split <;> rfl
  have hnewline := (hcomment.newline (s := s) (by simp [hbreaks])).withOwn (!trailing)
  have hbehind : σ.behindComment 1 trailing (!trailing) =
      { σ.behindComment 0 trailing σ.own with
        breaks := (σ.behindComment 0 trailing σ.own).breaks + 1
        fresh := false
        own := !trailing } := by
    unfold Pace.behindComment
    split <;> rfl
  rw [ShowsRow, heq, Pace.behind, hbehind, rowText, ← List.append_assoc, ← List.append_assoc]
  rw [← List.append_assoc] at hnewline
  exact hnewline

theorem showsRow_bracketComment {comment : Text} {fence : Nat} {trailing : Bool}
    (hsep : p.separated = (σ.own && leads s (.bracketComment comment fence trailing :: rest))) :
    ShowsRow s p text levels σ rest (.bracketComment comment fence trailing) := by
  obtain ⟨separated, heq⟩ := announce_eq rfl hsep
  have hcomment := (h.withSeparated separated).comment (t := bracketCommentText comment fence)
    (List.cons_ne_nil _ _) (fun _ => leads_of_not_own rfl rest) _
    (want_bracketComment s rest σ comment fence trailing)
  have hbehind : σ.behindComment 0 trailing false =
      { σ.behindComment 0 trailing σ.own with own := false } := by
    unfold Pace.behindComment
    split <;> rfl
  rw [ShowsRow, heq, Pace.behind, hbehind]
  exact hcomment.withOwn false

theorem showsRow_call {role : Option Keyword} {name : Text} {list : List Argument}
    (hsep : p.separated = (σ.own && leads s (.call role name list :: rest))) :
    ShowsRow s p text levels σ rest (.call role name list) := by
  unfold ShowsRow
  obtain _ | block | divider | block := role
  · obtain ⟨separated, heq⟩ := announce_eq rfl hsep
    have hs : (σ.advance (σ.want s rest (.call none name list))).atStart = true :=
      Pace.atStart_advance (Pace.wantStatement_pos s _ σ)
    rw [heq, hs]
    exact ((h.withSeparated separated).statement_invoke _ name list).withOwn false
  · have hs : (σ.advance (σ.want s rest (.call (some (.opening block)) name list))).atStart =
        true := Pace.atStart_advance (Pace.wantStatement_pos s _ σ)
    rw [announce_of_not_own (by simp [isOwn]), hs, Layout.emitRow,
      openBlock_eq (spaced s block) hsep]
    exact ((h.withSeparated false).statement_invoke _ name list).indent.withOwn false
  · have hs : (σ.advance (σ.want s rest (.call (some (.dividing divider)) name list))).atStart =
        true := Pace.atStart_advance fun hf => by simp [Pace.want, hf]
    rw [announce_of_not_own (by simp [isOwn]), hs]
    exact (h.dedent.invoke name list _ rfl).indent.withOwn false
  · have hs : (σ.advance (σ.want s rest (.call (some (.closing block)) name list))).atStart =
        true := Pace.atStart_advance fun hf => by simp [Pace.want, hf]
    rw [announce_of_not_own (by simp [isOwn]), hs]
    exact ((h.dedent.invoke name list _ rfl).withFlags (spaced s block) false).withOwn false

/-- A row that is not dropped is shown. -/
theorem showsRow {r : Row} (hsep : p.separated = (σ.own && leads s (r :: rest)))
    (hkeep : r.isLineBreak = true → σ.breaks ≤ s.allowedBlankLines) :
    ShowsRow s p text levels σ rest r := by
  cases r with
  | lineBreak =>
    have hline := (h.newline (hkeep rfl)).withOwn false
    rw [ShowsRow, announce_of_not_own (by simp [isOwn])]
    simpa [Layout.emitRow, rowLead, rowText, Pace.want, levelsBehind, Pace.behind] using hline
  | unknown =>
    rw [ShowsRow, announce_of_not_own (by simp [isOwn])]
    simpa [Layout.emitRow, rowLead, rowText, Pace.want, levelsBehind, Pace.behind] using
      h.withOwn false
  | lineComment comment trailing => exact showsRow_lineComment h hsep
  | bracketComment comment fence trailing => exact showsRow_bracketComment h hsep
  | bracket body fence =>
    obtain ⟨separated, heq⟩ := announce_eq rfl hsep
    have hne : bracketText body fence ≠ [] := by simp [bracketText, Token.opener]
    have hs : (σ.advance (σ.want s rest (.bracket body fence))).atStart = true :=
      Pace.atStart_advance (Pace.wantStatement_pos s _ σ)
    rw [ShowsRow, heq, hs]
    exact ((h.withSeparated separated).statement_write _ hne).withOwn false
  | call role name list => exact showsRow_call h hsep

end Row

theorem verbatim_replicate (s : Style) (levels : List Nat) (k : Nat) (lineStart : Bool)
    (rows : List Row) :
    verbatim s levels lineStart (List.replicate k .lineBreak ++ rows) =
      List.replicate k '\n' ++ verbatim s levels (lineStart || 0 < k) rows := by
  induction k generalizing lineStart with
  | zero => simp
  | succ k ih =>
    simp [List.replicate_succ, verbatim, ih, rowLead, rowText, levelsBehind, lineStartBehind]

theorem atStart_behind (s : Style) (σ : Pace) (rest : List Row) (r : Row) :
    (σ.behind s r).atStart =
      lineStartBehind (σ.atStart || 0 < σ.want s rest r - σ.breaks) r := by
  have hcomment (breaks : Nat) (trailing own : Bool) :
      (σ.behindComment breaks trailing own).atStart = decide (0 < breaks) := by
    unfold Pace.behindComment
    split <;> rfl
  cases r with
  | lineComment text trailing => exact hcomment 1 trailing (!trailing)
  | bracketComment text fence trailing => exact hcomment 0 trailing false
  | unknown =>
    change σ.atStart = (σ.atStart || decide (0 < 0 - σ.breaks))
    simp
  | lineBreak => simp [Pace.behind, lineStartBehind, Pace.atStart]
  | bracket => rfl
  | call role name list =>
    obtain _ | k := role
    · rfl
    · cases k <;> rfl

theorem own_behindComment (breaks : Nat) (trailing own : Bool) (σ : Pace) :
    (σ.behindComment breaks trailing own).own = own := by
  unfold Pace.behindComment
  split <;> rfl

theorem own_behind (s : Style) (σ : Pace) (r : Row) : (σ.behind s r).own = isOwn r := by
  unfold Pace.behind
  split <;> first | rfl | exact own_behindComment _ _ _ _

/-- The text of rows is what they settle to, written as it is. -/
theorem text_emitRows {s : Style} {rows : List Row} {p : Printer} {text : Text}
    {levels : List Nat} {σ : Pace} (h : Shows p text levels σ)
    (hsep : p.separated = (σ.own && leads s rows)) :
    (emitRows s σ.own p rows).page.text =
      text ++ verbatim s levels σ.atStart (settle s σ rows) := by
  induction rows generalizing p text levels σ with
  | nil => simpa [emitRows, settle, verbatim] using h.text
  | cons r rest ih =>
    rw [emitRows, settle]
    have hsep' := separated_emitRow hsep
    split
    · next hdrop =>
      obtain ⟨hr, hb⟩ : r.isLineBreak = true ∧ s.allowedBlankLines < σ.breaks := by
        simpa using hdrop
      obtain rfl : r = .lineBreak := by cases r <;> simp_all [Row.isLineBreak]
      have hsame : Layout.emitRow s (announce s σ.own p (.lineBreak :: rest)) .lineBreak = p := by
        rw [announce_of_not_own (by simp [isOwn])]
        exact h.newline_eq hb
      rw [hsame] at hsep' ⊢
      exact ih (h.withOwn false) hsep'
    · next hkeep =>
      have hstep := showsRow h hsep (by simpa using hkeep)
      rw [← own_behind s σ r] at hsep' ⊢
      rw [ih hstep hsep', verbatim_replicate, verbatim, atStart_behind s σ rest r,
        Pace.atStart_advance_eq]
      simp only [List.append_assoc]

/-- The printer settles the line breaks of a tree and writes its rows. -/
theorem statements_eq_verbatim (s : Style) (list : List Statement) :
    statements s list = verbatim s [] true (settle s .start (Statement.rowsAll list)) := by
  rw [statements, emitAll_eq_emitRows]
  exact text_emitRows shows_start rfl

end Listfile.Layout
