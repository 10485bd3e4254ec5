import Listfile.Proofs.Settled
import Listfile.Proofs.Spelling

/-! Blank lines in what is written. A text is followed character by character
with a count of the line feeds that stand in a row, and a style keeps that count
at one more than the blank lines it allows (`feedsWithin_verbatim`). Behind a line
with something on it these are as many blank lines as are allowed. At the top of
the page no such line comes first, and there one blank line more can be written.
It is written wherever a tree starts with that many line breaks, and only a tree
that starts with a line break has blank lines at the top at all
(`blank_lines_capped`). -/

namespace Listfile

namespace Text

/-! ### Line feeds in a row -/

/-- The lines of a text, without the line feeds that end them. -/
def lines : Text → List Text
  | [] => []
  | c :: t =>
    if c = '\n' then [] :: lines t
    else match lines t with
      | [] => [[c]]
      | line :: rest => (c :: line) :: rest

/-- How many line feeds in a row a text ends with, if `n` stand before it. -/
def feeds (n : Nat) (t : Text) : Nat := t.foldl (fun n c => if c = '\n' then n + 1 else 0) n

/-- Nowhere in a text do more than `most` line feeds stand in a row, if `n` stand before it. -/
def FeedsWithin (most n : Nat) : Text → Prop
  | [] => True
  | c :: t => if c = '\n' then n < most ∧ FeedsWithin most (n + 1) t else FeedsWithin most 0 t

/-- A text that is not empty and holds no line feed. -/
def OneLine (t : Text) : Prop := t ≠ [] ∧ '\n' ∉ t

theorem feeds_cons (n : Nat) (c : Char) (t : Text) :
    feeds n (c :: t) = feeds (if c = '\n' then n + 1 else 0) t := rfl

theorem feeds_append (n : Nat) (s t : Text) : feeds n (s ++ t) = feeds (feeds n s) t :=
  List.foldl_append ..

theorem feedsWithin_append (most n : Nat) (s t : Text) :
    FeedsWithin most n (s ++ t) ↔ FeedsWithin most n s ∧ FeedsWithin most (feeds n s) t := by
  induction s generalizing n with
  | nil => simp [FeedsWithin, feeds]
  | cons c s ih =>
    rw [List.cons_append, FeedsWithin, FeedsWithin, feeds_cons]
    split <;> simp [ih, and_assoc]

theorem feeds_replicate (n k : Nat) : feeds n (List.replicate k '\n') = n + k := by
  induction k generalizing n with
  | zero => rfl
  | succ k ih =>
    rw [List.replicate_succ, feeds_cons, if_pos rfl, ih]
    omega

theorem FeedsWithin.feeds_le {most n : Nat} {t : Text} (h : FeedsWithin most n t) (hn : n ≤ most) :
    feeds n t ≤ most := by
  induction t generalizing n with
  | nil => exact hn
  | cons c t ih =>
    rw [FeedsWithin] at h
    rw [feeds_cons]
    split at h
    · next hc => exact if_pos hc ▸ ih h.2 h.1
    · next hc => exact if_neg hc ▸ ih h (Nat.zero_le most)

theorem feedsWithin_replicate {most n k : Nat} (h : n + k ≤ most) :
    FeedsWithin most n (List.replicate k '\n') := by
  induction k generalizing n with
  | zero => trivial
  | succ k ih =>
    rw [List.replicate_succ, FeedsWithin, if_pos rfl]
    exact ⟨by omega, ih (by omega)⟩

theorem feedsWithin_of_not_mem {t : Text} (h : '\n' ∉ t) (most n : Nat) :
    FeedsWithin most n t := by
  induction t generalizing n with
  | nil => trivial
  | cons c t ih =>
    obtain ⟨hc, ht⟩ : '\n' ≠ c ∧ '\n' ∉ t := by simpa using h
    rw [FeedsWithin, if_neg (Ne.symm hc)]
    exact ih ht 0

theorem feeds_zero_of_not_mem {t : Text} (h : '\n' ∉ t) : feeds 0 t = 0 := by
  induction t with
  | nil => rfl
  | cons c t ih =>
    obtain ⟨hc, ht⟩ : '\n' ≠ c ∧ '\n' ∉ t := by simpa using h
    rw [feeds_cons, if_neg (Ne.symm hc)]
    exact ih ht

/-- A text that neither starts nor ends with a line feed and has no two of them in a row. -/
def Solid (t : Text) : Prop := ∀ most n, 0 < most → FeedsWithin most n t ∧ feeds n t = 0

theorem OneLine.solid {t : Text} (h : t.OneLine) : t.Solid := by
  intro most n _
  refine ⟨feedsWithin_of_not_mem h.2 most n, ?_⟩
  obtain ⟨c, t, rfl⟩ := List.exists_cons_of_ne_nil h.1
  obtain ⟨hc, ht⟩ : '\n' ≠ c ∧ '\n' ∉ t := by simpa using h.2
  rw [feeds_cons, if_neg (Ne.symm hc)]
  exact feeds_zero_of_not_mem ht

theorem FeedsWithin.mono {most most' n : Nat} {t : Text} (h : FeedsWithin most n t)
    (hle : most ≤ most') : FeedsWithin most' n t := by
  induction t generalizing n with
  | nil => trivial
  | cons c t ih =>
    rw [FeedsWithin] at h ⊢
    split at h
    · next hc => exact if_pos hc ▸ ⟨h.1.trans_le hle, ih h.2⟩
    · next hc => exact if_neg hc ▸ ih h

/-- A text without a line feed in front changes nothing. -/
theorem Solid.behind {t lead : Text} (h : t.Solid) (hl : '\n' ∉ lead) : (lead ++ t).Solid := by
  intro most n hmost
  rw [feedsWithin_append, feeds_append]
  obtain ⟨hwithin, hfeeds⟩ := h most (feeds n lead) hmost
  exact ⟨⟨feedsWithin_of_not_mem hl most n, hwithin⟩, hfeeds⟩

/-- Whatever stands between a text without a line feed and another one is closed in. -/
theorem Solid.between {front inner back : Text} (hf : front.OneLine) (hi : FeedsWithin 1 0 inner)
    (hb : back.OneLine) : Solid (front ++ inner ++ back) := by
  intro most n hmost
  obtain ⟨hfront, hzero⟩ := hf.solid most n hmost
  obtain ⟨hback, hend⟩ := hb.solid most (feeds 0 inner) hmost
  simp only [feedsWithin_append, feeds_append, hzero]
  exact ⟨⟨⟨hfront, hi.mono hmost⟩, hback⟩, hend⟩

theorem not_mem_join {separator : Text} (hs : '\n' ∉ separator) {words : List Text}
    (h : ∀ t ∈ words, '\n' ∉ t) : '\n' ∉ join separator words := by
  fun_induction join separator words with
  | case1 => simp
  | case2 t => exact h t (by simp)
  | case3 t rest _ ih =>
    obtain ⟨ht, hrest⟩ := List.forall_mem_cons.mp h
    simp [ht, hs, ih hrest]

/-! ### Lines without anything on them -/

/-- A run of blank lines stands at the front of a list of lines or behind a line that is not
blank. -/
theorem blanks_front_or_behind {k : Nat} {list : List Text}
    (h : List.replicate k [] <:+: list) :
    k ≤ (list.takeWhile (·.isEmpty)).length ∨
      List.replicate k [] <:+: list.dropWhile (·.isEmpty) := by
  induction list with
  | nil =>
    have hk : List.replicate k ([] : Text) = [] := List.infix_nil.mp h
    exact .inl (by simpa using congrArg List.length hk)
  | cons line rest ih =>
    cases line with
    | cons c t => exact .inr h
    | nil =>
      rcases List.infix_cons_iff.mp h with hprefix | hinner
      · cases k with
        | zero => exact .inl (Nat.zero_le _)
        | succ k =>
          refine .inl ?_
          rw [List.replicate_succ, List.prefix_cons_inj] at hprefix
          obtain ⟨back, rfl⟩ := hprefix
          simp
      · rcases ih hinner with hle | hbehind
        · exact .inl (Nat.le_succ_of_le hle)
        · exact .inr hbehind

/-- Line feeds in a row are blank lines, one of them less where they end a line that is not
blank. -/
theorem blanks_of_feedsWithin {most n : Nat} {t : Text} (h : FeedsWithin most n t)
    (hn : n ≤ most) :
    n + ((lines t).takeWhile (·.isEmpty)).length ≤ most ∧
      ∀ k, List.replicate k [] <:+: (lines t).dropWhile (·.isEmpty) → 0 < k → k < most := by
  induction t generalizing n with
  | nil =>
    refine ⟨hn, fun k hk hpos => ?_⟩
    have hnil : List.replicate k ([] : Text) = [] := List.infix_nil.mp hk
    have := congrArg List.length hnil
    simp only [List.length_replicate, List.length_nil] at this
    omega
  | cons c t ih =>
    rw [FeedsWithin] at h
    split at h
    · next hc =>
      obtain ⟨hfront, hbehind⟩ := ih h.2 h.1
      rw [lines, if_pos hc]
      refine ⟨?_, hbehind⟩
      rw [List.takeWhile_cons_of_pos rfl, List.length_cons]
      omega
    · next hc =>
      obtain ⟨hfront, hbehind⟩ := ih h (Nat.zero_le _)
      obtain ⟨line, rest, hlines, hrest⟩ : ∃ line rest, lines (c :: t) = (c :: line) :: rest ∧
          (rest = [] ∨ lines t = line :: rest) := by
        rw [lines, if_neg hc]
        cases hl : lines t with
        | nil => exact ⟨[], [], rfl, .inl rfl⟩
        | cons line rest => exact ⟨line, rest, rfl, .inr rfl⟩
      rw [hlines]
      refine ⟨by simpa using hn, fun k hk hpos => ?_⟩
      have hinner : List.replicate k [] <:+: rest := by
        rcases List.infix_cons_iff.mp hk with hprefix | hinner
        · obtain ⟨k, rfl⟩ := Nat.exists_eq_add_one_of_ne_zero hpos.ne'
          simp [List.replicate_succ, List.prefix_cons_iff] at hprefix
        · exact hinner
      rcases hrest with rfl | hl
      · have := List.infix_nil.mp hinner
        simp at this
        omega
      · rw [hl] at hfront hbehind
        cases line with
        | cons d u => exact hbehind k (hinner.trans (List.suffix_cons _ _).isInfix) hpos
        | nil =>
          rcases blanks_front_or_behind hinner with hle | hlater
          · simp at hfront
            omega
          · exact hbehind k hlater hpos

end Text

open Layout

/-! ### Trees of texts that hold no line feed -/

mutual

/-- The texts of an argument are not empty and hold no line feed. -/
def Argument.OneLine : Argument → Prop
  | .unquoted text => text.OneLine
  | .quoted text => text.OneLine
  | .bracket text _ _ => text.OneLine
  | .group arguments => Argument.OneLineAll arguments
  | .lineComment text _ => text.OneLine
  | .bracketComment text _ _ => text.OneLine
  | .unknown => True

def Argument.OneLineAll : List Argument → Prop
  | [] => True
  | a :: rest => a.OneLine ∧ Argument.OneLineAll rest

end

mutual

/-- The names, literals and comments of a statement are not empty and hold no line feed. -/
def Statement.OneLine : Statement → Prop
  | .lineBreak _ => True
  | .lineComment text _ _ => text.OneLine
  | .bracketComment text _ _ _ => text.OneLine
  | .bracket text _ _ => text.OneLine
  | .command name arguments _ => name.OneLine ∧ Argument.OneLineAll arguments
  | .definition _ name arguments body _ =>
    name.OneLine ∧ Argument.OneLineAll arguments ∧ Statement.OneLineAll body
  | .conditional head elseifs none => head.OneLine ∧ Branch.OneLineAll elseifs
  | .conditional head elseifs (some arm) =>
    head.OneLine ∧ Branch.OneLineAll elseifs ∧ arm.OneLine
  | .loop _ arguments body _ => Argument.OneLineAll arguments ∧ Statement.OneLineAll body
  | .unknown => True

def Statement.OneLineAll : List Statement → Prop
  | [] => True
  | s :: rest => s.OneLine ∧ Statement.OneLineAll rest

def Branch.OneLine : Branch → Prop
  | .mk predicate body _ => Argument.OneLineAll predicate ∧ Statement.OneLineAll body

def Branch.OneLineAll : List Branch → Prop
  | [] => True
  | b :: rest => b.OneLine ∧ Branch.OneLineAll rest

end

def Row.OneLine : Row → Prop
  | .lineBreak => True
  | .lineComment text _ => text.OneLine
  | .bracketComment text _ _ => text.OneLine
  | .bracket text _ => text.OneLine
  | .call _ name arguments => name.OneLine ∧ Argument.OneLineAll arguments
  | .unknown => True

theorem Keyword.oneLine_spelling : ∀ k : Keyword, k.spelling.OneLine := by
  unfold Text.OneLine
  decide

theorem Row.oneLine_keyword {k : Keyword} {list : List Argument} (h : Argument.OneLineAll list) :
    (Row.keyword k list).OneLine := ⟨k.oneLine_spelling, h⟩

mutual

theorem Statement.oneLine_rows :
    ∀ s : Statement, s.OneLine → ∀ r ∈ s.rows, r.OneLine
  | .lineBreak _, h | .lineComment _ _ _, h | .bracketComment _ _ _ _, h | .bracket _ _ _, h
  | .command _ _ _, h | .unknown, h => List.forall_mem_singleton.mpr h
  | .definition kind name arguments body _, ⟨hname, harguments, hbody⟩ => by
    rw [Statement.rows, List.forall_mem_cons, List.forall_mem_append, List.forall_mem_singleton]
    exact ⟨Row.oneLine_keyword ⟨hname, harguments⟩, Statement.oneLine_rowsAll body hbody,
      Row.oneLine_keyword ⟨hname, trivial⟩⟩
  | .conditional head elseifs none, ⟨hhead, helseifs⟩ => by
    rw [Statement.rows, List.forall_mem_append, List.forall_mem_append, List.forall_mem_singleton]
    exact ⟨⟨Branch.oneLine_rows _ head hhead, Branch.oneLine_rowsAll elseifs helseifs⟩,
      Row.oneLine_keyword trivial⟩
  | .conditional head elseifs (some arm), ⟨hhead, helseifs, harm⟩ => by
    rw [Statement.rows, List.forall_mem_append, List.forall_mem_append, List.forall_mem_append,
      List.forall_mem_singleton]
    exact ⟨⟨⟨Branch.oneLine_rows _ head hhead, Branch.oneLine_rowsAll elseifs helseifs⟩,
      Branch.oneLine_rows _ arm harm⟩, Row.oneLine_keyword trivial⟩
  | .loop kind arguments body _, ⟨harguments, hbody⟩ => by
    rw [Statement.rows, List.forall_mem_cons, List.forall_mem_append, List.forall_mem_singleton]
    exact ⟨Row.oneLine_keyword harguments, Statement.oneLine_rowsAll body hbody,
      Row.oneLine_keyword trivial⟩

/-- The rows of a tree hold the texts of the tree and keywords. -/
theorem Statement.oneLine_rowsAll :
    ∀ list : List Statement, Statement.OneLineAll list →
      ∀ r ∈ Statement.rowsAll list, r.OneLine
  | [], _ => by simp [Statement.rowsAll]
  | s :: rest, ⟨hs, hrest⟩ => List.forall_mem_append.mpr
    ⟨Statement.oneLine_rows s hs, Statement.oneLine_rowsAll rest hrest⟩

theorem Branch.oneLine_rows (k : Keyword) :
    ∀ b : Branch, b.OneLine → ∀ r ∈ b.rows k, r.OneLine
  | .mk _ body _, ⟨hpredicate, hbody⟩ => List.forall_mem_cons.mpr
    ⟨Row.oneLine_keyword hpredicate, Statement.oneLine_rowsAll body hbody⟩

theorem Branch.oneLine_rowsAll :
    ∀ list : List Branch, Branch.OneLineAll list → ∀ r ∈ Branch.rowsAll list, r.OneLine
  | [], _ => by simp [Branch.rowsAll]
  | b :: rest, ⟨hb, hrest⟩ => List.forall_mem_append.mpr
    ⟨Branch.oneLine_rows _ b hb, Branch.oneLine_rowsAll rest hrest⟩

end

/-! ### Arguments -/

theorem Text.OneLine.append {s t : Text} (hs : s.OneLine) (ht : '\n' ∉ t) : (s ++ t).OneLine :=
  ⟨by simp [hs.1], by simp [hs.2, ht]⟩

theorem Text.not_mem_spaces (n : Nat) : '\n' ∉ Text.spaces n := by
  simp [Text.spaces]

theorem oneLine_bracketText {text : Text} (h : text.OneLine) (fence : Nat) :
    (bracketText text fence).OneLine := by
  refine ⟨by simp [bracketText, Token.opener], ?_⟩
  simp [bracketText, Token.opener, Token.closer, h.2]

theorem oneLine_bracketCommentText {text : Text} (h : text.OneLine) (fence : Nat) :
    (bracketCommentText text fence).OneLine :=
  ⟨by simp [bracketCommentText], by simp [bracketCommentText, (oneLine_bracketText h fence).2]⟩

theorem oneLine_lineCommentText (s : Style) {text : Text} (h : text.OneLine) :
    (lineCommentText s text).OneLine := by
  unfold lineCommentText
  split
  · exact ⟨by simp, by simp [mt mem_of_mem_trim h.2]⟩
  · exact ⟨by simp, by simp [h.2]⟩

theorem not_mem_unwords {words : List Text} (h : ∀ t ∈ words, t.OneLine) :
    '\n' ∉ Text.unwords words :=
  Text.not_mem_join (by simp) fun t ht => (h t ht).2

mutual

/-- An argument on one line holds no line feed. -/
theorem oneLine_inline (s : Style) :
    ∀ a : Argument, a.OneLine → ∀ t ∈ inline? s a, t.OneLine
  | .unquoted _, h, _, rfl => h
  | .quoted text, h, _, rfl => ⟨by simp, by simp [h.2]⟩
  | .bracket _ fence _, h, _, rfl => oneLine_bracketText h fence
  | .group arguments, h, _, rfl =>
    ⟨by simp, by simp [not_mem_unwords (oneLine_inlineAll s arguments h)]⟩
  | .lineComment _ _, h, _, rfl => oneLine_lineCommentText s h
  | .bracketComment _ fence _, h, _, rfl => oneLine_bracketCommentText h fence

theorem oneLine_inlineAll (s : Style) :
    ∀ list : List Argument, Argument.OneLineAll list → ∀ t ∈ inlineAll s list, t.OneLine
  | [], _ => by simp [inlineAll]
  | a :: rest, ⟨ha, hrest⟩ => by
    have hinline := oneLine_inline s a ha
    rw [inlineAll]
    split
    · next text htext =>
      exact List.forall_mem_cons.mpr ⟨hinline text htext, oneLine_inlineAll s rest hrest⟩
    · exact oneLine_inlineAll s rest hrest

end

theorem feedsWithin_breakTo (column : Int) : Text.FeedsWithin 1 0 (breakTo column) :=
  ⟨Nat.one_pos, Text.feedsWithin_of_not_mem (Text.not_mem_spaces _) 1 1⟩

theorem feedsWithin_gap (hanging : Int) (gap : Gap) : Text.FeedsWithin 1 0 (gap.text hanging) := by
  cases gap with
  | none => trivial
  | space => exact Text.feedsWithin_of_not_mem (t := [' ']) (by simp) 1 0
  | lineBreak => exact feedsWithin_breakTo hanging

mutual

theorem solid_wrapOne (s : Style) (column hanging reserve : Int) {text : Text}
    (htext : text.OneLine) :
    ∀ a : Argument, a.OneLine → (wrapOne s column hanging reserve text a).Solid
  | .group arguments, h => by
    have hinner := feedsWithin_wrapFrom s (continuationColumn s (column + 1) hanging) (reserve + 1)
      (column + 1) .first arguments h
    rw [wrapOne]
    split
    · have hopen : Text.OneLine ['('] := by simp [Text.OneLine]
      have hclose : Text.OneLine [')'] := by simp [Text.OneLine]
      exact Text.Solid.between hopen hinner hclose
    · exact htext.solid
  | .unquoted _, _ | .quoted _, _ | .bracket _ _ _, _ | .lineComment _ _, _
  | .bracketComment _ _ _, _ | .unknown, _ => htext.solid

/-- In a wrapped list something stands on every line. -/
theorem feedsWithin_wrapFrom (s : Style) (hanging closing column : Int) (place : Place) :
    ∀ list : List Argument, Argument.OneLineAll list →
      Text.FeedsWithin 1 0 (wrapFrom s hanging closing column place list)
  | [], _ => by
    rw [wrapFrom]
    split
    · exact feedsWithin_breakTo hanging
    · trivial
  | a :: rest, ⟨ha, hrest⟩ => by
    have hinline := oneLine_inline s a ha
    rw [wrapFrom]
    split
    · exact feedsWithin_wrapFrom s hanging closing column place rest hrest
    · next text htext =>
      dsimp only
      generalize (if rest.any isKnown then (0 : Int) else closing) = reserve
      generalize Gap.before s column (Text.firstWidth text) reserve place = gap
      have hgap := feedsWithin_gap hanging gap
      obtain ⟨hbody, hend⟩ := solid_wrapOne s (gap.stop hanging column) hanging reserve
        (hinline text htext) a ha 1 (Text.feeds 0 (gap.text hanging)) Nat.one_pos
      rw [Text.feedsWithin_append, Text.feedsWithin_append, Text.feeds_append, hend]
      exact ⟨⟨hgap, hbody⟩, feedsWithin_wrapFrom s hanging closing _ _ rest hrest⟩

end

theorem feedsWithin_arguments (s : Style) (column hanging closing : Int) {list : List Argument}
    (h : Argument.OneLineAll list) :
    Text.FeedsWithin 1 0 (arguments s column hanging closing list) := by
  unfold arguments
  dsimp only
  split
  · exact Text.feedsWithin_of_not_mem (not_mem_unwords (oneLine_inlineAll s list h)) 1 0
  · exact feedsWithin_wrapFrom s hanging closing column .first list h

theorem solid_callText (s : Style) (indentation : Nat) {name : Text} (hname : name.OneLine)
    {list : List Argument} (h : Argument.OneLineAll list) :
    (callText s indentation name list).Solid :=
  Text.Solid.between (hname.append (by simp)) (feedsWithin_arguments s _ _ 1 h)
    (by simp [Text.OneLine])

/-! ### Rows -/

theorem not_mem_rowLead (indentation : Nat) (b : Bool) (r : Row) :
    '\n' ∉ rowLead indentation b r := by
  unfold rowLead
  split
  · simp
  · simp
  · split
    · exact Text.not_mem_spaces indentation
    · simp

theorem breaks_behindComment (σ : Pace) (breaks : Nat) (trailing own : Bool) :
    (σ.behindComment breaks trailing own).breaks = breaks := by
  unfold Pace.behindComment
  split <;> rfl

/-- A row and what stands before it on its line, behind `n` line feeds: where the row is no text,
these are the ones counted before. -/
theorem feedsWithin_row {s : Style} {r : Row} (h : r.OneLine) {σ : Pace} {n : Nat}
    (hkeep : r.isLineBreak = true → n ≤ s.allowedBlankLines)
    (hn : r = .lineBreak ∨ r = .unknown → n = σ.breaks) (indentation : Nat) (b : Bool) :
    Text.FeedsWithin (s.allowedBlankLines + 1) n
        (rowLead indentation b r ++ rowText s indentation r) ∧
      Text.feeds n (rowLead indentation b r ++ rowText s indentation r) =
        (σ.behind s r).breaks := by
  have hpos : 0 < s.allowedBlankLines + 1 := Nat.succ_pos _
  have hlead := not_mem_rowLead indentation b r
  cases r with
  | lineBreak =>
    obtain rfl : n = σ.breaks := hn (.inl rfl)
    exact ⟨⟨Nat.lt_succ_of_le (hkeep rfl), trivial⟩, rfl⟩
  | unknown =>
    obtain rfl : n = σ.breaks := hn (.inr rfl)
    exact ⟨trivial, rfl⟩
  | lineComment text trailing =>
    have hsolid := (oneLine_lineCommentText s h).solid.behind hlead
    rw [rowText, ← List.append_assoc]
    generalize rowLead indentation b _ ++ lineCommentText s text = front at hsolid ⊢
    obtain ⟨hwithin, hfeeds⟩ := hsolid (s.allowedBlankLines + 1) n hpos
    rw [Text.feedsWithin_append, Text.feeds_append, hfeeds]
    exact ⟨⟨hwithin, hpos, trivial⟩, (breaks_behindComment σ 1 trailing _).symm⟩
  | bracketComment text fence trailing =>
    have hsolid := (oneLine_bracketCommentText h fence).solid.behind hlead
    obtain ⟨hwithin, hfeeds⟩ := hsolid (s.allowedBlankLines + 1) n hpos
    exact ⟨hwithin, hfeeds.trans (breaks_behindComment σ 0 trailing _).symm⟩
  | bracket text fence => exact (oneLine_bracketText h fence).solid.behind hlead _ n hpos
  | call role name list =>
    have hbreaks : (σ.behind s (.call role name list)).breaks = 0 := by
      obtain _ | block | divider | block := role <;> rfl
    rw [hbreaks]
    exact (solid_callText s indentation h.1 h.2).behind hlead _ n hpos

/-- Settled rows keep within the line feeds in a row that the style allows. -/
theorem feedsWithin_verbatim {s : Style} {rows : List Row} (h : ∀ r ∈ rows, r.OneLine) {σ : Pace}
    (hσ : σ.breaks ≤ s.allowedBlankLines + 1) (levels : List Nat) (b : Bool) :
    Text.FeedsWithin (s.allowedBlankLines + 1) σ.breaks
      (verbatim s levels b (settle s σ rows)) := by
  induction rows generalizing σ levels b with
  | nil => trivial
  | cons r rest ih =>
    obtain ⟨hr, hrest⟩ := List.forall_mem_cons.mp h
    rw [settle]
    split
    · exact ih hrest (σ := { σ with own := false }) hσ levels b
    · next hdrop =>
      have hwant := want_le s rest σ r
      have hnone : r = .lineBreak ∨ r = .unknown →
          σ.breaks + (σ.want s rest r - σ.breaks) = σ.breaks := by
        rintro (rfl | rfl) <;> simp [Pace.want]
      have hkeep : r.isLineBreak = true →
          σ.breaks + (σ.want s rest r - σ.breaks) ≤ s.allowedBlankLines := by
        intro hbreak
        obtain rfl : r = .lineBreak := by cases r <;> simp_all [Row.isLineBreak]
        simpa [Pace.want, Row.isLineBreak] using hdrop
      rw [verbatim_replicate, verbatim, Text.feedsWithin_append, Text.feedsWithin_append,
        Text.feeds_replicate]
      obtain ⟨hwithin, hfeeds⟩ := feedsWithin_row hr hkeep hnone ((levelsAt levels r).headD 0)
        (b || decide (0 < σ.want s rest r - σ.breaks))
      have hle := hwithin.feeds_le (by omega)
      rw [hfeeds] at hle ⊢
      exact ⟨Text.feedsWithin_replicate (by omega), hwithin, ih hrest hle _ _⟩

/-! ### The top of the page -/

def Statement.isUnknown : Statement → Bool
  | .unknown => true
  | _ => false

/-- Whether the first thing that is written of a tree is a line break. -/
def Statement.startsWithBreak (list : List Statement) : Bool :=
  (list.find? (!·.isUnknown)).any (·.isLineBreak)

/-- Whether a statement puts nothing on a line. -/
def Statement.isBlank (x : Statement) : Bool := x.isLineBreak || x.isUnknown

/-- Whether a list starts with a block with blank lines around it, or with comments that head
one. -/
def Statement.leadsUp (s : Style) (list : List Statement) : Bool :=
  ((list.dropWhile isOwnComment).head?.map (isSpacedBlock s)).getD false

/-- The blank lines at the top of a page that starts with some line breaks: behind these, a block
that goes with blank lines finds no line above to be set off from, and makes sure of two. -/
def Layout.topBlanks (s : Style) (breaks : Nat) (block : Bool) : Nat :=
  if breaks = 0 then 0 else min (max breaks (if block then 2 else 1)) (s.allowedBlankLines + 1)

/-- The blank lines at the top of a page. -/
def Statement.topBlanks (s : Style) (list : List Statement) : Nat :=
  Layout.topBlanks s ((list.takeWhile (·.isBlank)).countP (·.isLineBreak))
    (leadsUp s (list.dropWhile (·.isBlank)))

/-- Behind `breaks` line breaks, and nothing else. -/
def Layout.Pace.top (breaks : Nat) : Pace := ⟨breaks, breaks = 0, false, false, false⟩

theorem Text.lines_replicate_append (k : Nat) (t : Text) :
    lines (List.replicate k '\n' ++ t) = List.replicate k [] ++ t.lines := by
  induction k with
  | zero => rfl
  | succ k ih =>
    rw [List.replicate_succ, List.cons_append, lines, if_pos rfl, ih, List.replicate_succ,
      List.cons_append]

theorem Text.takeWhile_lines_cons {c : Char} (h : c ≠ '\n') (t : Text) :
    (lines (c :: t)).takeWhile (·.isEmpty) = [] := by
  rw [lines, if_neg h]
  split <;> rfl

/-- A row other than a line break puts something on its line. -/
theorem exists_cons_of_row (s : Style) {r : Row} (h : r.OneLine) (hr : r ≠ .lineBreak)
    (hu : r ≠ .unknown) (indentation : Nat) (b : Bool) :
    ∃ c t, rowLead indentation b r ++ rowText s indentation r = c :: t ∧ c ≠ '\n' := by
  have hkind : r.isLineBreak = false := by cases r <;> first | rfl | contradiction
  have hrow (n : Nat) := feedsWithin_row (s := s) h (σ := .start) (n := n) (by simp [hkind])
    (by simp [hr, hu]) indentation b
  cases htext : rowLead indentation b r ++ rowText s indentation r with
  | nil =>
    -- the count behind a text that is empty would be the count before it
    have hsame := (hrow 0).2.trans (hrow 1).2.symm
    rw [htext] at hsame
    contradiction
  | cons c t =>
    refine ⟨c, t, rfl, ?_⟩
    rintro rfl
    have hwithin := (hrow (s.allowedBlankLines + 1)).1
    rw [htext, Text.FeedsWithin, if_pos rfl] at hwithin
    exact Nat.lt_irrefl _ hwithin.1

theorem atStart_top (b : Nat) : (Pace.top b).atStart = true := by
  rcases Nat.eq_zero_or_pos b with rfl | hb
  · rfl
  · simp [Pace.atStart, Pace.top, hb]

/-- The first row of a statement with something on its line, and the line breaks that it wants at
the top of the page. -/
theorem want_top (s : Style) {statement : Statement} (h : statement.isBlank = false)
    (list : List Statement) (b : Nat) :
    ∃ r rest, Statement.rowsAll (statement :: list) = r :: rest ∧ r ≠ .lineBreak ∧ r ≠ .unknown ∧
      (Pace.top b).want s rest r =
        if b = 0 then 0
        else if Statement.leadsUp s (statement :: list) then blankGap s else 1 := by
  have hleads := leads_rowsAll s (statement :: list) (stops_nil s)
  rw [List.append_nil] at hleads
  obtain ⟨r, rest, hrows, hr, hu, hwant⟩ : ∃ r rest, Statement.rowsAll (statement :: list) =
      r :: rest ∧ r ≠ .lineBreak ∧ r ≠ .unknown ∧
      (Pace.top b).want s rest r = (Pace.top b).wantStatement s (leads s (r :: rest)) := by
    cases statement with
    | lineBreak => contradiction
    | unknown => contradiction
    | conditional head elseifs otherwise =>
      obtain ⟨predicate, body, location⟩ := head
      cases otherwise <;> exact ⟨_, _, rfl, by simp [Row.keyword], by simp [Row.keyword], rfl⟩
    | lineComment comment trailing location =>
      refine ⟨_, _, rfl, by simp, by simp, ?_⟩
      rw [want_lineComment, atStart_top, Bool.not_true, Bool.and_false, if_neg Bool.false_ne_true]
    | bracketComment comment fence trailing location =>
      refine ⟨_, _, rfl, by simp, by simp, ?_⟩
      rw [want_bracketComment, atStart_top, Bool.not_true, Bool.and_false,
        if_neg Bool.false_ne_true]
    | _ => exact ⟨_, _, rfl, by simp [Row.keyword], by simp [Row.keyword], rfl⟩
  refine ⟨r, rest, hrows, hr, hu, ?_⟩
  rw [hwant, ← hrows, hleads, ← Statement.leadsUp]
  by_cases hb : b = 0 <;> simp [Pace.top, Pace.wantStatement, hb]

/-- Line breaks behind as many as may stand in a row are not written. -/
theorem topBlanks_of_many (s : Style) {m n : Nat} (hm : s.allowedBlankLines < m)
    (hn : s.allowedBlankLines < n) (block : Bool) : topBlanks s m block = topBlanks s n block := by
  simp only [topBlanks, if_neg (Nat.ne_zero_of_lt hm), if_neg (Nat.ne_zero_of_lt hn)]
  omega

/-- A line break behind as many as may stand in a row is dropped. -/
theorem settle_top_of_many {s : Style} {b : Nat} (hb : s.allowedBlankLines < b)
    (rows : List Row) : settle s (.top b) (.lineBreak :: rows) = settle s (.top b) rows := by
  simp [settle, Row.isLineBreak, Pace.top, hb]

theorem settle_top {s : Style} {b : Nat} (hb : b ≤ s.allowedBlankLines) (rows : List Row) :
    settle s (.top b) (.lineBreak :: rows) = .lineBreak :: settle s (.top (b + 1)) rows := by
  simp [settle, Row.isLineBreak, Pace.top, Nat.not_lt.mpr hb, Pace.want, Pace.behind]

theorem settle_top_unknown (s : Style) (b : Nat) (rows : List Row) :
    settle s (.top b) (.unknown :: rows) = .unknown :: settle s (.top b) rows := by
  simp [settle, Row.isLineBreak, Pace.top, Pace.want, Pace.behind]

/-- The blank lines above the first statement with something on its line. -/
theorem blanks_top_of_not_isBlank (s : Style) {statement : Statement} {list : List Statement}
    (h : Statement.OneLineAll (statement :: list)) (hblank : statement.isBlank = false) {b : Nat}
    (hb : b ≤ s.allowedBlankLines + 1) :
    b + ((verbatim s [] true
        (settle s (.top b) (Statement.rowsAll (statement :: list)))).lines.takeWhile
          (·.isEmpty)).length =
      topBlanks s b (Statement.leadsUp s (statement :: list)) := by
  obtain ⟨r, rest, hrows, hr, hu, hwant⟩ := want_top s hblank list b
  have hone : r.OneLine := Statement.oneLine_rowsAll _ h r (by simp [hrows])
  have hkind : r.isLineBreak = false := by cases r <;> first | rfl | contradiction
  obtain ⟨c, t, htext, hc⟩ := exists_cons_of_row s hone hr hu ((levelsAt [] r).headD 0) true
  rw [hrows, settle, hkind, Bool.false_and, if_neg Bool.false_ne_true, verbatim_replicate,
    verbatim, Bool.true_or, htext, Text.lines_replicate_append,
    List.takeWhile_append_of_pos (by simp), List.cons_append, Text.takeWhile_lines_cons hc, hwant]
  have hbreaks : (Pace.top b).breaks = b := rfl
  simp only [List.append_nil, List.length_replicate, topBlanks, blankGap, hbreaks]
  split
  · omega
  · split <;> omega

/-- The blank lines at the top, behind line breaks that are written already. -/
theorem blanks_top (s : Style) {list : List Statement} (h : Statement.OneLineAll list) {b : Nat}
    (hb : b ≤ s.allowedBlankLines + 1) :
    b + ((verbatim s [] true (settle s (.top b) (Statement.rowsAll list))).lines.takeWhile
        (·.isEmpty)).length =
      topBlanks s (b + (list.takeWhile (·.isBlank)).countP (·.isLineBreak))
        (Statement.leadsUp s (list.dropWhile (·.isBlank))) := by
  induction list generalizing b with
  | nil =>
    have hnone : Statement.leadsUp s [] = false := rfl
    simp only [Statement.rowsAll, settle, verbatim, Text.lines, List.takeWhile_nil,
      List.dropWhile_nil, List.countP_nil, List.length_nil, hnone, topBlanks]
    split <;> simp <;> omega
  | cons statement list ih =>
    cases hblank : statement.isBlank with
    | true =>
      rw [List.takeWhile_cons_of_pos hblank, List.dropWhile_cons_of_pos hblank, List.countP_cons]
      cases statement with
      | lineBreak location =>
        have hone : (if (Statement.lineBreak location).isLineBreak then 1 else 0) = 1 := rfl
        rw [hone, Statement.rowsAll, Statement.rows, List.singleton_append]
        by_cases hmany : s.allowedBlankLines < b
        · rw [settle_top_of_many hmany, ih h.2 hb]
          exact topBlanks_of_many s (by omega) (by omega) _
        · have htext (rows : List Row) : verbatim s [] true (.lineBreak :: rows) =
              '\n' :: verbatim s [] true rows := rfl
          have hrest := ih h.2 (b := b + 1) (by omega)
          rw [Nat.add_right_comm, Nat.add_assoc b, Nat.add_right_comm, Nat.add_assoc b] at hrest
          rw [settle_top (Nat.not_lt.mp hmany), htext, Text.lines, if_pos rfl,
            List.takeWhile_cons_of_pos rfl, List.length_cons]
          exact hrest
      | unknown =>
        rw [Statement.rowsAll, Statement.rows, List.singleton_append, settle_top_unknown]
        exact ih h.2 hb
      | _ => contradiction
    | false =>
      rw [List.takeWhile_cons_of_neg (by simp [hblank]),
        List.dropWhile_cons_of_neg (by simp [hblank]), List.countP_nil, Nat.add_zero]
      exact blanks_top_of_not_isBlank s h hblank hb

theorem Statement.topBlanks_le (s : Style) (list : List Statement) :
    topBlanks s list ≤ s.allowedBlankLines + 1 := by
  unfold topBlanks Layout.topBlanks
  split <;> omega

theorem Statement.topBlanks_of_not_startsWithBreak {s : Style} {list : List Statement}
    (h : startsWithBreak list = false) : topBlanks s list = 0 := by
  have hnone : (list.takeWhile (·.isBlank)).countP (·.isLineBreak) = 0 := by
    induction list with
    | nil => rfl
    | cons statement list ih =>
      cases statement with
      | unknown => exact ih h
      | lineBreak => simp [startsWithBreak, isUnknown, isLineBreak] at h
      | _ => rfl
  rw [topBlanks, Layout.topBlanks, if_pos hnone]

theorem Statement.topBlanks_of_many {s : Style} {list : List Statement}
    (h : s.allowedBlankLines < (list.takeWhile (·.isLineBreak)).length) :
    topBlanks s list = s.allowedBlankLines + 1 := by
  have hcount : (list.takeWhile (·.isLineBreak)).length ≤
      (list.takeWhile (·.isBlank)).countP (·.isLineBreak) := by
    clear h
    induction list with
    | nil => exact Nat.le_refl 0
    | cons statement list ih =>
      cases statement with
      | lineBreak =>
        rw [List.takeWhile_cons_of_pos rfl, List.takeWhile_cons_of_pos rfl,
          List.countP_cons_of_pos rfl]
        exact Nat.succ_le_succ ih
      | _ => exact Nat.zero_le _
  rw [topBlanks, Layout.topBlanks, if_neg (by omega)]
  omega

/-! ### Blank lines of a page -/

/-- Behind its first line with something on it, a page has no more blank lines in a row than the
style allows, and nowhere has a tree that does not start with a line break. At the top of the page
there is at most one blank line more, and there is one where a tree starts with more line breaks
than blank lines are allowed. What stands at the top is known to the line, and the whole page keeps
to the cap if and only if the top of it does. -/
theorem blank_lines_capped (s : Style) (list : List Statement) (h : Statement.OneLineAll list) :
    (∀ k, List.replicate k [] <:+: (statements s list).lines.dropWhile (·.isEmpty) →
      k ≤ s.allowedBlankLines) ∧
    (Statement.startsWithBreak list = false →
      ∀ k, List.replicate k [] <:+: (statements s list).lines → k ≤ s.allowedBlankLines) ∧
    ((statements s list).lines.takeWhile (·.isEmpty)).length ≤ s.allowedBlankLines + 1 ∧
    (s.allowedBlankLines < (list.takeWhile (·.isLineBreak)).length →
      ((statements s list).lines.takeWhile (·.isEmpty)).length = s.allowedBlankLines + 1) ∧
    ((statements s list).lines.takeWhile (·.isEmpty)).length = Statement.topBlanks s list ∧
    ((∀ k, List.replicate k [] <:+: (statements s list).lines → k ≤ s.allowedBlankLines) ↔
      Statement.topBlanks s list ≤ s.allowedBlankLines) := by
  have hwithin := feedsWithin_verbatim (s := s) (Statement.oneLine_rowsAll list h)
    (σ := .start) (Nat.zero_le _) [] true
  rw [← statements_eq_verbatim] at hwithin
  obtain ⟨-, hbehind⟩ := Text.blanks_of_feedsWithin hwithin (Nat.zero_le _)
  have htop : ((statements s list).lines.takeWhile (·.isEmpty)).length =
      Statement.topBlanks s list := by
    have hblanks := blanks_top s h (Nat.zero_le (s.allowedBlankLines + 1))
    rw [Nat.zero_add, Nat.zero_add] at hblanks
    rw [statements_eq_verbatim]
    exact hblanks
  have hcap : ∀ k, List.replicate k [] <:+: (statements s list).lines.dropWhile (·.isEmpty) →
      k ≤ s.allowedBlankLines := by
    intro k hk
    rcases Nat.eq_zero_or_pos k with rfl | hpos
    · exact Nat.zero_le _
    · exact Nat.le_of_lt_succ (hbehind k hk hpos)
  have hwhole : (∀ k, List.replicate k [] <:+: (statements s list).lines →
      k ≤ s.allowedBlankLines) ↔ Statement.topBlanks s list ≤ s.allowedBlankLines := by
    rw [← htop]
    refine ⟨fun hall => hall _ ?_, fun hle k hk => ?_⟩
    · have hblank : (statements s list).lines.takeWhile (·.isEmpty) =
          List.replicate ((statements s list).lines.takeWhile (·.isEmpty)).length [] :=
        List.eq_replicate_iff.mpr ⟨rfl, fun line hline => by
          simpa using List.mem_takeWhile_imp hline⟩
      exact hblank ▸ (List.takeWhile_prefix _).isInfix
    · rcases Text.blanks_front_or_behind hk with hfront | hlater
      · exact hfront.trans hle
      · exact hcap k hlater
  refine ⟨hcap, fun hfirst => hwhole.mpr ?_, ?_, fun hmany => ?_, htop, hwhole⟩
  · rw [Statement.topBlanks_of_not_startsWithBreak hfirst]
    exact Nat.zero_le _
  · rw [htop]
    exact Statement.topBlanks_le s list
  · rw [htop]
    exact Statement.topBlanks_of_many hmany

/-- Line breaks at the top, between two commands and in front of a block. -/
def gappedTree : List Statement :=
  [.lineBreak none, .lineBreak none, .command ['a'] [] none, .lineBreak none, .lineBreak none,
    .lineBreak none, .command ['b'] [.unquoted ['x'], .lineComment ['y'] none] none,
    .definition .functionDef ['f'] [] [.lineBreak none, .lineBreak none] none]

/-- A line break in front of a block. -/
def crestedTree : List Statement :=
  [.lineBreak none, .definition .functionDef ['f'] [] [] none]

theorem blank_lines_capped_gappedTree :
    Statement.OneLineAll gappedTree ∧
      (∀ k, List.replicate k [] <:+:
        (statements .standard gappedTree).lines.dropWhile (·.isEmpty) → k ≤ 1) ∧
      ((statements .standard gappedTree).lines.takeWhile (·.isEmpty)).length = 2 ∧
      ((statements .standard crestedTree).lines.takeWhile (·.isEmpty)).length = 2 := by
  have h : Statement.OneLineAll gappedTree := by
    simp [gappedTree, Statement.OneLineAll, Statement.OneLine, Argument.OneLineAll,
      Argument.OneLine, Text.OneLine]
  have h' : Statement.OneLineAll crestedTree := by
    simp [crestedTree, Statement.OneLineAll, Statement.OneLine, Argument.OneLineAll, Text.OneLine]
  obtain ⟨hcap, -, -, hmany, -, -⟩ := blank_lines_capped .standard gappedTree h
  obtain ⟨-, -, -, -, htop, -⟩ := blank_lines_capped .standard crestedTree h'
  exact ⟨h, hcap, hmany (by decide), htop.trans (by decide)⟩

end Listfile
