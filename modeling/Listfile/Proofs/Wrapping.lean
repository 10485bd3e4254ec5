import Listfile.Proofs.Spelling

/-! Wrapped argument lists against the list on one line. The marks of a list are
its arguments, its parentheses and the places between its arguments, in the order
in which they are written. A layout of the list gives each mark a text, and only
the places between arguments leave a choice: a space or a line break. The list on
one line has a space at each of them (`inline_marksFrom`), and what is written has
line breaks at some of them, among these every place behind a line comment
(`arguments_breaks_spaces`). -/

namespace Listfile.Layout

/-! ### Marks -/

/-- A part of an argument list that every layout of the list writes. -/
inductive Mark
  /-- An argument that is no group, and its text. -/
  | leaf (a : Argument) (text : Text)
  | opening
  | closing
  /-- Between two arguments of a list. -/
  | between
  /-- Between a line comment and the next argument of its list. -/
  | belowComment
  /-- Behind a line comment that ends its list. -/
  | lastLine

namespace Mark

/-- The text of a mark in a list on one line. -/
def inline : Mark → Text
  | .leaf _ text => text
  | .opening => ['(']
  | .closing => [')']
  | .between => [' ']
  | .belowComment => [' ']
  | .lastLine => []

/-- Whether a mark is a line comment. -/
def isComment : Mark → Bool
  | .leaf a _ => isLineComment a
  | _ => false

/-- Whether a mark stands behind a line comment. -/
def isBelow : Mark → Bool
  | .belowComment => true
  | .lastLine => true
  | _ => false

end Mark

/-- The marks before an argument. -/
def Place.marks : Place → List Mark
  | .first => []
  | .behind => [.between]
  | .belowComment => [.belowComment]

mutual

/-- The marks of an argument that is `text` on one line. -/
def marksOf (s : Style) (text : Text) : Argument → List Mark
  | .group arguments => .opening :: (marksFrom s .first arguments ++ [.closing])
  | a => [.leaf a text]

/-- The marks of the rest of an argument list. -/
def marksFrom (s : Style) (place : Place) : List Argument → List Mark
  | [] => if place = .belowComment then [.lastLine] else []
  | a :: rest =>
    match inline? s a with
    | none => marksFrom s place rest
    | some text => place.marks ++ marksOf s text a ++ marksFrom s (placeBehind a) rest

end

/-! ### The list on one line -/

mutual

/-- The marks of an argument, on one line, are the argument on one line. -/
theorem inline_marksOf (s : Style) :
    ∀ (a : Argument) (text : Text), inline? s a = some text →
      (marksOf s text a).flatMap Mark.inline = text
  | .unquoted _, _, _ | .quoted _, _, _ | .bracket _ _ _, _, _ | .lineComment _ _, _, _
  | .bracketComment _ _ _, _, _ => List.append_nil _
  | .group arguments, text, h => by
    obtain rfl : '(' :: (Text.unwords (inlineAll s arguments) ++ [')']) = text := Option.some.inj h
    simp [marksOf, Mark.inline, (inline_marksFrom s arguments).1]

/-- The marks of a list, on one line, at its start and behind an argument. -/
theorem inline_marksFrom (s : Style) :
    ∀ list : List Argument,
      (marksFrom s .first list).flatMap Mark.inline = Text.unwords (inlineAll s list) ∧
        ∀ place ≠ .first, (marksFrom s place list).flatMap Mark.inline =
          (inlineAll s list).flatMap (' ' :: ·)
  | [] => by
    refine ⟨rfl, fun place _ => ?_⟩
    cases place <;> rfl
  | a :: rest => by
    cases h : inline? s a with
    | none => simpa only [marksFrom, inlineAll, h] using inline_marksFrom s rest
    | some text =>
      have hplace : placeBehind a ≠ .first := by
        unfold placeBehind
        split <;> simp
      have hrest := (inline_marksFrom s rest).2 (placeBehind a) hplace
      have hone := inline_marksOf s a text h
      simp only [marksFrom, inlineAll, h, unwords_cons, List.flatMap_append, hone, hrest,
        List.flatMap_cons]
      refine ⟨rfl, fun place hplace => ?_⟩
      cases place with
      | first => contradiction
      | behind => rfl
      | belowComment => rfl

end

/-! ### Line comments -/

/-- Behind every line comment stands a mark for a line break. -/
def Guarded : List Mark → Prop
  | [] => True
  | m :: rest => (m.isComment = true → ∃ n ∈ rest.head?, n.isBelow = true) ∧ Guarded rest

theorem Guarded.append {xs ys : List Mark} (hx : Guarded xs) (hy : Guarded ys) :
    Guarded (xs ++ ys) := by
  induction xs with
  | nil => exact hy
  | cons m xs ih =>
    obtain ⟨hm, hxs⟩ := hx
    refine ⟨fun hc => ?_, ih hxs⟩
    obtain ⟨n, hn, hbelow⟩ := hm hc
    cases xs with
    | nil => contradiction
    | cons _ _ => exact ⟨n, hn, hbelow⟩

theorem guarded_singleton {m : Mark} (h : m.isComment = false) : Guarded [m] :=
  ⟨fun hc => by simp [h] at hc, trivial⟩

theorem guarded_marks (place : Place) : Guarded place.marks := by
  cases place with
  | first => trivial
  | behind => exact guarded_singleton rfl
  | belowComment => exact guarded_singleton rfl

/-- The first mark below a line comment. -/
theorem head?_marksFrom_belowComment (s : Style) (list : List Argument) :
    ∃ n ∈ (marksFrom s .belowComment list).head?, n.isBelow = true := by
  induction list with
  | nil => exact ⟨.lastLine, rfl, rfl⟩
  | cons a rest ih =>
    cases h : inline? s a with
    | none => simpa only [marksFrom, h] using ih
    | some text => exact ⟨.belowComment, by simp [marksFrom, h, Place.marks], rfl⟩

mutual

theorem guarded_marksOf (s : Style) (text : Text) :
    ∀ a : Argument, isLineComment a = false → Guarded (marksOf s text a)
  | .unquoted _, _ | .quoted _, _ | .bracket _ _ _, _ | .bracketComment _ _ _, _ | .unknown, _ =>
    guarded_singleton rfl
  | .group arguments, _ =>
    (guarded_singleton (m := .opening) rfl).append
      ((guarded_marksFrom s arguments .first).append (guarded_singleton rfl))

theorem guarded_marksFrom (s : Style) :
    ∀ (list : List Argument) (place : Place), Guarded (marksFrom s place list)
  | [], place => by
    rw [marksFrom]
    split
    · exact guarded_singleton rfl
    · trivial
  | a :: rest, place => by
    have hrest := guarded_marksFrom s rest
    rw [marksFrom]
    split
    · exact hrest place
    · next text _ =>
      cases hc : isLineComment a with
      | false =>
        exact ((guarded_marks place).append (guarded_marksOf s text a hc)).append (hrest _)
      | true =>
        have hmarks : marksOf s text a = [.leaf a text] := by
          cases a <;> first | rfl | contradiction
        rw [List.append_assoc, hmarks, placeBehind, hc, if_pos rfl]
        exact (guarded_marks place).append
          ⟨fun _ => head?_marksFrom_belowComment s rest, hrest .belowComment⟩

end

mutual

/-- A list without line comments has no marks for their line breaks. -/
theorem isBelow_marksOf (s : Style) (text : Text) :
    ∀ a : Argument, hasLineComment a = false → ∀ m ∈ marksOf s text a, m.isBelow = false
  | .unquoted _, _ | .quoted _, _ | .bracket _ _ _, _ | .bracketComment _ _ _, _ | .unknown, _ =>
    List.forall_mem_singleton.mpr rfl
  | .group arguments, h => by
    rw [marksOf, List.forall_mem_cons, List.forall_mem_append, List.forall_mem_singleton]
    exact ⟨rfl, isBelow_marksFrom s arguments .first (by decide) h, rfl⟩

theorem isBelow_marksFrom (s : Style) :
    ∀ (list : List Argument) (place : Place), place ≠ .belowComment →
      anyLineComment list = false → ∀ m ∈ marksFrom s place list, m.isBelow = false
  | [], place, hplace, _ => by simp [marksFrom, hplace]
  | a :: rest, place, hplace, h => by
    obtain ⟨ha, hrest⟩ : hasLineComment a = false ∧ anyLineComment rest = false := by
      simpa [anyLineComment] using h
    rw [marksFrom]
    split
    · exact isBelow_marksFrom s rest place hplace hrest
    · next text _ =>
      have hgap : ∀ m ∈ place.marks, m.isBelow = false := by
        cases place <;> simp_all [Place.marks, Mark.isBelow]
      rw [List.forall_mem_append, List.forall_mem_append, placeBehind_of_hasLineComment ha]
      exact ⟨⟨hgap, isBelow_marksOf s text a ha⟩,
        isBelow_marksFrom s rest .behind (by decide) hrest⟩

end

/-! ### Layouts -/

/-- A mark and the text that a layout gives it. -/
structure Piece where
  mark : Mark
  text : Text

namespace Piece

/-- What a layout may write for a mark. -/
def Written (p : Piece) : Prop :=
  match p.mark with
  | .between => p.text = [' '] ∨ ∃ column, p.text = breakTo column
  | .belowComment => ∃ column, p.text = breakTo column
  | .lastLine => ∃ column, p.text = breakTo column
  | m => p.text = m.inline

/-- A mark as it stands in a list on one line. -/
def ofMark (m : Mark) : Piece := ⟨m, m.inline⟩

theorem written_ofMark {m : Mark} (h : m.isBelow = false) : (ofMark m).Written := by
  cases m with
  | between => exact .inl rfl
  | belowComment => contradiction
  | lastLine => contradiction
  | _ => rfl

theorem exists_breakTo {p : Piece} (h : p.Written) (hb : p.mark.isBelow = true) :
    ∃ column, p.text = breakTo column := by
  obtain ⟨mark, text⟩ := p
  cases mark <;> first | exact h | contradiction

end Piece

mutual

/-- The pieces of an argument, which is written as `wrapOne` does. -/
def piecesOf (s : Style) (column hanging reserve : Int) (text : Text) : Argument → List Piece
  | .group arguments =>
    if s.columnLimit < column + text.length + reserve || anyLineComment arguments then
      .ofMark .opening :: (piecesFrom s (continuationColumn s (column + 1) hanging) (reserve + 1)
        (column + 1) .first arguments ++ [.ofMark .closing])
    else (marksOf s text (.group arguments)).map .ofMark
  | a => [⟨.leaf a text, text⟩]

/-- The pieces of the rest of a wrapped list, which is written as `wrapFrom` does. -/
def piecesFrom (s : Style) (hanging closing column : Int) (place : Place) :
    List Argument → List Piece
  | [] => if place = .belowComment then [⟨.lastLine, breakTo hanging⟩] else []
  | a :: rest =>
    match inline? s a with
    | none => piecesFrom s hanging closing column place rest
    | some text =>
      let reserve := if rest.any isKnown then 0 else closing
      let gap := Gap.before s column (Text.firstWidth text) reserve place
      let start := gap.stop hanging column
      place.marks.map (Piece.mk · (gap.text hanging)) ++
        piecesOf s start hanging reserve text a ++
        piecesFrom s hanging closing (endColumn (wrapOne s start hanging reserve text a) start)
          (placeBehind a) rest

end

/-- The pieces of an argument list that opens at `column`. -/
def pieces (s : Style) (column hanging closing : Int) (list : List Argument) : List Piece :=
  if (Text.unwords (inlineAll s list)).length ≤ s.columnLimit && !anyLineComment list then
    (marksFrom s .first list).map .ofMark
  else piecesFrom s hanging closing column .first list

theorem flatMap_text_ofMark (marks : List Mark) :
    (marks.map Piece.ofMark).flatMap Piece.text = marks.flatMap Mark.inline :=
  List.flatMap_map ..

theorem map_mark_ofMark (marks : List Mark) : (marks.map Piece.ofMark).map Piece.mark = marks := by
  rw [List.map_map]
  exact List.map_id _

theorem flatMap_text_gap (s : Style) (column : Int) (width : Nat) (reserve hanging : Int)
    (place : Place) :
    (place.marks.map
      (Piece.mk · ((Gap.before s column width reserve place).text hanging))).flatMap Piece.text =
      (Gap.before s column width reserve place).text hanging := by
  cases place with
  | first => rfl
  | behind => exact List.append_nil _
  | belowComment => exact List.append_nil _

mutual

theorem text_piecesOf (s : Style) :
    ∀ (a : Argument) (column hanging reserve : Int) (text : Text), inline? s a = some text →
      (piecesOf s column hanging reserve text a).flatMap Piece.text =
        wrapOne s column hanging reserve text a
  | .unquoted _, _, _, _, _, _ | .quoted _, _, _, _, _, _ | .bracket _ _ _, _, _, _, _, _
  | .lineComment _ _, _, _, _, _, _ | .bracketComment _ _ _, _, _, _, _, _ => List.append_nil _
  | .group arguments, column, hanging, reserve, text, h => by
    rw [piecesOf, wrapOne]
    split
    · simp only [List.flatMap_cons, List.flatMap_append, text_piecesFrom s arguments]
      rfl
    · rw [flatMap_text_ofMark]
      exact inline_marksOf s (.group arguments) text h

/-- The pieces make up the text of the wrapped list. -/
theorem text_piecesFrom (s : Style) :
    ∀ (list : List Argument) (hanging closing column : Int) (place : Place),
      (piecesFrom s hanging closing column place list).flatMap Piece.text =
        wrapFrom s hanging closing column place list
  | [], hanging, _, _, place => by
    rw [piecesFrom, wrapFrom]
    split
    · exact List.append_nil _
    · rfl
  | a :: rest, hanging, closing, column, place => by
    cases h : inline? s a with
    | none =>
      have hrest := text_piecesFrom s rest hanging closing column place
      simpa only [piecesFrom, wrapFrom, h] using hrest
    | some text =>
      simp only [piecesFrom, wrapFrom, h, List.flatMap_append, flatMap_text_gap,
        text_piecesOf s a _ _ _ text h, text_piecesFrom s rest]
      rfl

end

mutual

theorem mark_piecesOf (s : Style) :
    ∀ (a : Argument) (column hanging reserve : Int) (text : Text),
      (piecesOf s column hanging reserve text a).map Piece.mark = marksOf s text a
  | .unquoted _, _, _, _, _ | .quoted _, _, _, _, _ | .bracket _ _ _, _, _, _, _
  | .lineComment _ _, _, _, _, _ | .bracketComment _ _ _, _, _, _, _ | .unknown, _, _, _, _ => rfl
  | .group arguments, column, hanging, reserve, text => by
    rw [piecesOf]
    split
    · simp only [List.map_cons, List.map_append, mark_piecesFrom s arguments]
      rfl
    · exact map_mark_ofMark _

/-- The pieces are those of the marks of the list. -/
theorem mark_piecesFrom (s : Style) :
    ∀ (list : List Argument) (hanging closing column : Int) (place : Place),
      (piecesFrom s hanging closing column place list).map Piece.mark = marksFrom s place list
  | [], hanging, _, _, place => by
    rw [piecesFrom, marksFrom]
    split <;> rfl
  | a :: rest, hanging, closing, column, place => by
    rw [piecesFrom, marksFrom]
    split
    · exact mark_piecesFrom s rest hanging closing column place
    · simp only [List.map_append, List.map_map, Function.comp_def, mark_piecesOf s a,
        mark_piecesFrom s rest, List.map_id']

end

/-- A gap is a layout of its mark. -/
theorem written_gap (s : Style) (column : Int) (width : Nat) (reserve hanging : Int)
    (place : Place) :
    ∀ p ∈ place.marks.map
      (Piece.mk · ((Gap.before s column width reserve place).text hanging)), p.Written := by
  have hgap := gapped_before s column width reserve hanging place
  cases place with
  | first => simp [Place.marks]
  | behind => exact List.forall_mem_singleton.mpr hgap
  | belowComment => exact List.forall_mem_singleton.mpr hgap

mutual

theorem written_piecesOf (s : Style) :
    ∀ (a : Argument) (column hanging reserve : Int) (text : Text),
      ∀ p ∈ piecesOf s column hanging reserve text a, p.Written
  | .unquoted _, _, _, _, _ | .quoted _, _, _, _, _ | .bracket _ _ _, _, _, _, _
  | .lineComment _ _, _, _, _, _ | .bracketComment _ _ _, _, _, _, _ | .unknown, _, _, _, _ =>
    List.forall_mem_singleton.mpr rfl
  | .group arguments, column, hanging, reserve, text => by
    rw [piecesOf]
    split
    · rw [List.forall_mem_cons, List.forall_mem_append, List.forall_mem_singleton]
      exact ⟨rfl, written_piecesFrom s arguments _ _ _ _, rfl⟩
    · next hfit =>
      have hc : anyLineComment arguments = false := by simp_all
      rw [List.forall_mem_map]
      exact fun m hm => Piece.written_ofMark (isBelow_marksOf s text (.group arguments) hc m hm)

theorem written_piecesFrom (s : Style) :
    ∀ (list : List Argument) (hanging closing column : Int) (place : Place),
      ∀ p ∈ piecesFrom s hanging closing column place list, p.Written
  | [], hanging, _, _, place => by
    rw [piecesFrom]
    split
    · exact List.forall_mem_singleton.mpr ⟨hanging, rfl⟩
    · simp
  | a :: rest, hanging, closing, column, place => by
    have hrest := written_piecesFrom s rest
    have hone := written_piecesOf s a
    rw [piecesFrom]
    split
    · exact hrest hanging closing column place
    · rw [List.forall_mem_append, List.forall_mem_append]
      exact ⟨⟨written_gap s _ _ _ _ place, hone _ _ _ _⟩, hrest _ _ _ _⟩

end

/-! ### Line breaks in place of spaces -/

section Pieces
variable (s : Style) (column hanging closing : Int) (list : List Argument)

theorem text_pieces :
    (pieces s column hanging closing list).flatMap Piece.text =
      arguments s column hanging closing list := by
  simp only [pieces, arguments]
  split
  · rw [flatMap_text_ofMark, (inline_marksFrom s list).1]
  · exact text_piecesFrom s list hanging closing column .first

theorem mark_pieces :
    (pieces s column hanging closing list).map Piece.mark = marksFrom s .first list := by
  unfold pieces
  split
  · exact map_mark_ofMark _
  · exact mark_piecesFrom s list hanging closing column .first

theorem written_pieces : ∀ p ∈ pieces s column hanging closing list, p.Written := by
  unfold pieces
  split
  · next hfit =>
    have hc : anyLineComment list = false := by simp_all
    rw [List.forall_mem_map]
    exact fun m hm => Piece.written_ofMark (isBelow_marksFrom s list .first (by decide) hc m hm)
  · exact written_piecesFrom s list hanging closing column .first

end Pieces

theorem exists_break_of_guarded {ps : List Piece} (h : Guarded (ps.map Piece.mark))
    (hw : ∀ p ∈ ps, p.Written) {front back : List Piece} {p : Piece} (hps : ps = front ++ p :: back)
    (hp : p.mark.isComment = true) :
    ∃ q more column, back = q :: more ∧ q.text = breakTo column := by
  subst hps
  induction front with
  | nil =>
    obtain ⟨m, hm, hbelow⟩ := h.1 hp
    cases back with
    | nil => simp at hm
    | cons q more =>
      obtain rfl : q.mark = m := by simpa using hm
      obtain ⟨column, hq⟩ := Piece.exists_breakTo (hw q (by simp)) hbelow
      exact ⟨q, more, column, rfl, hq⟩
  | cons r front ih => exact ih h.2 fun q hq => hw q (List.mem_cons_of_mem r hq)

/-- An argument list is written as on one line, but for line breaks, each followed by spaces, that
stand in place of some of the spaces between arguments of one list and behind the line comments that
end a list. Behind every line comment, at any depth, stands such a line break. -/
theorem arguments_breaks_spaces (s : Style) (column hanging closing : Int) (list : List Argument) :
    (marksFrom s .first list).flatMap Mark.inline = Text.unwords (inlineAll s list) ∧
      ∃ ps : List Piece, ps.map Piece.mark = marksFrom s .first list ∧ (∀ p ∈ ps, p.Written) ∧
        ps.flatMap Piece.text = arguments s column hanging closing list ∧
        ∀ front p back, ps = front ++ p :: back → p.mark.isComment = true →
          ∃ q more column, back = q :: more ∧ q.text = breakTo column := by
  have hmark := mark_pieces s column hanging closing list
  have hwritten := written_pieces s column hanging closing list
  have hguarded := guarded_marksFrom s list .first
  refine ⟨(inline_marksFrom s list).1, pieces s column hanging closing list, hmark, hwritten,
    text_pieces s column hanging closing list, fun front p back hps hp => ?_⟩
  rw [← hmark] at hguarded
  exact exists_break_of_guarded hguarded hwritten hps hp

end Listfile.Layout
