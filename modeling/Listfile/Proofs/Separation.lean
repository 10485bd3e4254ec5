import Listfile.Proofs.BlankLines
import Listfile.Proofs.RoundTrip

/-! Blank lines around blocks. On the page each row of a tree has its text, and
above the text the line breaks that were put in. A row that asks for a blank line
has one above it, for the line feeds that are written are those that are counted
(`feeds_above`). The first row of a block with blank lines around it, or of the
comments that head the block, asks for one behind everything that is a statement of
its own, and so does the first such statement behind the block, since line breaks and
comments that trail leave a blank line owed (`blocks_separated`). -/

namespace Listfile

/-! ### Lists inside a tree -/

/-- The rows that close a conditional behind its `elseif` arms. -/
def Branch.rowsOtherwise : Option Branch → List Row
  | none => [.keyword (.closing .conditional) []]
  | some arm => arm.rows (.dividing .elseArm) ++ [.keyword (.closing .conditional) []]

/-- A statement list directly inside a block, with the rows of the block before and behind it. -/
inductive Statement.Encloses : Statement → List Row → List Statement → List Row → Prop
  | definition (kind : DefinitionKind) (name : Text) (list : List Argument)
      (body : List Statement) (location : Option Location) :
      Encloses (.definition kind name list body location)
        [.keyword (.opening (.definition kind)) (.unquoted name :: list)] body
        [.keyword (.closing (.definition kind)) [.unquoted name]]
  | loop (kind : LoopKind) (list : List Argument) (body : List Statement)
      (location : Option Location) :
      Encloses (.loop kind list body location) [.keyword (.opening (.loop kind)) list] body
        [.keyword (.closing (.loop kind)) []]
  | head (list : List Argument) (body : List Statement) (location : Option Location)
      (elseifs : List Branch) (otherwise : Option Branch) :
      Encloses (.conditional (.mk list body location) elseifs otherwise)
        [.keyword (.opening .conditional) list] body
        (Branch.rowsAll elseifs ++ Branch.rowsOtherwise otherwise)
  | elseif (head : Branch) (arms : List Branch) (list : List Argument) (body : List Statement)
      (location : Option Location) (more : List Branch) (otherwise : Option Branch) :
      Encloses (.conditional head (arms ++ .mk list body location :: more) otherwise)
        (head.rows (.opening .conditional) ++ Branch.rowsAll arms ++
          [.keyword (.dividing .elseifArm) list]) body
        (Branch.rowsAll more ++ Branch.rowsOtherwise otherwise)
  | otherwise (head : Branch) (elseifs : List Branch) (list : List Argument)
      (body : List Statement) (location : Option Location) :
      Encloses (.conditional head elseifs (some (.mk list body location)))
        (head.rows (.opening .conditional) ++ Branch.rowsAll elseifs ++
          [.keyword (.dividing .elseArm) list]) body [.keyword (.closing .conditional) []]

/-- A statement list of a tree at any depth, with the rows of the tree before and behind it. -/
inductive Statement.Nested (tree : List Statement) : List Row → List Statement → List Row → Prop
  | top : Nested tree [] tree []
  | inside {front back opening closing : List Row} {before after body : List Statement}
      {block : Statement} (h : Nested tree front (before ++ block :: after) back)
      (hbody : block.Encloses opening body closing) :
      Nested tree (front ++ Statement.rowsAll before ++ opening) body
        (closing ++ (Statement.rowsAll after ++ back))

/-- The kind of a statement that is a block. -/
def Statement.block? : Statement → Option BlockKind
  | .definition kind _ _ _ _ => some (.definition kind)
  | .conditional _ _ _ => some .conditional
  | .loop kind _ _ _ => some (.loop kind)
  | _ => none

/-- A line break, or a comment that trails. -/
def Statement.passes : Statement → Bool
  | .lineBreak _ => true
  | .lineComment _ trailing _ => trailing
  | .bracketComment _ _ trailing _ => trailing
  | _ => false

open Layout

theorem Branch.rowsAll_cons (b : Branch) (list : List Branch) :
    Branch.rowsAll (b :: list) = b.rows (.dividing .elseifArm) ++ Branch.rowsAll list := rfl

theorem Statement.rows_conditional (head : Branch) (elseifs : List Branch)
    (otherwise : Option Branch) :
    (Statement.conditional head elseifs otherwise).rows =
      head.rows (.opening .conditional) ++ Branch.rowsAll elseifs ++
        Branch.rowsOtherwise otherwise := by
  cases otherwise <;> simp [Statement.rows, Branch.rowsOtherwise]

/-- The rows of a block, with a list inside it. -/
theorem Statement.Encloses.rows_eq {block : Statement} {opening closing : List Row}
    {body : List Statement} (h : block.Encloses opening body closing) :
    block.rows = opening ++ Statement.rowsAll body ++ closing := by
  cases h with
  | definition | loop => simp [Statement.rows]
  | head => simp [Statement.rows_conditional, Branch.rows]
  | elseif =>
    simp [Statement.rows_conditional, Branch.rowsAll_append, Branch.rowsAll_cons, Branch.rows]
  | otherwise => simp [Statement.rows_conditional, Branch.rowsOtherwise, Branch.rows]

theorem stops_rowsOtherwise (s : Style) (otherwise : Option Branch) (rows : List Row) :
    Stops s (Branch.rowsOtherwise otherwise ++ rows) := by
  cases otherwise with
  | none => exact stops_closing s _ _ _
  | some arm => obtain ⟨list, body, location⟩ := arm; exact stops_dividing s _ _ _

/-- Behind a list inside a block comes a command that divides or closes the block. -/
theorem Statement.Encloses.stops {block : Statement} {opening closing : List Row}
    {body : List Statement} (h : block.Encloses opening body closing) (s : Style)
    (rows : List Row) : Stops s (closing ++ rows) := by
  cases h with
  | definition | loop | otherwise => exact stops_closing s _ _ _
  | head | elseif =>
    rw [List.append_assoc]
    exact stops_branches (stops_rowsOtherwise s _ _) _

namespace Statement.Nested

variable {tree list : List Statement} {front back : List Row}

/-- The rows of a tree, with a list inside it. -/
theorem rowsAll_eq (h : Nested tree front list back) :
    Statement.rowsAll tree = front ++ (Statement.rowsAll list ++ back) := by
  induction h with
  | top => simp
  | inside h hbody ih => simp [ih, Statement.rowsAll_append, Statement.rowsAll, hbody.rows_eq]

theorem stops (h : Nested tree front list back) (s : Style) : Stops s back := by
  cases h with
  | top => exact stops_nil s
  | inside h hbody => exact hbody.stops s _

end Statement.Nested

end Listfile

namespace Listfile.Layout

/-! ### Rows on the page -/

/-- A row on the page: the line breaks put in above it, and its text with what stands before it on
its line. A line break that is dropped has no text. -/
structure Placed where
  row : Row
  breaks : Nat
  text : Text

namespace Placed

def ink (p : Placed) : Text := List.replicate p.breaks '\n' ++ p.text

/-- A row has the text that it is written as, or it is a line break that is dropped. -/
def Written (s : Style) (p : Placed) : Prop :=
  (p.row.isLineBreak = true ∧ p.text = []) ∨
    ∃ indentation lineStart,
      p.text = rowLead indentation lineStart p.row ++ rowText s indentation p.row

end Placed

/-- Whether a line break is dropped. -/
def Pace.drops (s : Style) (σ : Pace) (r : Row) : Bool :=
  r.isLineBreak && s.allowedBlankLines < σ.breaks

/-- Behind a row, if it is not dropped. -/
def Pace.pass (s : Style) (σ : Pace) (r : Row) : Pace :=
  if σ.drops s r then { σ with own := false } else σ.behind s r

/-- Behind rows. -/
def Pace.through (s : Style) (σ : Pace) (rows : List Row) : Pace := rows.foldl (Pace.pass s) σ

/-- A row in front of the rows `rest`. -/
def Pace.place (s : Style) (levels : List Nat) (rest : List Row) (σ : Pace) (r : Row) : Placed :=
  if σ.drops s r then ⟨r, 0, []⟩
  else
    let breaks := σ.want s rest r - σ.breaks
    let indentation := (levelsAt levels r).headD 0
    ⟨r, breaks, rowLead indentation (σ.atStart || 0 < breaks) r ++ rowText s indentation r⟩

/-- The rows on the page. -/
def placed (s : Style) (σ : Pace) (levels : List Nat) : List Row → List Placed
  | [] => []
  | r :: rest =>
    σ.place s levels rest r :: placed s (σ.pass s r) (levelsBehind s levels r) rest

/-- The text above the `n`th row, down to the line breaks put in above that row. -/
def above : List Placed → Nat → Text
  | [], _ => []
  | p :: _, 0 => List.replicate p.breaks '\n'
  | p :: rest, n + 1 => p.ink ++ above rest n

theorem above_append (front : List Placed) (p : Placed) (rest : List Placed) :
    above (front ++ p :: rest) front.length =
      front.flatMap Placed.ink ++ List.replicate p.breaks '\n' := by
  induction front with
  | nil => rfl
  | cons q front ih =>
    rw [List.cons_append, List.length_cons, above, ih, List.flatMap_cons, List.append_assoc]

/-- From one row to a later one. -/
theorem above_append_succ (front : List Placed) (p : Placed) (rest : List Placed) (n : Nat) :
    above (front ++ p :: rest) (front.length + (n + 1)) =
      above (front ++ p :: rest) front.length ++ (p.text ++ above rest n) := by
  induction front with
  | nil => simp [above, Placed.ink]
  | cons q front ih =>
    rw [List.cons_append, List.length_cons, Nat.add_right_comm, above, ih, above, List.append_assoc]

theorem row_place (s : Style) (levels : List Nat) (rest : List Row) (σ : Pace) (r : Row) :
    (σ.place s levels rest r).row = r := by
  unfold Pace.place
  split <;> rfl

theorem written_place (s : Style) (levels : List Nat) (rest : List Row) (σ : Pace) (r : Row) :
    (σ.place s levels rest r).Written s := by
  unfold Pace.place
  split
  · next h => exact .inl ⟨by simp_all [Pace.drops], rfl⟩
  · exact .inr ⟨_, _, rfl⟩

theorem map_row_placed (s : Style) (σ : Pace) (levels : List Nat) (rows : List Row) :
    (placed s σ levels rows).map Placed.row = rows := by
  induction rows generalizing σ levels with
  | nil => rfl
  | cons r rest ih => rw [placed, List.map_cons, row_place, ih]

theorem written_placed (s : Style) (σ : Pace) (levels : List Nat) (rows : List Row) :
    ∀ p ∈ placed s σ levels rows, p.Written s := by
  induction rows generalizing σ levels with
  | nil => simp [placed]
  | cons r rest ih =>
    rw [placed, List.forall_mem_cons]
    exact ⟨written_place s levels rest σ r, ih _ _⟩

/-- The rows on the page make up the settled text. -/
theorem ink_placed (s : Style) (σ : Pace) (levels : List Nat) (rows : List Row) :
    (placed s σ levels rows).flatMap Placed.ink =
      verbatim s levels σ.atStart (settle s σ rows) := by
  induction rows generalizing σ levels with
  | nil => rfl
  | cons r rest ih =>
    rw [placed, List.flatMap_cons, ih, settle, Pace.place, Pace.pass, Pace.drops]
    split
    · next h =>
      obtain rfl : r = .lineBreak := by cases r <;> simp_all [Row.isLineBreak]
      rfl
    · rw [verbatim_replicate, verbatim, atStart_behind s σ rest r, Placed.ink]
      simp only [List.append_assoc]

/-! ### Line feeds above a row -/

/-- The line feeds that a text ends in are those that are counted. -/
theorem feeds_pass (s : Style) (levels : List Nat) (rest : List Row) {σ : Pace} {t : Text}
    (h : List.replicate σ.breaks '\n' <:+ t) (r : Row) :
    List.replicate (σ.pass s r).breaks '\n' <:+ t ++ (σ.place s levels rest r).ink := by
  have hzero (u : Text) : List.replicate 0 '\n' <:+ u := List.nil_suffix
  unfold Pace.pass Pace.place
  split
  · simpa [Placed.ink] using h
  · cases r with
    | lineBreak =>
      rw [Pace.behind, List.replicate_succ']
      simpa [Placed.ink, Pace.want, rowLead, rowText, List.suffix_append_self_iff] using h
    | unknown => simpa [Pace.behind, Pace.want, Placed.ink, rowLead, rowText] using h
    | lineComment text trailing =>
      rw [Pace.behind, breaks_behindComment]
      simp only [Placed.ink, rowText, ← List.append_assoc]
      exact List.suffix_append _ _
    | bracketComment text fence trailing =>
      rw [Pace.behind, breaks_behindComment]
      exact hzero _
    | bracket text fence => exact hzero _
    | call role name list =>
      obtain _ | block | divider | block := role <;> exact hzero _

/-- Rows on the page, cut in two. -/
theorem placed_append (s : Style) (σ : Pace) (levels : List Nat) (rows rest : List Row) :
    ∃ front levels', placed s σ levels (rows ++ rest) =
        front ++ placed s (σ.through s rows) levels' rest ∧ front.length = rows.length ∧
      ∀ t, List.replicate σ.breaks '\n' <:+ t →
        List.replicate (σ.through s rows).breaks '\n' <:+ t ++ front.flatMap Placed.ink := by
  induction rows generalizing σ levels with
  | nil => exact ⟨[], levels, rfl, rfl, by simp [Pace.through]⟩
  | cons r rows ih =>
    obtain ⟨front, levels', hpage, hlength, hfeeds⟩ := ih (σ.pass s r) (levelsBehind s levels r)
    refine ⟨σ.place s levels (rows ++ rest) r :: front, levels', ?_, ?_, fun t ht => ?_⟩
    · rw [List.cons_append, placed, hpage]
      rfl
    · rw [List.length_cons, List.length_cons, hlength]
    · have := hfeeds _ (feeds_pass s levels (rows ++ rest) ht r)
      rwa [List.append_assoc, ← List.flatMap_cons] at this

/-- Above a row stand the line breaks that it asks for. -/
theorem feeds_above (s : Style) {σ : Pace} (hσ : σ.breaks = 0) (levels : List Nat)
    (rows : List Row) {r : Row} (hr : r.isLineBreak = false) (rest : List Row) :
    List.replicate ((σ.through s rows).want s rest r) '\n' <:+
      above (placed s σ levels (rows ++ r :: rest)) rows.length := by
  obtain ⟨front, levels', hpage, hlength, hfeeds⟩ := placed_append s σ levels rows (r :: rest)
  have hfront := hfeeds [] (by simp [hσ])
  generalize σ.through s rows = τ at hpage hfront ⊢
  have hbreaks : (τ.place s levels' rest r).breaks = τ.want s rest r - τ.breaks := by
    simp [Pace.place, Pace.drops, hr]
  have hall : List.replicate (τ.breaks + (τ.want s rest r - τ.breaks)) '\n' <:+
      front.flatMap Placed.ink ++ List.replicate (τ.want s rest r - τ.breaks) '\n' := by
    rw [← List.replicate_append_replicate, List.suffix_append_self_iff]
    exact hfront
  rw [hpage, ← hlength, placed, above_append, hbreaks]
  refine List.IsSuffix.trans (List.suffix_replicate_iff.mpr ⟨?_, ?_⟩) hall
  · rw [List.length_replicate]
    omega
  · rw [List.length_replicate]

/-! ### Comments that head a block -/

/-- Below a comment on a line of its own, no line break is put in. -/
theorem breaks_place_belowOwn (s : Style) (levels : List Nat) (rest : List Row) (r : Row) :
    (Pace.belowOwn.place s levels rest r).breaks = 0 := by
  unfold Pace.place
  split
  · rfl
  · exact Nat.sub_eq_zero_of_le (want_belowOwn s rest r)

theorem pass_of_own {r : Row} (h : isOwn r = true) (s : Style) (σ : Pace) :
    σ.pass s r = .belowOwn := by
  have hdrops : σ.drops s r = false := by cases r <;> simp_all [isOwn, Pace.drops, Row.isLineBreak]
  rw [Pace.pass, hdrops, if_neg Bool.false_ne_true, behind_of_own h]

/-- The line of a comment on a line of its own. -/
theorem text_place_of_own {r : Row} (h : isOwn r = true) (s : Style) (levels : List Nat)
    (rest : List Row) {σ : Pace} (hσ : (σ.advance (σ.want s rest r)).atStart = true) :
    (σ.place s levels rest r).text =
      Text.spaces (levels.headD 0) ++ rowText s (levels.headD 0) r := by
  rw [Pace.atStart_advance_eq] at hσ
  cases r with
  | lineComment text trailing =>
    have hdrops : σ.drops s (.lineComment text trailing) = false := rfl
    rw [Pace.place, hdrops, if_neg Bool.false_ne_true]
    dsimp only
    rw [hσ]
    rfl
  | _ => simp [isOwn] at h

/-- Comments in a row on lines of their own, and the row below them. -/
theorem above_own (s : Style) (levels : List Nat) {run : List Row}
    (h : ∀ r ∈ run, isOwn r = true) (r : Row) (rest : List Row) :
    above (placed s .belowOwn levels (run ++ r :: rest)) run.length =
      run.flatMap fun r => Text.spaces (levels.headD 0) ++ rowText s (levels.headD 0) r := by
  induction run with
  | nil =>
    rw [List.nil_append, placed, List.length_nil, above, breaks_place_belowOwn]
    rfl
  | cons c run ih =>
    obtain ⟨hc, hrun⟩ := List.forall_mem_cons.mp h
    have hlevels : levelsBehind s levels c = levels := by cases c <;> first | rfl | contradiction
    have hstart : (Pace.belowOwn.advance
        (Pace.belowOwn.want s (run ++ r :: rest) c)).atStart = true := by
      rw [Pace.advance_of_le (want_belowOwn s _ c)]
      rfl
    rw [List.cons_append, placed, List.length_cons, above, Placed.ink, breaks_place_belowOwn,
      text_place_of_own hc s levels _ hstart, pass_of_own hc, hlevels, ih hrun, List.flatMap_cons]
    rfl

/-- From the first of the comments that head a block to the block. -/
theorem above_run (s : Style) {σ : Pace} (levels : List Nat) (rows : List Row) {run : List Row}
    (hown : ∀ r ∈ run, isOwn r = true) {r b : Row} {more rest : List Row}
    (hrun : run ++ b :: rest = r :: more)
    (hstart : ((σ.through s rows).advance ((σ.through s rows).want s more r)).atStart = true) :
    ∃ indentation, above (placed s σ levels (rows ++ r :: more)) (rows.length + run.length) =
      above (placed s σ levels (rows ++ r :: more)) rows.length ++
        run.flatMap fun r => Text.spaces indentation ++ rowText s indentation r := by
  obtain ⟨front, levels', hpage, hlength, -⟩ := placed_append s σ levels rows (r :: more)
  refine ⟨levels'.headD 0, ?_⟩
  rw [hpage, ← hlength, placed]
  cases run with
  | nil => exact (List.append_nil _).symm
  | cons c run =>
    obtain ⟨rfl, rfl⟩ : c = r ∧ run ++ b :: rest = more := List.cons.inj hrun
    obtain ⟨hc, hrest⟩ := List.forall_mem_cons.mp hown
    have hlevels : levelsBehind s levels' c = levels' := by cases c <;> first | rfl | contradiction
    rw [List.length_cons, above_append_succ, text_place_of_own hc s levels' _ hstart,
      pass_of_own hc, hlevels, above_own s levels' hrest, List.flatMap_cons]

/-! ### Behind statements -/

namespace Pace

theorem through_append (s : Style) (σ : Pace) (rows more : List Row) :
    σ.through s (rows ++ more) = (σ.through s rows).through s more := List.foldl_append ..

/-- Behind a row that stays. -/
theorem through_singleton (s : Style) (σ : Pace) {r : Row} (h : r.isLineBreak = false) :
    σ.through s [r] = σ.behind s r := by
  simp [through, pass, drops, h]

/-- Something is written, and not only the opening of a block. -/
def Underway (σ : Pace) : Prop := σ.fresh = false ∧ σ.blockStart = false

end Pace

/-- The last row of a block closes it. -/
theorem rows_of_block? {x : Statement} {kind : BlockKind} (h : x.block? = some kind) :
    ∃ rows list, x.rows = rows ++ [.keyword (.closing kind) list] := by
  cases x with
  | definition => obtain rfl := Option.some.inj h; exact ⟨_ :: _, _, rfl⟩
  | conditional head elseifs otherwise =>
    obtain rfl := Option.some.inj h
    rw [Statement.rows_conditional]
    cases otherwise with
    | none => exact ⟨_, _, rfl⟩
    | some arm => exact ⟨_, _, (List.append_assoc ..).symm⟩
  | loop => obtain rfl := Option.some.inj h; exact ⟨_ :: _, _, rfl⟩
  | _ => contradiction

theorem through_block (s : Style) (σ : Pace) {x : Statement} {kind : BlockKind}
    (h : x.block? = some kind) : σ.through s x.rows = ⟨0, false, spaced s kind, false, false⟩ := by
  obtain ⟨rows, list, hrows⟩ := rows_of_block? h
  rw [hrows, Pace.through_append, Pace.through_singleton s _ rfl]
  rfl

/-- Behind a block with blank lines around it, a blank line is owed. -/
theorem through_spaced (s : Style) (σ : Pace) {block : Statement}
    (h : isSpacedBlock s block = true) :
    σ.through s block.rows = ⟨0, false, true, false, false⟩ := by
  obtain ⟨kind, hkind, hspaced⟩ : ∃ kind, block.block? = some kind ∧ spaced s kind = true := by
    cases block <;> first | exact ⟨_, rfl, h⟩ | contradiction
  rw [through_block s σ hkind, hspaced]

theorem Pace.Underway.behindComment {σ : Pace} {breaks : Nat} {trailing own : Bool}
    (h : σ.Underway ∨ trailing = false) : (σ.behindComment breaks trailing own).Underway := by
  unfold Pace.behindComment
  split
  · next ht => exact ⟨rfl, (h.resolve_right (by simp_all)).2⟩
  · exact ⟨rfl, rfl⟩

/-- Behind a statement, a line break or a trailing comment apart. -/
theorem underway_through (s : Style) {σ : Pace} {x : Statement}
    (h : σ.Underway ∨ x.passes = false ∧ x.isUnknown = false) :
    (σ.through s x.rows).Underway := by
  cases hkind : x.block? with
  | some kind =>
    rw [through_block s σ hkind]
    exact ⟨rfl, rfl⟩
  | none =>
    cases x with
    | lineBreak =>
      have hσ := h.resolve_right (by simp [Statement.passes])
      change (σ.pass s .lineBreak).Underway
      unfold Pace.pass
      split
      · exact hσ
      · exact ⟨rfl, hσ.2⟩
    | unknown => exact h.resolve_right (by simp [Statement.isUnknown])
    | lineComment text trailing =>
      rw [Statement.rows, Pace.through_singleton s σ rfl]
      exact .behindComment (h.imp_right And.left)
    | bracketComment text fence trailing =>
      rw [Statement.rows, Pace.through_singleton s σ rfl]
      exact .behindComment (h.imp_right And.left)
    | bracket => exact ⟨rfl, rfl⟩
    | command => exact ⟨rfl, rfl⟩
    | _ => contradiction

theorem own_through (s : Style) (σ : Pace) (x : Statement) :
    (σ.through s x.rows).own = isOwnComment x := by
  cases hkind : x.block? with
  | some kind =>
    rw [through_block s σ hkind]
    cases x <;> first | rfl | contradiction
  | none =>
    cases x with
    | lineBreak =>
      change (σ.pass s .lineBreak).own = false
      unfold Pace.pass
      split <;> rfl
    | definition | conditional | loop => contradiction
    | _ =>
      rw [Statement.rows, Pace.through_singleton s σ rfl, own_behind]
      rfl

/-- Behind statements, one of which is a statement of its own. -/
theorem underway_through_rowsAll (s : Style) {σ : Pace} {list : List Statement}
    (h : σ.Underway ∨ ∃ x ∈ list, x.passes = false ∧ x.isUnknown = false) :
    (σ.through s (Statement.rowsAll list)).Underway := by
  induction list generalizing σ with
  | nil => exact h.resolve_right (by simp)
  | cons x list ih =>
    rw [Statement.rowsAll, Pace.through_append]
    apply ih
    rcases h with h | ⟨y, hy, hstatement⟩
    · exact .inl (underway_through s (.inl h))
    · rcases List.mem_cons.mp hy with rfl | hy
      · exact .inl (underway_through s (.inr hstatement))
      · exact .inr ⟨y, hy, hstatement⟩

theorem own_through_rowsAll (s : Style) (σ : Pace) {list : List Statement} {x : Statement}
    (h : x ∈ list.getLast?) :
    (σ.through s (Statement.rowsAll list)).own = isOwnComment x := by
  obtain ⟨front, rfl⟩ := List.getLast?_eq_some_iff.mp h
  rw [Statement.rowsAll_append, Pace.through_append, Statement.rowsAll, Statement.rowsAll,
    List.append_nil, own_through]

/-! ### What statements ask for -/

/-- A statement that is no line break and no trailing comment starts a line. -/
theorem want_statement {x : Statement} (h : x.passes = false) (hu : x.isUnknown = false) :
    ∃ r rest, x.rows = r :: rest ∧ r.isLineBreak = false ∧
      ∀ (s : Style) (more : List Row) (σ : Pace),
        σ.want s more r = σ.wantStatement s (leads s (r :: more)) := by
  cases x with
  | lineBreak => contradiction
  | unknown => contradiction
  | lineComment text trailing =>
    obtain rfl : trailing = false := h
    exact ⟨_, _, rfl, rfl, fun s more σ => rfl⟩
  | bracketComment text fence trailing =>
    obtain rfl : trailing = false := h
    exact ⟨_, _, rfl, rfl, fun s more σ => rfl⟩
  | conditional head elseifs otherwise =>
    obtain ⟨list, body, location⟩ := head
    rw [Statement.rows_conditional]
    exact ⟨_, _, rfl, rfl, fun s more σ => rfl⟩
  | _ => exact ⟨_, _, rfl, rfl, fun s more σ => rfl⟩

theorem blankGap_eq_two {s : Style} (h : 1 ≤ s.allowedBlankLines) : blankGap s = 2 := by
  unfold blankGap
  omega

/-- Where blank lines are allowed, a blank line is asked for above the first of a block and its
comments, and above a statement for which one is owed. -/
theorem wantStatement_eq_two {s : Style} (h : 1 ≤ s.allowedBlankLines) {σ : Pace} {heads : Bool}
    (hσ : σ.Underway) (hasks : σ.due = true ∨ σ.own = false ∧ heads = true) :
    σ.wantStatement s heads = 2 := by
  have hcond : (σ.due || (!σ.own && heads)) = true := by simpa using hasks
  rw [Pace.wantStatement, hσ.1, hσ.2, hcond, blankGap_eq_two h]
  rfl

/-- A blank line is owed; `b` says whether a line starts here. -/
structure Pace.Owes (σ : Pace) (b : Bool) : Prop where
  underway : σ.Underway
  due : σ.due = true
  behind : b = false → σ.atStart = false

/-- Line breaks and comments that trail pay nothing. -/
theorem Pace.Owes.pass {s : Style} {σ : Pace} {b : Bool} (h : σ.Owes b) {x : Statement}
    (hx : x.passes = true) {more : List Row} (ha : Anchored b (x.rows ++ more)) :
    ∃ b', (σ.through s x.rows).Owes b' ∧ Anchored b' more := by
  obtain ⟨⟨hfresh, hblock⟩, hdue, hbehind⟩ := h
  have hcomment (breaks : Nat) (own : Bool) (hb : b = false) :
      σ.behindComment breaks true own =
        { σ with breaks := breaks, fresh := false, own := own } := by
    rw [Pace.behindComment, hbehind hb]
    rfl
  cases x with
  | lineBreak =>
    refine ⟨true, ?_, ha.2⟩
    change (σ.pass s .lineBreak).Owes true
    unfold Pace.pass
    split
    · exact ⟨⟨hfresh, hblock⟩, hdue, by simp⟩
    · exact ⟨⟨rfl, hblock⟩, hdue, by simp⟩
  | lineComment text trailing =>
    obtain rfl : trailing = true := hx
    have hb : b = false := by simpa using ha.1 true rfl
    rw [Statement.rows, Pace.through_singleton s σ rfl, Pace.behind, hcomment _ _ hb]
    exact ⟨true, ⟨⟨rfl, hblock⟩, hdue, by simp⟩, ha.2⟩
  | bracketComment text fence trailing =>
    obtain rfl : trailing = true := hx
    have hb : b = false := by simpa using ha.1 true rfl
    rw [Statement.rows, Pace.through_singleton s σ rfl, Pace.behind, hcomment _ _ hb]
    exact ⟨false, ⟨⟨rfl, hblock⟩, hdue, fun _ => rfl⟩, ha.2⟩
  | _ => contradiction

theorem Pace.Owes.passAll {s : Style} {σ : Pace} {b : Bool} (h : σ.Owes b) {list : List Statement}
    (hlist : ∀ x ∈ list, x.passes = true) {more : List Row}
    (ha : Anchored b (Statement.rowsAll list ++ more)) :
    ∃ b', (σ.through s (Statement.rowsAll list)).Owes b' ∧ Anchored b' more := by
  induction list generalizing σ b with
  | nil => exact ⟨b, h, ha⟩
  | cons x list ih =>
    obtain ⟨hx, hrest⟩ := List.forall_mem_cons.mp hlist
    rw [Statement.rowsAll, List.append_assoc] at ha
    obtain ⟨b', howes, hmore⟩ := h.pass hx ha
    rw [Statement.rowsAll, Pace.through_append]
    exact ih howes hrest hmore

theorem anchored_append {b : Bool} {rows more : List Row} (h : Anchored b (rows ++ more)) :
    Anchored (rows.foldl lineStartBehind b) more := by
  induction rows generalizing b with
  | nil => exact h
  | cons r rows ih => exact ih h.2

/-! ### Blank lines around blocks -/

theorem isStatement_of_isSpacedBlock {s : Style} {x : Statement} (h : isSpacedBlock s x = true) :
    x.passes = false ∧ x.isUnknown = false := by
  cases x <;> first | exact ⟨rfl, rfl⟩ | contradiction

theorem isStatement_of_isOwnComment {x : Statement} (h : isOwnComment x = true) :
    x.passes = false ∧ x.isUnknown = false := by
  cases x with
  | lineComment text trailing => exact ⟨by simpa [isOwnComment, Statement.passes] using h, rfl⟩
  | _ => contradiction

theorem isOwn_rowsAll {run : List Statement} (h : ∀ x ∈ run, isOwnComment x = true) :
    ∀ r ∈ Statement.rowsAll run, isOwn r = true := by
  induction run with
  | nil => simp [Statement.rowsAll]
  | cons c run ih =>
    obtain ⟨hc, hrun⟩ := List.forall_mem_cons.mp h
    obtain ⟨r, hr, hown⟩ := isOwnComment_rows hc
    rw [Statement.rowsAll, hr, List.singleton_append, List.forall_mem_cons]
    exact ⟨hown, ih hrun⟩

section Blocks
variable {s : Style} {run : List Statement} {block : Statement} {back : List Row}
variable (hrun : ∀ x ∈ run, isOwnComment x = true) (hspaced : isSpacedBlock s block = true)
include hrun hspaced

/-- A block and the comments that head it start with a row that asks for a blank line. -/
theorem exists_head (hback : Stops s back) (after : List Statement) :
    ∃ r rest, Statement.rowsAll (run ++ block :: after) ++ back = r :: rest ∧
      r.isLineBreak = false ∧ ∀ σ : Pace, σ.want s rest r = σ.wantStatement s true := by
  obtain ⟨x, tail, htail, hx, hu⟩ : ∃ x tail, run ++ block :: after = x :: tail ∧
      x.passes = false ∧ x.isUnknown = false := by
    cases run with
    | nil => exact ⟨block, after, rfl, isStatement_of_isSpacedBlock hspaced⟩
    | cons c run =>
      exact ⟨c, _, rfl, isStatement_of_isOwnComment (hrun c (List.mem_cons_self ..))⟩
  have hblock : isOwnComment block = false := by cases block <;> first | rfl | contradiction
  have hleads := leads_rowsAll s (run ++ block :: after) hback
  rw [List.dropWhile_append_of_pos hrun, List.dropWhile_cons_of_neg (by simp [hblock]),
    List.head?_cons, Option.map_some, hspaced] at hleads
  obtain ⟨r, rest, hrows, hbreak, hwant⟩ := want_statement hx hu
  rw [htail, Statement.rowsAll, hrows, List.cons_append, List.cons_append] at hleads ⊢
  exact ⟨r, _, rfl, hbreak, fun σ => (hwant s _ σ).trans (by rw [hleads]; rfl)⟩

/-- Above a block and its comments, behind a statement. -/
theorem blank_above (hs : 1 ≤ s.allowedBlankLines) (hback : Stops s back) (front : List Row)
    {before : List Statement} (after : List Statement)
    (hlast : ∀ x ∈ before.getLast?, isOwnComment x = false)
    (hbefore : ∃ x ∈ before, x.passes = false ∧ x.isUnknown = false) :
    ['\n', '\n'] <:+ above (placed s .start [] (front ++ Statement.rowsAll before ++
        (Statement.rowsAll (run ++ block :: after) ++ back)))
      (front ++ Statement.rowsAll before).length := by
  obtain ⟨r, rest, hhead, hbreak, hwant⟩ := exists_head hrun hspaced hback after
  have hfeeds := feeds_above s (σ := .start) rfl [] (front ++ Statement.rowsAll before) hbreak rest
  rw [hhead]
  rw [hwant, Pace.through_append] at hfeeds
  obtain ⟨x, hx⟩ : ∃ x, x ∈ before.getLast? := by
    obtain ⟨y, hy, -⟩ := hbefore
    exact ⟨_, List.getLast?_eq_some_getLast (List.ne_nil_of_mem hy)⟩
  have hown := (own_through_rowsAll s (Pace.start.through s front) hx).trans (hlast x hx)
  rwa [wantStatement_eq_two hs (underway_through_rowsAll s (.inr hbefore))
    (.inr ⟨hown, rfl⟩)] at hfeeds

/-- From the comments that head a block to the block. -/
theorem no_blank_between (hback : Stops s back) (rows : List Row) (after : List Statement) :
    ∃ indentation, above (placed s .start [] (rows ++
          (Statement.rowsAll (run ++ block :: after) ++ back)))
        (rows.length + (Statement.rowsAll run).length) =
      above (placed s .start [] (rows ++ (Statement.rowsAll (run ++ block :: after) ++ back)))
          rows.length ++
        (Statement.rowsAll run).flatMap fun r =>
          Text.spaces indentation ++ rowText s indentation r := by
  obtain ⟨r, rest, hhead, -, hwant⟩ := exists_head hrun hspaced hback after
  obtain ⟨b, more, hblock, -, -⟩ := head?_rows s block
  have hsplit : Statement.rowsAll run ++ b :: (more ++ (Statement.rowsAll after ++ back)) =
      r :: rest := by
    rw [← hhead, Statement.rowsAll_append, Statement.rowsAll, hblock]
    simp only [List.append_assoc, List.cons_append]
  rw [hhead]
  refine above_run s [] rows (isOwn_rowsAll hrun) hsplit ?_
  rw [hwant]
  exact Pace.atStart_advance (Pace.wantStatement_pos s true _)

omit hrun

/-- Above the first statement behind a block. -/
theorem blank_below (hs : 1 ≤ s.allowedBlankLines) (rows : List Row) {skipped : List Statement}
    (hskipped : ∀ x ∈ skipped, x.passes = true) {first : Statement}
    (hfirst : first.passes = false ∧ first.isUnknown = false) (more : List Row)
    (ha : Anchored true (rows ++ block.rows ++ (Statement.rowsAll skipped ++
      (first.rows ++ more)))) :
    ['\n', '\n'] <:+ above ((placed s .start [] (rows ++ block.rows ++
        (Statement.rowsAll skipped ++ (first.rows ++ more)))).drop (rows ++ block.rows).length)
      (Statement.rowsAll skipped).length := by
  obtain ⟨front, levels, hpage, hlength, -⟩ := placed_append s .start [] (rows ++ block.rows)
    (Statement.rowsAll skipped ++ (first.rows ++ more))
  rw [Pace.through_append, through_spaced s _ hspaced] at hpage
  rw [hpage, List.drop_left' hlength]
  obtain ⟨r, rest, hrows, hbreak, hwant⟩ := want_statement hfirst.1 hfirst.2
  have howes : Pace.Owes ⟨0, false, true, false, false⟩
      ((rows ++ block.rows).foldl lineStartBehind true) := ⟨⟨rfl, rfl⟩, rfl, fun _ => rfl⟩
  obtain ⟨b, hstill, -⟩ := howes.passAll (s := s) hskipped (anchored_append ha)
  have hfeeds := feeds_above s (σ := ⟨0, false, true, false, false⟩) rfl levels
    (Statement.rowsAll skipped) hbreak (rest ++ more)
  rw [hwant, wantStatement_eq_two hs hstill.underway (.inl hstill.due)] at hfeeds
  rw [hrows]
  exact hfeeds

end Blocks

/-- What stands around a block of a statement list, on a page. `run` are the comments that head the
block, and `front` are the rows above the list. -/
structure SetOff (s : Style) (page : List Placed) (front : List Row)
    (before run : List Statement) (block : Statement) (after : List Statement) : Prop where
  /-- Behind a statement, the line above the block and its comments is blank. -/
  blankAbove : (∃ x ∈ before, x.passes = false) →
    ['\n', '\n'] <:+ above page (front ++ Statement.rowsAll before).length
  /-- From these comments to the block there is nothing but their lines. -/
  headed : ∃ indentation, above page (front ++ Statement.rowsAll (before ++ run)).length =
    above page (front ++ Statement.rowsAll before).length ++
      (Statement.rowsAll run).flatMap fun r => Text.spaces indentation ++ rowText s indentation r
  /-- Before a statement below, the line above it is blank, or the line above an earlier one is. -/
  blankBelow : ∀ mid sibling more, after = mid ++ sibling :: more → sibling.passes = false →
    ∃ skipped first, skipped ++ [first] <+: mid ++ [sibling] ∧
      (∀ x ∈ skipped, x.passes = true) ∧
      ['\n', '\n'] <:+ above
        (page.drop (front ++ Statement.rowsAll (before ++ run ++ [block])).length)
        (Statement.rowsAll skipped).length

theorem isUnknown_of_not_mem {x : Statement} (h : Row.unknown ∉ x.rows) : x.isUnknown = false := by
  cases x <;> first | rfl | exact absurd (List.mem_singleton.mpr rfl) h

theorem rows_subset_rowsAll {x : Statement} {list : List Statement} (h : x ∈ list) :
    x.rows ⊆ Statement.rowsAll list := by
  obtain ⟨before, after, rfl⟩ := List.append_of_mem h
  rw [Statement.rowsAll_append, Statement.rowsAll]
  simp

/-- The first statement of a list that is no line break and no trailing comment. -/
theorem exists_first {list : List Statement} (h : ∃ x ∈ list, x.passes = false) :
    ∃ skipped first rest, list = skipped ++ first :: rest ∧
      (∀ x ∈ skipped, x.passes = true) ∧ first.passes = false := by
  obtain ⟨first, hfind⟩ := Option.isSome_iff_exists.mp
    (List.find?_isSome.mpr (by simpa using h : ∃ x ∈ list, (!x.passes) = true))
  obtain ⟨hfirst, skipped, rest, hlist, hskipped⟩ := List.find?_eq_some_iff_append.mp hfind
  exact ⟨skipped, first, rest, hlist, by simpa using hskipped, by simpa using hfirst⟩

/-- Blank lines stand around the blocks of a tree whose trailing comments stand behind something. -/
theorem setOff_of_anchored {s : Style} (hs : 1 ≤ s.allowedBlankLines) {tree : List Statement}
    (ha : Anchored true (Statement.rowsAll tree)) (hu : Row.unknown ∉ Statement.rowsAll tree)
    {front back : List Row} {before run after : List Statement} {block : Statement}
    (h : Statement.Nested tree front (before ++ run ++ block :: after) back)
    (hspaced : isSpacedBlock s block = true) (hrun : ∀ x ∈ run, isOwnComment x = true)
    (hlast : ∀ x ∈ before.getLast?, isOwnComment x = false) :
    SetOff s (placed s .start [] (Statement.rowsAll tree)) front before run block after := by
  have hrows := h.rowsAll_eq
  have hback := h.stops s
  have hknown : ∀ x ∈ before ++ run ++ block :: after, x.isUnknown = false := fun x hx =>
    isUnknown_of_not_mem fun hmem => hu (by
      rw [hrows]
      exact List.mem_append_right _ (List.mem_append_left _ (rows_subset_rowsAll hx hmem)))
  have hcut : Statement.rowsAll tree = front ++ Statement.rowsAll before ++
      (Statement.rowsAll (run ++ block :: after) ++ back) := by
    rw [hrows, List.append_assoc before, Statement.rowsAll_append before]
    simp only [List.append_assoc]
  refine ⟨fun ⟨x, hx, hpass⟩ => ?_, ?_, fun mid sibling more hafter hpass => ?_⟩
  · rw [hcut]
    exact blank_above hrun hspaced hs hback front after hlast
      ⟨x, hx, hpass, hknown x (by simp [hx])⟩
  · have hlength : (front ++ Statement.rowsAll (before ++ run)).length =
        (front ++ Statement.rowsAll before).length + (Statement.rowsAll run).length := by
      rw [Statement.rowsAll_append, ← List.append_assoc, List.length_append]
    rw [hcut, hlength]
    exact no_blank_between hrun hspaced hback (front ++ Statement.rowsAll before) after
  · obtain ⟨skipped, first, rest, hfirst, hskipped, hstatement⟩ :=
      exists_first (⟨sibling, by simp, hpass⟩ : ∃ x ∈ mid ++ [sibling], x.passes = false)
    have hall : after = skipped ++ first :: (rest ++ more) := by
      rw [hafter, ← List.singleton_append, ← List.append_assoc, hfirst]
      simp
    have hbelow : Statement.rowsAll tree =
        front ++ Statement.rowsAll (before ++ run) ++ block.rows ++
          (Statement.rowsAll skipped ++
            (first.rows ++ (Statement.rowsAll (rest ++ more) ++ back))) := by
      rw [hrows, hall]
      simp only [Statement.rowsAll_append, Statement.rowsAll, List.append_assoc]
    have hlength : front ++ Statement.rowsAll (before ++ run ++ [block]) =
        front ++ Statement.rowsAll (before ++ run) ++ block.rows := by
      simp [Statement.rowsAll_append, Statement.rowsAll]
    refine ⟨skipped, first, ⟨rest, by simp [hfirst]⟩, hskipped, ?_⟩
    rw [hbelow] at ha ⊢
    rw [hlength]
    exact blank_below hspaced hs _ hskipped ⟨hstatement, hknown first (by simp [hall])⟩ _ ha

theorem unknown_not_mem_of_clean {text : Text} (h : (Source.parse text).diagnostics = []) :
    Row.unknown ∉ Statement.rowsAll (Source.parse text).statements := by
  intro hmem
  obtain ⟨content, hcontent, hagrees⟩ := exists_of_mem_forall₂ (agrees_of_clean h) hmem
  obtain ⟨i, hi, rfl⟩ := List.mem_map.mp hcontent
  have hlegible := legible_of_clean h i hi
  generalize i.content = content at hagrees hlegible
  cases hagrees with
  | @statement x r hrows => cases x <;> first | contradiction | cases hrows

/-- Where blank lines are allowed, the blocks of a text without faults that the style asks for are
set off by blank lines from the statements around them, at any depth. -/
theorem blocks_set_off (s : Style) (text : Text) (hs : 1 ≤ s.allowedBlankLines)
    (h : (Source.parse text).diagnostics = []) :
    ∃ page : List Placed,
      page.map Placed.row = Statement.rowsAll (Source.parse text).statements ∧
      (∀ p ∈ page, p.Written s) ∧
      page.flatMap Placed.ink = statements s (Source.parse text).statements ∧
      ∀ front back before run block after,
        Statement.Nested (Source.parse text).statements front
          (before ++ run ++ block :: after) back →
        isSpacedBlock s block = true → (∀ x ∈ run, isOwnComment x = true) →
        (∀ x ∈ before.getLast?, isOwnComment x = false) →
        SetOff s page front before run block after :=
  ⟨placed s .start [] _, map_row_placed s _ _ _, written_placed s _ _ _,
    (ink_placed s _ _ _).trans (statements_eq_verbatim s _).symm,
    fun _ _ _ _ _ _ hnested hspaced hrun hlast =>
      setOff_of_anchored hs (anchored_of_clean h) (unknown_not_mem_of_clean h) hnested hspaced hrun
        hlast⟩

/-- A definition with a comment above it and one that trails. -/
def definitionText : Text :=
  "set(a)\n# c\nfunction(f)\nb()\nendfunction()#t\n\n\n#[[u]]\nset(c)\n".toList

/-- Behind a command and the end of its line stand a comment and the definition that it heads. -/
theorem blocks_set_off_definition :
    (Source.parse definitionText).diagnostics = [] ∧
      ∃ page before run block after,
        page.flatMap Placed.ink =
          "set(a)\n\n# c\nfunction(f)\n    b()\nendfunction(f) # t\n\n#[[u]]\nset(c)\n".toList ∧
        (Source.parse definitionText).statements = before ++ run ++ block :: after ∧
        before.length = 2 ∧ run.length = 1 ∧ SetOff .standard page [] before run block after ∧
        ['\n', '\n'] <:+ above page (Statement.rowsAll before).length := by
  have h : (Source.parse definitionText).diagnostics = [] := by decide +kernel
  obtain ⟨page, -, -, hink, hset⟩ := blocks_set_off .standard definitionText (by decide) h
  have htext : page.flatMap Placed.ink =
      "set(a)\n\n# c\nfunction(f)\n    b()\nendfunction(f) # t\n\n#[[u]]\nset(c)\n".toList :=
    hink.trans (by decide +kernel)
  obtain ⟨tree, htree⟩ : ∃ tree, tree = (Source.parse definitionText).statements := ⟨_, rfl⟩
  have hbefore : (tree.take 2).length = 2 ∧ (∃ x ∈ tree.take 2, x.passes = false) ∧
      ∀ x ∈ (tree.take 2).getLast?, isOwnComment x = false := by
    rw [htree]
    decide +kernel
  have hrun : ((tree.drop 2).take 1).length = 1 ∧
      ∀ x ∈ (tree.drop 2).take 1, isOwnComment x = true := by
    rw [htree]
    decide +kernel
  have hblock : (tree.drop 3).head?.any (isSpacedBlock .standard) = true := by
    rw [htree]
    decide +kernel
  obtain ⟨block, after, hrest⟩ := List.exists_cons_of_ne_nil (l := tree.drop 3) fun hnil => by
    simp [hnil] at hblock
  have hcut : tree = tree.take 2 ++ (tree.drop 2).take 1 ++ block :: after := by
    have hdrop : (tree.drop 2).drop 1 = tree.drop 3 := List.drop_drop
    rw [← hrest, List.append_assoc, ← hdrop, List.take_append_drop, List.take_append_drop]
  have hnested : Statement.Nested tree []
      (tree.take 2 ++ (tree.drop 2).take 1 ++ block :: after) [] := by
    rw [← hcut]
    exact .top
  rw [hrest] at hblock
  rw [← htree] at hset ⊢
  have hsetOff := hset _ _ _ _ _ _ hnested (by simpa using hblock) hrun.2 hbefore.2.2
  exact ⟨h, page, _, _, block, after, htext, hcut, hbefore.1, hrun.1, hsetOff,
    hsetOff.blankAbove hbefore.2.1⟩

end Listfile.Layout
