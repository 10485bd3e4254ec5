import Listfile.Proofs.Seam

/-! Looking up places. The line of an offset is told by the line feeds in front of
it (`line_location`), and the start of that line and the column make up the offset
(`start?_location`). So lines never go back along a text. -/

namespace Listfile.LineIndex

/-- The offset at which a line starts. -/
def start? (i : LineIndex) (line : Nat) : Option Nat := (0 :: i.starts)[line - 1]?

theorem starts_ofText_append (a b : Text) :
    (ofText (a ++ b)).starts = (ofText a).starts ++ startsFrom a.length b := by
  simp [ofText, startsFrom_append]

theorem lineCount_ofText (t : Text) : (ofText t).lineCount = t.count '\n' + 1 := by
  rw [lineCount, ofText, length_startsFrom]

/-- What stands behind an offset does not matter for its place. -/
theorem location_take (t : Text) (offset : Nat) :
    (ofText (t.take offset)).location offset = (ofText t).location offset := by
  rcases Nat.lt_or_ge t.length offset with h | h
  · rw [List.take_of_length_le (Nat.le_of_lt h)]
  · have hle : offset ≤ (t.take offset).length := by rw [List.length_take, Nat.min_eq_left h]
    have hleft := location_append_left (t.take offset) (t.drop offset) hle
    rwa [List.take_append_drop, eq_comm] at hleft

/-- At the end of a text and behind it, all lines are passed. -/
theorem seek_of_length_le {t : Text} {offset : Nat} (h : t.length ≤ offset) :
    seek offset 0 0 (ofText t).starts = (t.count '\n', (ofText t).starts.getLastD 0) := by
  have hpassed : ∀ s ∈ (ofText t).starts, s ≤ offset := fun s hs => by
    have := mem_startsFrom s hs
    omega
  have hseek := seek_append_of_le hpassed 0 0 []
  rw [List.append_nil, Nat.zero_add] at hseek
  rw [hseek, seek]
  exact congrArg (·, _) (length_startsFrom 0 t)

/-- The line of an offset. -/
theorem line_location (t : Text) (offset : Nat) :
    ((ofText t).location offset).line = (t.take offset).count '\n' + 1 := by
  rw [← location_take, location, seek_of_length_le (List.length_take_le offset t)]

/-- The column of an offset, from the last line that starts in front of it. -/
theorem column_location (t : Text) (offset : Nat) :
    ((ofText t).location offset).column =
      offset - (ofText (t.take offset)).starts.getLastD 0 := by
  rw [← location_take, location, seek_of_length_le (List.length_take_le offset t)]

theorem line_location_le (t : Text) (offset : Nat) :
    ((ofText t).location offset).line ≤ (ofText t).lineCount := by
  rw [line_location, lineCount_ofText]
  exact Nat.succ_le_succ ((List.take_sublist offset t).count_le '\n')

/-- Lines do not go back. -/
theorem line_location_mono (t : Text) {offset offset' : Nat} (h : offset ≤ offset') :
    ((ofText t).location offset).line ≤ ((ofText t).location offset').line := by
  rw [line_location, line_location]
  exact Nat.succ_le_succ ((List.take_prefix_take_left h).sublist.count_le '\n')

/-- An offset is the start of its line and its column. -/
theorem start?_location (t : Text) (offset : Nat) :
    ∃ start, (ofText t).start? ((ofText t).location offset).line = some start ∧
      start + ((ofText t).location offset).column = offset := by
  have hle : (ofText (t.take offset)).starts.getLastD 0 ≤ offset := by
    have hlength := List.length_take_le offset t
    have hmem : (ofText (t.take offset)).starts.getLastD 0 ∈ 0 :: (ofText (t.take offset)).starts :=
      List.getLastD_mem_cons
    rcases List.mem_cons.mp hmem with h | h
    · omega
    · have := mem_startsFrom _ h
      omega
  refine ⟨(ofText (t.take offset)).starts.getLastD 0, ?_, by rw [column_location]; omega⟩
  have hstarts : (0 :: (ofText t).starts) =
      (0 :: (ofText (t.take offset)).starts) ++ startsFrom (t.take offset).length
        (t.drop offset) := by
    rw [List.cons_append, ← starts_ofText_append, List.take_append_drop]
  have hlength : (ofText (t.take offset)).starts.length = (t.take offset).count '\n' :=
    length_startsFrom 0 _
  rw [start?, line_location, Nat.add_sub_cancel, hstarts,
    List.getElem?_append_left (by simp [hlength]), ← hlength]
  generalize (ofText (t.take offset)).starts = starts
  rcases List.eq_nil_or_concat starts with rfl | ⟨front, s, rfl⟩
  · rfl
  · simp

end Listfile.LineIndex
