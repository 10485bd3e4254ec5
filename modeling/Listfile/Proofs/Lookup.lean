import Listfile.Proofs.Lines
import Mathlib.Data.List.Pairwise

/-! Looking up offsets in the table of all line starts. The table is sorted, so the
first entry behind an offset can be found by halving (`getElem_le_iff_lt_bisect`),
and its place is the number of entries at or before the offset. Going through the
starts one by one counts the same entries, so both come to the same place, also for
offsets that no line holds (`search_eq_locate`). The place tells the line feeds in
front of the offset and the distance from the last of them, hence greater offsets
lie at later places, and the offset can be told from the place and the table
(`lookup_exact`). -/

namespace Listfile

/-- Places in the order of a text: an earlier line, or an earlier column in the same line. -/
def Location.Before (a b : Location) : Prop :=
  a.line < b.line ∨ (a.line = b.line ∧ a.column < b.column)

namespace LineIndex

/-- The start offsets of all lines. -/
def table (i : LineIndex) : List Nat := 0 :: i.starts

/-! ### Searching by halving -/

/-- The first place from `low` on with an entry behind an offset, in a sorted table in which all
entries from `high` on are behind it. -/
def bisect (table : List Nat) (offset : Int) (low high : Nat) (h : high ≤ table.length) : Nat :=
  if _hlt : low < high then
    let middle := (low + high) / 2
    have _hmiddle : middle < high := by omega
    if offset < table[middle] then bisect table offset low middle (by omega)
    else bisect table offset (middle + 1) high h
  else low
termination_by high - low

theorem bisect_le {table : List Nat} (offset : Int) {low high : Nat} (h : high ≤ table.length)
    (hle : low ≤ high) : bisect table offset low high h ≤ high := by
  fun_induction bisect table offset low high h with
  | case1 low high h hlt middle hmiddle hoffset ih =>
    have hlow : low ≤ middle := by omega
    exact (ih hlow).trans hmiddle.le
  | case2 low high h hlt middle hmiddle hoffset ih => exact ih hmiddle
  | case3 => exact hle

theorem getElem_le_getElem {table : List Nat} (hsorted : table.Pairwise (· ≤ ·)) {a b : Nat}
    (hab : a ≤ b) (hb : b < table.length) : table[a] ≤ table[b] :=
  hsorted.rel_get_of_le (a := ⟨a, by omega⟩) (b := ⟨b, hb⟩) hab

/-- In a sorted table, halving finds where the entries behind an offset begin: those in front of
`low` and those from `high` on are known not to be and to be behind it, and each step keeps this. -/
theorem getElem_le_iff_lt_bisect {table : List Nat} (hsorted : table.Pairwise (· ≤ ·))
    (offset : Int) {low high : Nat} (h : high ≤ table.length) (hle : low ≤ high)
    (hlow : ∀ j (hj : j < table.length), j < low → table[j] ≤ offset)
    (hhigh : ∀ j (hj : j < table.length), high ≤ j → offset < table[j])
    (j : Nat) (hj : j < table.length) :
    table[j] ≤ offset ↔ j < bisect table offset low high h := by
  fun_induction bisect table offset low high h with
  | case1 low high h hlt middle hmiddle hoffset ih =>
    refine ih (by omega) hlow fun k hk hmk => ?_
    have := getElem_le_getElem hsorted hmk hk
    omega
  | case2 low high h hlt middle hmiddle hoffset ih =>
    refine ih hmiddle (fun k hk hkm => ?_) hhigh
    have := getElem_le_getElem hsorted (Nat.le_of_lt_succ hkm) (by omega)
    omega
  | case3 low high h hlt =>
    constructor
    · intro hentry
      by_contra hbehind
      have := hhigh j hj (by omega)
      omega
    · intro hfront
      exact hlow j hj hfront

/-- The number of entries with a property that holds up to some place and not from there on. -/
theorem countP_eq_of_getElem {p : Nat → Bool} {table : List Nat} {k : Nat} (hk : k ≤ table.length)
    (h : ∀ j (hj : j < table.length), p table[j] = true ↔ j < k) : table.countP p = k := by
  have hfront : (table.take k).countP p = (table.take k).length := by
    rw [List.countP_eq_length]
    intro s hs
    obtain ⟨j, hj, rfl⟩ := List.mem_take_iff_getElem.mp hs
    exact (h j (by omega)).mpr (by omega)
  have hback : (table.drop k).countP p = 0 := by
    rw [List.countP_eq_zero]
    intro s hs
    obtain ⟨j, hj, rfl⟩ := List.mem_drop_iff_getElem.mp hs
    rw [h]
    omega
  calc table.countP p = (table.take k ++ table.drop k).countP p := by rw [List.take_append_drop]
    _ = k := by
      rw [List.countP_append, hfront, hback, List.length_take, Nat.min_eq_left hk, Nat.add_zero]

section Sorted

variable {table : List Nat} (hsorted : table.Pairwise (· ≤ ·)) (offset : Int)
include hsorted

/-- What halving comes to for a whole table. -/
theorem getElem_le_iff_lt_bisect_length (j : Nat) (hj : j < table.length) :
    table[j] ≤ offset ↔ j < bisect table offset 0 table.length (Nat.le_refl _) :=
  getElem_le_iff_lt_bisect hsorted offset _ (Nat.zero_le _) (fun k _ hk => by omega)
    (fun k hk hle => by omega) j hj

theorem bisect_eq_countP : bisect table offset 0 table.length (Nat.le_refl _) =
    table.countP fun s : Nat => (s : Int) ≤ offset := by
  symm
  apply countP_eq_of_getElem (bisect_le offset _ (Nat.zero_le _))
  intro j hj
  rw [decide_eq_true_iff]
  exact getElem_le_iff_lt_bisect_length hsorted offset j hj

end Sorted

/-! ### Both ways to a place -/

/-- Going through sorted starts counts those at or before an offset. -/
theorem seek_eq_countP {starts : List Nat} (hsorted : starts.Pairwise (· ≤ ·))
    (offset line start : Nat) :
    (seek offset line start starts).1 = line + starts.countP (· ≤ offset) ∧
      (start :: starts)[starts.countP (· ≤ offset)]? = some (seek offset line start starts).2 := by
  induction starts generalizing line start with
  | nil => simp [seek]
  | cons s starts ih =>
    obtain ⟨hs, hrest⟩ := List.pairwise_cons.mp hsorted
    rw [seek]
    by_cases hle : s ≤ offset
    · obtain ⟨hline, hstart⟩ := ih hrest (line + 1) s
      rw [if_pos hle, List.countP_cons_of_pos (by simpa using hle), hline]
      exact ⟨by omega, hstart⟩
    · have hnone : (s :: starts).countP (· ≤ offset) = 0 := by
        rw [List.countP_eq_zero]
        intro u hu
        rcases List.mem_cons.mp hu with rfl | hu
        · simpa using hle
        · have := hs u hu
          simp only [decide_eq_true_eq]
          omega
      rw [if_neg hle, hnone]
      exact ⟨rfl, rfl⟩

/-- The entry at a place of a table. A negative place counts from the end. -/
def startAt? (table : List Nat) (place : Int) : Option Nat :=
  if 0 ≤ place then table[place.toNat]?
  else if 0 ≤ table.length + place then table[(table.length + place).toNat]?
  else none

/-- The place of an integer offset by halving: the last entry that is not behind the offset, or the
last of the table where all of them are, gives a line and a column, which are then checked. -/
def search (i : LineIndex) (offset : Int) : Option (Except Location.Fault Location) :=
  let line : Int := bisect i.table offset 0 i.table.length (Nat.le_refl _) - 1
  (startAt? i.table line).map fun start : Nat => Location.ofInts (line + 1) (offset - start)

theorem startAt?_natCast (table : List Nat) (n : Nat) : startAt? table n = table[n]? := by
  rw [startAt?, if_pos (by omega), Int.toNat_natCast]

theorem startAt?_neg_one (table : List Nat) : startAt? table (-1) = table.getLast? := by
  rw [startAt?, if_neg (by decide), List.getLast?_eq_getElem?]
  by_cases hnil : table.length = 0
  · simp [List.length_eq_zero_iff.mp hnil]
  · rw [if_pos (by omega)]
    congr 1
    omega

theorem locate_natCast (i : LineIndex) (offset : Nat) :
    i.locate offset = .ok (i.location offset) := by
  rw [locate, if_neg (by omega), Int.toNat_natCast]

section Sorted

variable {i : LineIndex} (hsorted : i.table.Pairwise (· ≤ ·))
include hsorted

/-- No entry is at or before a negative offset, so that the line comes out as zero. -/
theorem search_of_neg {offset : Int} (h : offset < 0) :
    i.search offset = some (i.locate offset) := by
  have hnone : bisect i.table offset 0 i.table.length (Nat.le_refl _) = 0 := by
    rw [bisect_eq_countP hsorted, List.countP_eq_zero]
    intro s _
    rw [decide_eq_true_iff]
    omega
  have hlast : i.table.getLast? = some (i.table.getLast (by simp [table])) :=
    List.getLast?_eq_some_getLast _
  rw [search, hnone, locate, if_pos h]
  change (startAt? i.table (-1)).map _ = _
  rw [startAt?_neg_one, hlast]
  rfl

/-- The last entry at or before an offset is the start of its line. -/
theorem search_natCast (offset : Nat) : i.search offset = some (i.locate offset) := by
  obtain ⟨hline, hstart⟩ := seek_eq_countP (List.pairwise_cons.mp hsorted).2 offset 0 0
  rw [Nat.zero_add] at hline
  have hfound : bisect i.table offset 0 i.table.length (Nat.le_refl _) =
      (seek offset 0 0 i.starts).1 + 1 := by
    rw [bisect_eq_countP hsorted, table, List.countP_cons_of_pos (by simp), hline]
    simp only [Int.ofNat_le]
  have hplace : (((seek offset 0 0 i.starts).1 + 1 : Nat) : Int) - 1 =
      (seek offset 0 0 i.starts).1 := by omega
  rw [search, hfound, hplace, startAt?_natCast, table, hline, hstart, ← hline, Option.map_some,
    i.ofInts_seek, i.locate_natCast]

/-- Halving comes to the same place, or the same fault, as going through the starts. -/
theorem search_eq_locate (offset : Int) : i.search offset = some (i.locate offset) := by
  by_cases h : offset < 0
  · exact search_of_neg hsorted h
  · obtain ⟨n, rfl⟩ := Int.eq_ofNat_of_zero_le (Int.not_lt.mp h)
    exact search_natCast hsorted n

end Sorted

/-! ### Places in a text -/

theorem pairwise_startsFrom (n : Nat) (t : Text) : (startsFrom n t).Pairwise (· < ·) := by
  induction t generalizing n with
  | nil => exact .nil
  | cons c t ih =>
    rw [startsFrom]
    split
    · exact .cons (fun s hs => (mem_startsFrom s hs).1) (ih (n + 1))
    · exact ih (n + 1)

/-- The first line starts in front of all others. -/
theorem pairwise_table (t : Text) : (ofText t).table.Pairwise (· < ·) :=
  .cons (fun s hs => (mem_startsFrom s hs).1) (pairwise_startsFrom 0 t)

theorem startsFrom_of_not_mem (n : Nat) {t : Text} (h : '\n' ∉ t) : startsFrom n t = [] := by
  rw [← List.length_eq_zero_iff, length_startsFrom]
  exact List.count_eq_zero.mpr h

/-- In the first line, columns are offsets. -/
theorem column_of_not_mem {t : Text} {offset : Nat} (h : '\n' ∉ t.take offset) :
    ((ofText t).location offset).column = offset := by
  rw [column_location, ofText, startsFrom_of_not_mem 0 h]
  rfl

/-- Elsewhere columns are counted from behind the last line feed. -/
theorem column_of_append {t front back : Text} {offset : Nat}
    (h : t.take offset = front ++ '\n' :: back) (hback : '\n' ∉ back) :
    front.length + 1 + ((ofText t).location offset).column = offset := by
  have hstarts : (ofText (t.take offset)).starts =
      startsFrom 0 front ++ [front.length + 1] := by
    rw [h, starts_ofText_append, startsFrom, if_pos rfl, startsFrom_of_not_mem _ hback]
    rfl
  have hlength := congrArg List.length h
  simp only [List.length_take, List.length_append, List.length_cons] at hlength
  rw [column_location, hstarts, List.getLastD_concat]
  omega

/-- Greater offsets lie at later places. -/
theorem before_location (t : Text) {a b : Nat} (h : a < b) :
    ((ofText t).location a).Before ((ofText t).location b) := by
  obtain ⟨startA, hstartA, hcolumnA⟩ := start?_location t a
  obtain ⟨startB, hstartB, hcolumnB⟩ := start?_location t b
  rcases Nat.lt_or_eq_of_le (line_location_mono t h.le) with hline | hline
  · exact .inl hline
  · -- both columns are counted from the same start
    rw [hline, hstartB] at hstartA
    obtain rfl := Option.some.inj hstartA
    exact .inr ⟨hline, by omega⟩

/-- Every offset that is not negative has a place, also behind the end of the source, and halving
finds the same place. The line is told by the line feeds in front of the offset, the column by the
distance from the last of them, and the start of the line and the column make up the offset. Places
grow with offsets. Negative offsets are refused. -/
theorem lookup_exact (source : Text) :
    (∀ offset : Nat, ∃ place, (ofText source).locate offset = .ok place ∧
      place.line = 1 + (source.take offset).count '\n' ∧
      ('\n' ∉ source.take offset → place.column = offset) ∧
      (∀ front back, source.take offset = front ++ '\n' :: back → '\n' ∉ back →
        front.length + 1 + place.column = offset) ∧
      ∃ start, (ofText source).start? place.line = some start ∧ start + place.column = offset) ∧
    (∀ (a b : Nat) (placeA placeB : Location), a < b → (ofText source).locate a = .ok placeA →
      (ofText source).locate b = .ok placeB → placeA.Before placeB) ∧
    (ofText source).lineCount = 1 + source.count '\n' ∧
    (∀ offset : Int, offset < 0 → (ofText source).locate offset = .error .lineBelowOne) ∧
    ∀ offset : Int, (ofText source).search offset = some ((ofText source).locate offset) := by
  have hlocate := (ofText source).locate_natCast
  refine ⟨fun offset => ⟨_, hlocate offset, ?_, column_of_not_mem, ?_,
    start?_location source offset⟩, ?_, ?_, fun offset h => if_pos h, ?_⟩
  · rw [line_location, Nat.add_comm]
  · intro front back h hback
    exact column_of_append h hback
  · intro a b placeA placeB h hA hB
    obtain rfl := Except.ok.inj ((hlocate a).symm.trans hA)
    obtain rfl := Except.ok.inj ((hlocate b).symm.trans hB)
    exact before_location source h
  · rw [lineCount_ofText, Nat.add_comm]
  · exact search_eq_locate ((pairwise_table source).imp Nat.le_of_lt)

end LineIndex

end Listfile
