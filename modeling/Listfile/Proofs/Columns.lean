import Listfile.Proofs.Lists
import Listfile.Proofs.Wrapping

/-! The column discipline of wrapped lists. Each character of a layout is told apart
by the leaf that it belongs to: an argument that is no group. A line is written
from left to right, and behind each argument it holds the characters of one leaf
at most or leaves as much room up to the column limit as the parentheses that
follow need (`Room`). So no line is longer than the limit unless one leaf alone
makes it so (`long_lines_hold_one_leaf`). -/

namespace Listfile.Layout

/-! ### Lines of characters -/

/-- A character, and the number of the leaf that it belongs to, if there is one. -/
abbrev Owned := Char × Option Nat

/-- The characters of a line belong to one leaf at most. -/
def OneLeaf (line : List Owned) : Prop :=
  ∀ i j, some i ∈ line.map Prod.snd → some j ∈ line.map Prod.snd → i = j

/-- No character of a line belongs to a leaf. -/
def Free (line : List Owned) : Prop := ∀ c ∈ line, c.2 = none

/-- A line that is longer than the limit holds one leaf at most. -/
def Kept (limit : Nat) (line : List Owned) : Prop := limit < line.length → OneLeaf line

/-- The last line of characters that are written behind `line`. -/
def lastLine (line : List Owned) : List Owned → List Owned
  | [] => line
  | c :: rest => if c.1 = '\n' then lastLine [] rest else lastLine (line ++ [c]) rest

/-- The lines that end in characters written behind `line` are kept. -/
def Closed (limit : Nat) (line : List Owned) : List Owned → Prop
  | [] => True
  | c :: rest =>
    if c.1 = '\n' then Kept limit line ∧ Closed limit [] rest
    else Closed limit (line ++ [c]) rest

/-- A line holds one leaf at most, or `reserve` more columns fit on it. -/
def Room (limit : Nat) (reserve : Int) (line : List Owned) : Prop :=
  OneLeaf line ∨ line.length + reserve ≤ limit

theorem lastLine_append (line cs ds : List Owned) :
    lastLine line (cs ++ ds) = lastLine (lastLine line cs) ds := by
  induction cs generalizing line with
  | nil => rfl
  | cons c cs ih =>
    rw [List.cons_append, lastLine, lastLine]
    split <;> exact ih _

theorem closed_append (limit : Nat) (line cs ds : List Owned) :
    Closed limit line (cs ++ ds) ↔
      Closed limit line cs ∧ Closed limit (lastLine line cs) ds := by
  induction cs generalizing line with
  | nil => simp [Closed, lastLine]
  | cons c cs ih =>
    rw [List.cons_append, Closed, Closed, lastLine]
    split
    · rw [ih, and_assoc]
    · exact ih _

/-- The width of the last line is the column behind the text. -/
theorem length_lastLine (line cs : List Owned) :
    ((lastLine line cs).length : Int) = endColumn (cs.map Prod.fst) line.length := by
  induction cs generalizing line with
  | nil => rfl
  | cons c cs ih =>
    rw [lastLine, List.map_cons, endColumn, List.foldl_cons]
    split
    · exact ih []
    · rw [ih, List.length_append]
      rfl

theorem Room.kept {limit : Nat} {reserve : Int} {line : List Owned} (h : Room limit reserve line)
    (hr : 0 ≤ reserve) : Kept limit line := by
  intro hlong
  rcases h with hone | hfits
  · exact hone
  · omega

theorem OneLeaf.of_subset {line more : List Owned} (h : OneLeaf line) (hsub : more ⊆ line) :
    OneLeaf more := fun i j hi hj =>
  h i j (List.map_subset Prod.snd hsub hi) (List.map_subset Prod.snd hsub hj)

theorem OneLeaf.append_free {line cs : List Owned} (h : OneLeaf line) (hcs : Free cs) :
    OneLeaf (line ++ cs) := by
  have hnone (i : Nat) (hi : some i ∈ (line ++ cs).map Prod.snd) : some i ∈ line.map Prod.snd := by
    rw [List.map_append] at hi
    rcases List.mem_append.mp hi with hmem | hmem
    · exact hmem
    · obtain ⟨c, hc, hci⟩ := List.mem_map.mp hmem
      simp [hcs c hc] at hci
  exact fun i j hi hj => h i j (hnone i hi) (hnone j hj)

theorem Kept.within {limit : Nat} {line within : List Owned} (h : Kept limit line)
    (hsub : within <:+: line) : Kept limit within := fun hlong =>
  (h (hlong.trans_le hsub.length_le)).of_subset hsub.subset

/-- Whatever stands on one line of a text whose lines are all kept is kept. -/
theorem Closed.kept {limit : Nat} {line cs : List Owned} (h : Closed limit line cs)
    (hlast : Kept limit (lastLine line cs)) {within : List Owned}
    (hwithin : within <:+: line ++ cs) (hbreak : ∀ c ∈ within, c.1 ≠ '\n') :
    Kept limit within := by
  induction cs generalizing line with
  | nil =>
    rw [List.append_nil] at hwithin
    exact hlast.within hwithin
  | cons c cs ih =>
    rw [Closed] at h
    rw [lastLine] at hlast
    split at h
    · next hc =>
      rw [if_pos hc] at hlast
      rcases infix_append_cons hwithin fun hmem => hbreak c hmem hc with hline | hrest
      · exact h.1.within hline
      · exact ih h.2 hlast hrest
    · next hc =>
      rw [if_neg hc] at hlast
      exact ih h hlast (by simpa using hwithin)

/-! ### Texts of one leaf or of none -/

/-- A text whose characters all belong to `owner`. -/
def ownedBy (owner : Option Nat) (t : Text) : List Owned := t.map (·, owner)

theorem map_fst_ownedBy (owner : Option Nat) (t : Text) : (ownedBy owner t).map Prod.fst = t := by
  simp [ownedBy, Function.comp_def]

/-- The characters of a line belong to the leaf `n` or to none. -/
def Only (n : Nat) (line : List Owned) : Prop := ∀ c ∈ line, c.2 = none ∨ c.2 = some n

theorem Only.oneLeaf {n : Nat} {line : List Owned} (h : Only n line) : OneLeaf line := by
  have hn (i : Nat) (hi : some i ∈ line.map Prod.snd) : i = n := by
    obtain ⟨c, hc, hci⟩ := List.mem_map.mp hi
    rcases h c hc with hnone | hsome
    · simp [hnone] at hci
    · exact Option.some.inj (hci.symm.trans hsome)
  exact fun i j hi hj => (hn i hi).trans (hn j hj).symm

theorem only_nil (n : Nat) : Only n [] := List.forall_mem_nil _

/-- Behind a line that belongs to no other leaf, a leaf is kept wherever it ends. -/
theorem closed_only (limit : Nat) {n : Nat} {line : List Owned} (h : Only n line) (t : Text) :
    Closed limit line (ownedBy (some n) t) ∧ Only n (lastLine line (ownedBy (some n) t)) := by
  induction t generalizing line with
  | nil => exact ⟨trivial, h⟩
  | cons c t ih =>
    rw [ownedBy, List.map_cons, Closed, lastLine]
    split
    · obtain ⟨hclosed, honly⟩ := ih (only_nil n)
      exact ⟨⟨fun _ => h.oneLeaf, hclosed⟩, honly⟩
    · refine ih fun d hd => ?_
      rcases List.mem_append.mp hd with hmem | hmem
      · exact h d hmem
      · exact .inr (by rw [List.mem_singleton.mp hmem])

theorem firstWidth_cons {c : Char} (hc : c ≠ '\n') (t : Text) :
    Text.firstWidth (c :: t) = Text.firstWidth t + 1 := by
  simp [Text.firstWidth, hc]

/-- Behind other leaves, a leaf is kept if its first line fits, and if its only line leaves room. -/
theorem closed_fits {limit : Nat} {reserve : Int} {line : List Owned} (n : Nat) {t : Text}
    (h : line.length + Text.firstWidth t + (if '\n' ∈ t then 0 else reserve) ≤ limit) :
    Closed limit line (ownedBy (some n) t) ∧
      Room limit reserve (lastLine line (ownedBy (some n) t)) := by
  induction t generalizing line with
  | nil =>
    refine ⟨trivial, .inr ?_⟩
    change line.length + reserve ≤ limit
    simpa [Text.firstWidth] using h
  | cons c t ih =>
    rw [ownedBy, List.map_cons, Closed, lastLine]
    split
    · next hc =>
      obtain rfl : c = '\n' := hc
      obtain ⟨hclosed, honly⟩ := closed_only limit (only_nil n) t
      have hfits : line.length ≤ limit := by
        simp [Text.firstWidth] at h
        omega
      exact ⟨⟨fun hlong => absurd hfits (by omega), hclosed⟩, .inl honly.oneLeaf⟩
    · next hc =>
      have hmem : '\n' ∈ c :: t ↔ '\n' ∈ t := by simp [Ne.symm hc]
      simp only [firstWidth_cons hc, hmem] at h
      refine ih ?_
      simp only [List.length_append, List.length_singleton]
      push_cast at h ⊢
      omega

/-- A text that fits with room behind it, as a whole. -/
theorem closed_short {limit : Nat} {reserve : Int} (hr : 0 ≤ reserve) {line cs : List Owned}
    (h : line.length + cs.length + reserve ≤ limit) :
    Closed limit line cs ∧ (lastLine line cs).length + reserve ≤ limit := by
  induction cs generalizing line with
  | nil =>
    refine ⟨trivial, ?_⟩
    change line.length + reserve ≤ limit
    simpa using h
  | cons c cs ih =>
    rw [List.length_cons] at h
    rw [Closed, lastLine]
    split
    · obtain ⟨hclosed, hlast⟩ := @ih [] (by simp; omega)
      exact ⟨⟨fun hlong => by omega, hclosed⟩, hlast⟩
    · exact ih (by simp; omega)

/-! ### Pieces -/

namespace Piece

/-- The leaf that the characters of the `n`th piece belong to. -/
def owner (n : Nat) (p : Piece) : Option Nat :=
  match p.mark with
  | .leaf _ _ => some n
  | _ => none

end Piece

/-- The characters of pieces that are numbered from `n` on. -/
def owned (n : Nat) : List Piece → List Owned
  | [] => []
  | p :: rest => ownedBy (p.owner n) p.text ++ owned (n + 1) rest

theorem owned_append (n : Nat) (ps qs : List Piece) :
    owned n (ps ++ qs) = owned n ps ++ owned (n + ps.length) qs := by
  induction ps generalizing n with
  | nil => rfl
  | cons p ps ih =>
    rw [List.cons_append, owned, owned, ih, List.append_assoc, List.length_cons,
      Nat.add_right_comm, Nat.add_assoc]

theorem map_fst_owned (n : Nat) (ps : List Piece) :
    (owned n ps).map Prod.fst = ps.flatMap Piece.text := by
  induction ps generalizing n with
  | nil => rfl
  | cons p ps ih => rw [owned, List.map_append, map_fst_ownedBy, ih, List.flatMap_cons]

theorem length_owned (n : Nat) (ps : List Piece) :
    (owned n ps).length = (ps.flatMap Piece.text).length := by
  rw [← map_fst_owned n ps, List.length_map]

/-! ### Lines that belong to no leaf -/

theorem Free.only {line : List Owned} (h : Free line) (n : Nat) : Only n line :=
  fun c hc => .inl (h c hc)

theorem Free.oneLeaf {line : List Owned} (h : Free line) : OneLeaf line := (h.only 0).oneLeaf

theorem Free.append {line more : List Owned} (h : Free line) (hmore : Free more) :
    Free (line ++ more) := List.forall_mem_append.mpr ⟨h, hmore⟩

theorem free_ownedBy (t : Text) : Free (ownedBy none t) := by
  simp [Free, ownedBy]

/-- Text without a line break goes on with the line. -/
theorem lastLine_of_no_break {line cs : List Owned} (h : ∀ c ∈ cs, c.1 ≠ '\n') :
    lastLine line cs = line ++ cs := by
  induction cs generalizing line with
  | nil => exact (List.append_nil line).symm
  | cons c cs ih =>
    obtain ⟨hc, hcs⟩ := List.forall_mem_cons.mp h
    rw [lastLine, if_neg hc, ih hcs, List.append_assoc, List.singleton_append]

theorem closed_of_no_break {limit : Nat} {line cs : List Owned} (h : ∀ c ∈ cs, c.1 ≠ '\n') :
    Closed limit line cs := by
  induction cs generalizing line with
  | nil => trivial
  | cons c cs ih =>
    obtain ⟨hc, hcs⟩ := List.forall_mem_cons.mp h
    rw [Closed, if_neg hc]
    exact ih hcs

/-- Spaces that belong to no leaf. -/
def filler (n : Nat) : List Owned := ownedBy none (Text.spaces n)

theorem no_break_filler (n : Nat) : ∀ c ∈ filler n, c.1 ≠ '\n' := by
  simp [filler, ownedBy, Text.spaces]

theorem length_filler (n : Nat) : (filler n).length = n := by
  simp [filler, ownedBy, Text.spaces]

/-! ### Writing a wrapped list -/

/-- The lines that end in the characters `cs` written behind `line` are kept, and the last line has
room for `reserve` more columns. -/
def Disciplined (limit : Nat) (reserve : Int) (line cs : List Owned) : Prop :=
  Closed limit line cs ∧ Room limit reserve (lastLine line cs)

theorem Disciplined.append {limit : Nat} {reserve : Int} {line cs ds : List Owned}
    (hcs : Closed limit line cs) (hds : Disciplined limit reserve (lastLine line cs) ds) :
    Disciplined limit reserve line (cs ++ ds) := by
  rw [Disciplined, closed_append, lastLine_append]
  exact ⟨⟨hcs, hds.1⟩, hds.2⟩

/-- A line on which the first line of `t` goes, with `reserve` columns behind its only line. -/
def Takes (limit : Nat) (reserve : Int) (line : List Owned) (t : Text) : Prop :=
  Free line ∨ line.length + Text.firstWidth t + (if '\n' ∈ t then 0 else reserve) ≤ limit

/-- What the rest of a list needs of the line that it goes on. -/
def Ready (s : Style) (closing : Int) (line : List Owned) (list : List Argument) : Place → Prop
  | .first => Takes s.columnLimit closing line (Text.unwords (inlineAll s list))
  | _ => Room s.columnLimit (if list.any isKnown then 0 else closing) line

/-- A leaf is written under the discipline where it goes. -/
theorem Takes.leaf {limit : Nat} {reserve : Int} {line : List Owned} {t : Text}
    (h : Takes limit reserve line t) (n : Nat) (a : Argument) :
    Disciplined limit reserve line (owned n [⟨.leaf a t, t⟩]) := by
  rw [owned, owned, List.append_nil, Piece.owner]
  rcases h with hfree | hfits
  · obtain ⟨hclosed, honly⟩ := closed_only limit (hfree.only n) t
    exact ⟨hclosed, .inl honly.oneLeaf⟩
  · exact closed_fits n hfits

theorem firstWidth_append (t u : Text) :
    Text.firstWidth (t ++ u) =
      if '\n' ∈ t then Text.firstWidth t else Text.firstWidth t + Text.firstWidth u := by
  induction t with
  | nil => simp [Text.firstWidth]
  | cons c t ih =>
    by_cases hc : c = '\n'
    · subst hc
      simp [Text.firstWidth]
    · have hmem : '\n' ∈ c :: t ↔ '\n' ∈ t := by simp [Ne.symm hc]
      rw [List.cons_append, firstWidth_cons hc, firstWidth_cons hc, ih, if_congr hmem rfl rfl]
      split <;> omega

/-- A group that has a place on a line leaves its list one inside its parenthesis. -/
theorem Takes.group {limit : Nat} {reserve : Int} {line : List Owned} {t : Text}
    (h : Takes limit reserve line ('(' :: (t ++ [')']))) :
    Takes limit (reserve + 1) (line ++ [('(', none)]) t := by
  rcases h with hfree | hfits
  · exact .inl (hfree.append (by simp [Free]))
  · refine .inr ?_
    have hmem : '\n' ∈ '(' :: (t ++ [')']) ↔ '\n' ∈ t := by simp
    rw [firstWidth_cons (by decide), firstWidth_append, if_congr hmem rfl rfl] at hfits
    simp only [List.length_append, List.length_singleton]
    have hparen : Text.firstWidth [')'] = 1 := rfl
    split at hfits
    · rw [if_pos ‹_›]
      push_cast at hfits ⊢
      omega
    · rw [if_neg ‹_›]
      push_cast at hfits ⊢
      omega

theorem inlineAll_cons (s : Style) {a : Argument} {text : Text} (h : inline? s a = some text)
    (rest : List Argument) : inlineAll s (a :: rest) = text :: inlineAll s rest := by
  rw [inlineAll, h]

/-- Nothing is written of a list if no argument of it is known. -/
theorem inlineAll_eq_nil_iff (s : Style) (list : List Argument) :
    inlineAll s list = [] ↔ list.any isKnown = false := by
  induction list with
  | nil => simp [inlineAll]
  | cons a rest ih => cases a <;> simp [inlineAll, inline?, isKnown, ih]

theorem not_isKnown_of_inline? {s : Style} {a : Argument} (h : inline? s a = none) :
    isKnown a = false := by
  cases a <;> first | rfl | contradiction

theorem reserve_nonneg {closing : Int} (hc : 0 ≤ closing) (rest : List Argument) :
    0 ≤ if rest.any isKnown then 0 else closing := by
  split <;> omega

/-- The first argument of a list goes where the list goes. -/
theorem Takes.first {s : Style} {closing : Int} (hc : 0 ≤ closing) {line : List Owned}
    {a : Argument} {text : Text} (ha : inline? s a = some text) {rest : List Argument}
    (h : Takes s.columnLimit closing line (Text.unwords (inlineAll s (a :: rest)))) :
    Takes s.columnLimit (if rest.any isKnown then 0 else closing) line text := by
  rw [inlineAll_cons s ha, unwords_cons] at h
  refine h.imp_right fun hfits => ?_
  cases hrest : rest.any isKnown with
  | false =>
    rw [(inlineAll_eq_nil_iff s rest).mpr hrest, List.flatMap_nil, List.append_nil] at hfits
    exact hfits
  | true =>
    rw [firstWidth_append] at hfits
    simp only [if_true, ite_self]
    split at hfits <;> split at hfits <;> omega

/-- The characters of a gap. -/
theorem owned_gap (s : Style) (column : Int) (width : Nat) (reserve hanging : Int) (place : Place)
    (n : Nat) :
    owned n (place.marks.map
        (Piece.mk · ((Gap.before s column width reserve place).text hanging))) =
      ownedBy none ((Gap.before s column width reserve place).text hanging) := by
  cases place with
  | first => rfl
  | behind => exact List.append_nil _
  | belowComment => exact List.append_nil _

theorem lastLine_breakTo (line : List Owned) (hanging : Int) :
    lastLine line (ownedBy none (breakTo hanging)) = filler hanging.toNat := by
  rw [breakTo, ownedBy, List.map_cons, lastLine, if_pos rfl]
  exact lastLine_of_no_break (no_break_filler hanging.toNat)

/-- A line break ends a line and starts one that belongs to no leaf. -/
theorem closed_breakTo {limit : Nat} {line : List Owned} (h : Kept limit line) (hanging : Int) :
    Closed limit line (ownedBy none (breakTo hanging)) ∧
      Free (lastLine line (ownedBy none (breakTo hanging))) := by
  rw [lastLine_breakTo, breakTo, ownedBy, List.map_cons, Closed, if_pos rfl]
  exact ⟨⟨h, closed_of_no_break (no_break_filler hanging.toNat)⟩, free_ownedBy _⟩

/-- A gap ends on a line on which the next argument goes. -/
theorem Ready.gap {s : Style} {closing : Int} (hc : 0 ≤ closing) (hanging : Int)
    {line : List Owned} {a : Argument} {text : Text} (ha : inline? s a = some text)
    {rest : List Argument} {place : Place} (h : Ready s closing line (a :: rest) place)
    {reserve : Int} (hr : reserve = if rest.any isKnown then 0 else closing) {gap : Gap}
    (hgap : gap = Gap.before s line.length (Text.firstWidth text) reserve place) :
    Closed s.columnLimit line (ownedBy none (gap.text hanging)) ∧
      Takes s.columnLimit reserve (lastLine line (ownedBy none (gap.text hanging))) text := by
  have hbroken (hline : Kept s.columnLimit line) :
      Closed s.columnLimit line (ownedBy none (breakTo hanging)) ∧
        Takes s.columnLimit reserve (lastLine line (ownedBy none (breakTo hanging))) text :=
    (closed_breakTo hline hanging).imp_right .inl
  have hkept (hroom : Room s.columnLimit (if (a :: rest).any isKnown then 0 else closing) line) :
      Kept s.columnLimit line := hroom.kept (reserve_nonneg hc _)
  subst hgap
  cases place with
  | first =>
    rw [hr]
    exact ⟨trivial, Takes.first hc ha h⟩
  | belowComment => exact hbroken (hkept h)
  | behind =>
    rw [Gap.before]
    split
    · exact hbroken (hkept h)
    · next hfits =>
      -- behind a text of several lines no room is asked for on this one
      have hreserve : 0 ≤ reserve := hr ▸ reserve_nonneg hc rest
      refine ⟨trivial, .inr ?_⟩
      change ((line ++ [(' ', none)]).length : Int) + _ + _ ≤ _
      rw [List.length_append, List.length_singleton]
      push_cast
      split <;> omega

/-- A gap ends in the column at which the next argument is said to start. -/
theorem length_gap {hanging : Int} (hh : 0 ≤ hanging) (line : List Owned) (gap : Gap) :
    ((lastLine line (ownedBy none (gap.text hanging))).length : Int) =
      gap.stop hanging line.length := by
  cases gap with
  | none => rfl
  | space => exact congrArg Nat.cast List.length_append
  | lineBreak =>
    rw [Gap.text, lastLine_breakTo, length_filler]
    exact Int.toNat_of_nonneg hh

theorem Ready.behind {s : Style} {closing : Int} {line : List Owned} {rest : List Argument}
    (h : Room s.columnLimit (if rest.any isKnown then 0 else closing) line) {a : Argument} :
    Ready s closing line rest (placeBehind a) := by
  unfold placeBehind
  split <;> exact h

/-- Parentheses around a list that leaves room for the closing one. -/
theorem Disciplined.parenthesised {limit : Nat} {reserve : Int} {line cs : List Owned}
    (h : Disciplined limit (reserve + 1) (line ++ [('(', none)]) cs) :
    Disciplined limit reserve line (('(', none) :: (cs ++ [(')', none)])) := by
  change Disciplined limit reserve line ([('(', none)] ++ (cs ++ [(')', none)]))
  refine Disciplined.append trivial (Disciplined.append h.1 ⟨trivial, ?_⟩)
  change Room limit reserve (lastLine (line ++ [('(', none)]) cs ++ [(')', none)])
  refine h.2.imp (·.append_free (by simp [Free])) fun hfits => ?_
  rw [List.length_append, List.length_singleton]
  push_cast
  omega

theorem owned_group (n : Nat) (ps : List Piece) :
    owned n (.ofMark .opening :: (ps ++ [.ofMark .closing])) =
      ('(', none) :: (owned (n + 1) ps ++ [(')', none)]) := by
  rw [owned, owned_append]
  rfl

theorem continuationColumn_nonneg (s : Style) {column indent : Int} (hcolumn : 0 ≤ column)
    (hindent : 0 ≤ indent) : 0 ≤ continuationColumn s column indent := by
  unfold continuationColumn
  split <;> omega

mutual

/-- An argument is written under the discipline where it has a place. -/
theorem disciplined_piecesOf (s : Style) :
    ∀ (a : Argument) (hanging reserve : Int) (text : Text) (n : Nat) (line : List Owned),
      inline? s a = some text → 0 ≤ hanging → 0 ≤ reserve → Takes s.columnLimit reserve line text →
      Disciplined s.columnLimit reserve line
        (owned n (piecesOf s line.length hanging reserve text a))
  | .unquoted _, _, _, _, n, _, _, _, _, h | .quoted _, _, _, _, n, _, _, _, _, h
  | .bracket _ _ _, _, _, _, n, _, _, _, _, h | .lineComment _ _, _, _, _, n, _, _, _, _, h
  | .bracketComment _ _ _, _, _, _, n, _, _, _, _, h => h.leaf n _
  | .group arguments, hanging, reserve, text, n, line, ha, hh, hr, h => by
    rw [piecesOf]
    split
    · obtain rfl : '(' :: (Text.unwords (inlineAll s arguments) ++ [')']) = text :=
        Option.some.inj ha
      have hcolumn : ((line ++ [('(', none)]).length : Int) = line.length + 1 := by simp
      have hinner := disciplined_piecesFrom s arguments
        (continuationColumn s (line.length + 1) hanging) (reserve + 1) .first (n + 1)
        (line ++ [('(', none)])
        (continuationColumn_nonneg s (by omega) hh) (by omega) h.group
      rw [hcolumn] at hinner
      rw [owned_group]
      exact hinner.parenthesised
    · next hfit =>
      generalize hcs : owned n ((marksOf s text (.group arguments)).map .ofMark) = cs
      have hlength : cs.length = text.length := by
        rw [← hcs, length_owned, flatMap_text_ofMark, inline_marksOf s _ text ha]
      have hfits : line.length + cs.length + reserve ≤ s.columnLimit := by
        simp only [Bool.or_eq_true, decide_eq_true_eq, not_or] at hfit
        omega
      obtain ⟨hclosed, hroom⟩ := closed_short hr hfits
      exact ⟨hclosed, .inr hroom⟩

/-- The rest of a list is written under the discipline on a line that is ready for it. -/
theorem disciplined_piecesFrom (s : Style) :
    ∀ (list : List Argument) (hanging closing : Int) (place : Place) (n : Nat) (line : List Owned),
      0 ≤ hanging → 0 ≤ closing → Ready s closing line list place →
      Disciplined s.columnLimit closing line
        (owned n (piecesFrom s hanging closing line.length place list))
  | [], hanging, closing, place, n, line, hh, hc, h => by
    rw [piecesFrom]
    cases place with
    | first =>
      refine ⟨trivial, h.imp Free.oneLeaf fun hfits => ?_⟩
      change line.length + closing ≤ s.columnLimit
      simpa [inlineAll, Text.unwords, Text.join, Text.firstWidth] using hfits
    | behind => exact ⟨trivial, h⟩
    | belowComment =>
      rw [if_pos rfl, owned, owned, List.append_nil]
      exact (closed_breakTo (Room.kept h hc) hanging).imp_right fun hfree => .inl hfree.oneLeaf
  | a :: rest, hanging, closing, place, n, line, hh, hc, h => by
    cases ha : inline? s a with
    | none =>
      rw [piecesFrom, ha]
      refine disciplined_piecesFrom s rest hanging closing place n line hh hc ?_
      cases place <;> simpa [Ready, inlineAll, ha, not_isKnown_of_inline? ha] using h
    | some text =>
      simp only [piecesFrom, ha, owned_append, owned_gap]
      generalize hr : (if rest.any isKnown then (0 : Int) else closing) = reserve
      generalize hgap : Gap.before s line.length (Text.firstWidth text) reserve place = gap
      obtain ⟨hclosed, htakes⟩ := h.gap hc hanging ha hr.symm hgap.symm
      have hreserve : 0 ≤ reserve := hr ▸ reserve_nonneg hc rest
      have hone := Disciplined.append hclosed (disciplined_piecesOf s a hanging reserve text
        (n + (place.marks.map (Piece.mk · (gap.text hanging))).length) _ ha hh hreserve htakes)
      rw [length_gap hh] at hone
      obtain ⟨hdone, hroom⟩ := hone
      refine Disciplined.append hdone ?_
      -- the column that is counted is the width of the line that is written
      generalize hline : lastLine line _ = behind at hroom ⊢
      have hlength : endColumn (wrapOne s (gap.stop hanging line.length) hanging reserve text a)
          (gap.stop hanging line.length) = behind.length := by
        rw [← hline, lastLine_append, length_lastLine, map_fst_owned, text_piecesOf s a _ _ _ _ ha,
          length_gap hh]
      rw [hlength]
      refine disciplined_piecesFrom s rest hanging closing (placeBehind a) _ behind hh hc ?_
      rw [← hr] at hroom
      exact .behind hroom

end

/-! ### Long lines -/

/-- Where a list does not fit on one line, or where it holds a line comment, every line of the list
that is longer than the column limit holds characters of one argument at most that is no group. The
line counts whole: with the `column` columns before the list and the `closing` columns behind it. -/
theorem long_lines_hold_one_leaf (s : Style) (column hanging closing : Nat) (list : List Argument)
    (h : s.columnLimit < (Text.unwords (inlineAll s list)).length ∨ anyLineComment list = true) :
    ∃ ps : List Piece, ps.map Piece.mark = marksFrom s .first list ∧ (∀ p ∈ ps, p.Written) ∧
      ps.flatMap Piece.text = arguments s column hanging closing list ∧
      ∀ within, within <:+: filler column ++ owned 0 ps ++ filler closing →
        (∀ c ∈ within, c.1 ≠ '\n') → Kept s.columnLimit within := by
  refine ⟨pieces s column hanging closing list, mark_pieces .., written_pieces s _ _ _ list,
    text_pieces .., fun within hwithin hbreak => ?_⟩
  have hwrapped : pieces s column hanging closing list =
      piecesFrom s hanging closing (filler column).length .first list := by
    rw [pieces, if_neg (by rcases h with h | h <;> simp [h, Nat.not_le.mpr]), length_filler]
  have hline := disciplined_piecesFrom s list hanging closing .first 0 (filler column)
    (Int.natCast_nonneg _) (Int.natCast_nonneg _) (.inl (free_ownedBy _))
  rw [hwrapped, List.append_assoc] at hwithin
  refine Closed.kept ((closed_append ..).mpr
    ⟨hline.1, closed_of_no_break (no_break_filler closing)⟩) ?_ hwithin hbreak
  rw [lastLine_append, lastLine_of_no_break (no_break_filler closing)]
  have hroom := hline.2
  generalize lastLine (filler column) _ = line at hroom ⊢
  have hfilled : Room s.columnLimit 0 (line ++ filler closing) := by
    refine hroom.imp (·.append_free (free_ownedBy _)) fun hfits => ?_
    rw [List.length_append, length_filler]
    push_cast
    omega
  exact hfilled.kept (Int.le_refl 0)

/-- The one long line belongs to the literal, whose group is broken open for it. -/
theorem long_lines_hold_one_leaf_in_group :
    12 < (Text.unwords (inlineAll { columnLimit := 12 } [.unquoted ['a'], .group [.unquoted ['b'],
      .group [.quoted "long literal\nx".toList]], .lineComment ['c'] none])).length ∧
    ∃ ps : List Piece, ps.flatMap Piece.text =
        "a\n    (b\n     (\"long literal\nx\")) # c\n    ".toList ∧
      ∀ within, within <:+: filler 4 ++ owned 0 ps ++ filler 1 → (∀ c ∈ within, c.1 ≠ '\n') →
        Kept 12 within := by
  have hlong : 12 < (Text.unwords (inlineAll { columnLimit := 12 } [.unquoted ['a'],
      .group [.unquoted ['b'], .group [.quoted "long literal\nx".toList]],
      .lineComment ['c'] none])).length := by decide
  obtain ⟨ps, -, -, htext, hkept⟩ :=
    long_lines_hold_one_leaf { columnLimit := 12 } 4 4 1 _ (.inl hlong)
  exact ⟨hlong, ps, htext.trans (by decide +kernel), hkept⟩

end Listfile.Layout
