import Listfile.Proofs.Settle

/-! Settled rows. Settling keeps all rows but line breaks, and what it does is
told by the kinds of the rows alone. Rows that are settled stay as they are when
they are settled again: the line breaks that were put in are those that would be
put in, and none of those that were kept is dropped. The one thing that the
second round may see differently is that comments stand next to each other
between which a line break was dropped; but such a line break is dropped only
where no blank lines are allowed, and there it makes no difference whether room
is asked for (`wantStatement_of_allowed_zero`). -/

namespace Listfile.Layout

/-! ### What stays -/

theorem filter_settle (s : Style) (σ : Pace) (rows : List Row) :
    (settle s σ rows).filter (!·.isLineBreak) = rows.filter (!·.isLineBreak) := by
  induction rows generalizing σ with
  | nil => rfl
  | cons r rest ih =>
    rw [settle]
    split
    · next h => simp_all
    · have hbreaks : (List.replicate (σ.want s rest r - σ.breaks) Row.lineBreak).filter
          (!·.isLineBreak) = [] := by
        simp [Row.isLineBreak]
      rw [List.filter_append, hbreaks, List.nil_append, List.filter_cons, List.filter_cons, ih]

theorem mem_of_mem_settle {s : Style} {σ : Pace} {rows : List Row} {r : Row}
    (h : r ∈ settle s σ rows) : r = .lineBreak ∨ r ∈ rows := by
  cases hr : r.isLineBreak with
  | true => cases r <;> simp_all [Row.isLineBreak]
  | false =>
    have hmem : r ∈ (settle s σ rows).filter (!·.isLineBreak) := by simp [h, hr]
    rw [filter_settle] at hmem
    exact .inr (List.mem_filter.mp hmem).1

/-! ### Kinds of rows -/

theorem isOwn_plain (f : Text → Text) (r : Row) : isOwn (r.plain f) = isOwn r := by
  cases r <;> rfl

theorem opensSpaced_plain (s : Style) (f : Text → Text) (r : Row) :
    opensSpaced s (r.plain f) = opensSpaced s r := by
  cases r with
  | call role name list =>
    obtain _ | k := role
    · rfl
    · cases k <;> rfl
  | _ => rfl

/-- Looking ahead sees of a row whether it is a comment and whether it opens a block. -/
theorem leads_map {s : Style} {f : Row → Row} (hown : ∀ r, isOwn (f r) = isOwn r)
    (hopen : ∀ r, opensSpaced s (f r) = opensSpaced s r) (rows : List Row) :
    leads s (rows.map f) = leads s rows := by
  induction rows with
  | nil => rfl
  | cons r rest ih =>
    rw [List.map_cons]
    cases h : isOwn r with
    | true => rw [leads_of_own h, leads_of_own (by rw [hown, h]), ih]
    | false => rw [leads_of_not_own h, leads_of_not_own (by rw [hown, h]), hopen]

theorem leads_map_plain (s : Style) (f : Text → Text) (rows : List Row) :
    leads s (rows.map (Row.plain f)) = leads s rows :=
  leads_map (isOwn_plain f) (opensSpaced_plain s f) rows

theorem want_plain (s : Style) (f : Text → Text) (σ : Pace) (rest : List Row) (r : Row) :
    σ.want s (rest.map (Row.plain f)) (r.plain f) = σ.want s rest r := by
  have hleads := leads_map_plain s f (r :: rest)
  rw [List.map_cons] at hleads
  cases r with
  | lineComment text trailing => cases trailing <;> simp_all [Row.plain, Pace.want]
  | bracketComment text fence trailing => cases trailing <;> simp_all [Row.plain, Pace.want]
  | call role name list =>
    obtain _ | k := role
    · simp_all [Row.plain, Pace.want]
    · cases k <;> simp_all [Row.plain, Pace.want]
  | _ => simp_all [Row.plain, Pace.want]

theorem behind_plain (s : Style) (f : Text → Text) (σ : Pace) (r : Row) :
    σ.behind s (r.plain f) = σ.behind s r := by
  cases r with
  | call role name list =>
    obtain _ | k := role
    · rfl
    · cases k <;> rfl
  | _ => rfl

/-- Settling does not look at the texts of comments and at arguments. -/
theorem settle_map_plain (s : Style) (f : Text → Text) (σ : Pace) (rows : List Row) :
    settle s σ (rows.map (Row.plain f)) = (settle s σ rows).map (Row.plain f) := by
  induction rows generalizing σ with
  | nil => rfl
  | cons r rest ih =>
    simp only [List.map_cons, settle, Row.isLineBreak_plain, want_plain, behind_plain, ih]
    split
    · rfl
    · simp [Row.plain]

/-! ### Settled rows stay -/

/-- Behind `k` line breaks. -/
def Pace.broken (k : Nat) (σ : Pace) : Pace :=
  if k = 0 then σ else { σ with breaks := σ.breaks + k, fresh := false, own := false }

/-- A comment on a line of its own ends with a line break. -/
def Pace.Sound (σ : Pace) : Prop := σ.own = true → σ.breaks = 1

/-- The states of the second and of the first round. -/
def Pace.Alike (s : Style) (ρ σ : Pace) : Prop :=
  ρ = { σ with own := ρ.own } ∧ (ρ.own = σ.own ∨ s.allowedBlankLines = 0)

theorem Pace.broken_succ (s : Style) (k : Nat) (σ : Pace) :
    (σ.behind s .lineBreak).broken k = σ.broken (k + 1) := by
  cases k with
  | zero => rfl
  | succ k => simp [Pace.broken, Pace.behind, Nat.add_comm, Nat.add_left_comm]

theorem sound_behind (s : Style) (σ : Pace) (r : Row) : (σ.behind s r).Sound := by
  intro h
  rw [own_behind] at h
  cases r with
  | lineComment text trailing =>
    simp only [Pace.behind, Pace.behindComment]
    split <;> rfl
  | _ => simp [isOwn] at h

theorem settle_replicate (s : Style) {k : Nat} {σ : Pace}
    (h : 0 < k → σ.breaks + k ≤ s.allowedBlankLines + 1) (rows : List Row) :
    settle s σ (List.replicate k .lineBreak ++ rows) =
      List.replicate k .lineBreak ++ settle s (σ.broken k) rows := by
  induction k generalizing σ with
  | zero => simp [Pace.broken]
  | succ k ih =>
    have hle := h (Nat.succ_pos k)
    have hkeep : ¬ s.allowedBlankLines < σ.breaks := by omega
    have hbreaks : 0 < k → (σ.behind s .lineBreak).breaks + k ≤ s.allowedBlankLines + 1 := by
      simp only [Pace.behind]
      omega
    rw [List.replicate_succ, List.cons_append, settle]
    simp only [Row.isLineBreak, Bool.true_and, decide_eq_true_eq, hkeep, if_false, Pace.want,
      Nat.zero_sub, List.replicate_zero, List.nil_append, ih hbreaks, List.cons_append,
      Pace.broken_succ s]

theorem wantStatement_le (s : Style) (heads : Bool) (σ : Pace) :
    σ.wantStatement s heads ≤ s.allowedBlankLines + 1 := by
  unfold Pace.wantStatement blankGap
  split
  · omega
  · split <;> omega

theorem want_le (s : Style) (rest : List Row) (σ : Pace) (r : Row) :
    σ.want s rest r ≤ s.allowedBlankLines + 1 := by
  have hs := fun heads => wantStatement_le s heads σ
  unfold Pace.want
  split <;> (try split) <;> first | exact hs _ | omega

/-- Where no blank line is allowed, only the start of a line is asked for. -/
theorem wantStatement_of_allowed_zero {s : Style} (h : s.allowedBlankLines = 0) (heads : Bool)
    (σ : Pace) : σ.wantStatement s heads = if σ.fresh then 0 else 1 := by
  simp [Pace.wantStatement, blankGap, h]

/-- The state behind a comment on a line of its own. -/
def Pace.belowOwn : Pace := ⟨1, false, false, false, true⟩

theorem behind_of_own {r : Row} (h : isOwn r = true) (s : Style) (σ : Pace) :
    σ.behind s r = .belowOwn := by
  cases r with
  | lineComment text trailing =>
    obtain rfl : trailing = false := by simpa [isOwn] using h
    rfl
  | _ => simp [isOwn] at h

/-- Below a comment on its own line a line is started and no more is asked for. -/
theorem want_belowOwn (s : Style) (rest : List Row) (r : Row) :
    Pace.belowOwn.want s rest r ≤ 1 := by
  unfold Pace.want
  split <;> simp [Pace.belowOwn, Pace.wantStatement, Pace.atStart]

/-- Where blank lines are allowed, rows lead up to a block after settling as they do before. -/
theorem leads_settle {s : Style} (h : 0 < s.allowedBlankLines) (rows : List Row) :
    leads s (settle s .belowOwn rows) = leads s rows := by
  induction rows with
  | nil => rfl
  | cons r rest ih =>
    have hkeep : ¬ s.allowedBlankLines < Pace.belowOwn.breaks := by
      simp only [Pace.belowOwn]
      omega
    have hwant : Pace.belowOwn.want s rest r - Pace.belowOwn.breaks = 0 :=
      Nat.sub_eq_zero_of_le (want_belowOwn s rest r)
    rw [settle, if_neg (by simp [hkeep]), hwant, List.replicate_zero, List.nil_append]
    cases hr : isOwn r with
    | true => rw [leads_of_own hr, leads_of_own hr, behind_of_own hr, ih]
    | false => rw [leads_of_not_own hr, leads_of_not_own hr]

/-- In the second round a statement asks for no more line breaks than there are. -/
theorem wantStatement_broken {s : Style} {ρ σ : Pace} (hρ : ρ.Alike s σ) (hσ : σ.Sound)
    {heads heads' : Bool} (hheads : heads' = heads ∨ s.allowedBlankLines = 0) {k : Nat}
    (hk : k = σ.wantStatement s heads - σ.breaks) :
    (ρ.broken k).wantStatement s heads' ≤ (ρ.broken k).breaks := by
  obtain ⟨hρ, hown⟩ := hρ
  obtain ⟨breaks, fresh, due, blockStart, own⟩ := σ
  rw [hρ]
  generalize ρ.own = own' at hown
  by_cases hzero : s.allowedBlankLines = 0
  · rw [wantStatement_of_allowed_zero hzero] at hk ⊢
    unfold Pace.broken
    cases fresh <;> split <;> simp_all <;> omega
  · obtain rfl := hown.resolve_right hzero
    obtain rfl := hheads.resolve_right hzero
    by_cases hk0 : k = 0
    · rw [Pace.broken, if_pos hk0]
      exact Nat.sub_eq_zero_iff_le.mp (hk ▸ hk0)
    · -- the last row was no own comment, since a line break was missing
      have hfresh : fresh = false := by
        cases fresh with
        | true => simp [Pace.wantStatement_of_fresh] at hk; contradiction
        | false => rfl
      simp only [Pace.broken, hk0, if_false]
      simp only [Pace.Sound, Pace.wantStatement, hfresh] at hσ hk ⊢
      cases blockStart <;> cases due <;> cases own' <;> cases heads' <;> simp_all <;> omega

theorem leads_cons_settle (s : Style) (σ : Pace) (r : Row) (rest : List Row) :
    leads s (r :: settle s (σ.behind s r) rest) = leads s (r :: rest) ∨
      s.allowedBlankLines = 0 := by
  cases hr : isOwn r with
  | true =>
    rw [leads_of_own hr, leads_of_own hr, behind_of_own hr]
    rcases Nat.eq_zero_or_pos s.allowedBlankLines with h | h
    · exact .inr h
    · exact .inl (leads_settle h rest)
  | false => exact .inl (by rw [leads_of_not_own hr, leads_of_not_own hr])

theorem Pace.atStart_broken (k : Nat) (σ : Pace) :
    (σ.broken k).atStart = (σ.atStart || decide (0 < k)) := by
  unfold Pace.broken
  split
  · next h => simp [h]
  · next h =>
    have hpos : 0 < σ.breaks + k := by omega
    simp [Pace.atStart, hpos, Nat.pos_of_ne_zero h]

theorem Pace.Alike.atStart {s : Style} {ρ σ : Pace} (h : ρ.Alike s σ) : ρ.atStart = σ.atStart := by
  rw [h.1]
  rfl

/-- In the second round a row asks for no more line breaks than there are. -/
theorem want_broken {s : Style} {ρ σ : Pace} (hρ : ρ.Alike s σ) (hσ : σ.Sound) (r : Row)
    (rest : List Row) {k : Nat} (hk : k = σ.want s rest r - σ.breaks) :
    (ρ.broken k).want s (settle s (σ.behind s r) rest) r ≤ (ρ.broken k).breaks := by
  have hheads := leads_cons_settle s σ r rest
  have htrailing (heq : σ.want s rest r = if σ.atStart then σ.wantStatement s false else 0) :
      (if (ρ.broken k).atStart then (ρ.broken k).wantStatement s false else 0) ≤
        (ρ.broken k).breaks := by
    cases hs : σ.atStart with
    | true =>
      rw [Pace.atStart_broken, hρ.atStart, hs]
      exact wantStatement_broken hρ hσ (.inl rfl) (by rw [hk, heq, hs, if_pos rfl])
    | false =>
      obtain rfl : k = 0 := by rw [hk, heq, hs]; exact Nat.zero_sub _
      rw [Pace.atStart_broken, hρ.atStart, hs]
      exact Nat.zero_le _
  have hline (heq : σ.want s rest r = if σ.fresh then 0 else 1) :
      (if (ρ.broken k).fresh then 0 else 1) ≤ (ρ.broken k).breaks := by
    by_cases hk0 : k = 0
    · have hle := Nat.sub_eq_zero_iff_le.mp (hk ▸ hk0)
      rw [Pace.broken, if_pos hk0, hρ.1]
      exact heq ▸ hle
    · rw [Pace.broken, if_neg hk0]
      exact Nat.le_trans (Nat.one_le_iff_ne_zero.mpr hk0) (Nat.le_add_left _ _)
  cases r with
  | lineBreak => exact Nat.zero_le _
  | unknown => exact Nat.zero_le _
  | lineComment text trailing =>
    cases trailing with
    | false => exact wantStatement_broken hρ hσ hheads hk
    | true => exact htrailing rfl
  | bracketComment text fence trailing =>
    cases trailing with
    | false => exact wantStatement_broken hρ hσ hheads hk
    | true => exact htrailing rfl
  | bracket text fence => exact wantStatement_broken hρ hσ hheads hk
  | call role name list =>
    obtain _ | block | divider | block := role
    · exact wantStatement_broken hρ hσ hheads hk
    · exact wantStatement_broken hρ hσ hheads hk
    · exact hline rfl
    · exact hline rfl

/-- The state behind a row is the same in both rounds. -/
theorem behind_broken {s : Style} {ρ σ : Pace} (hρ : ρ.Alike s σ) {r : Row} (rest : List Row)
    {k : Nat} (hk : k = σ.want s rest r - σ.breaks) : (ρ.broken k).behind s r = σ.behind s r := by
  have hcomment (breaks : Nat) (trailing own : Bool)
      (h : trailing = true → σ.atStart = false → k = 0) :
      (ρ.broken k).behindComment breaks trailing own = σ.behindComment breaks trailing own := by
    cases trailing with
    | false => rfl
    | true =>
      cases hs : σ.atStart with
      | true => simp [Pace.behindComment, Pace.atStart_broken, hρ.atStart, hs]
      | false =>
        rw [h rfl hs, Pace.broken, if_pos rfl, hρ.1]
        rfl
  cases r with
  | lineBreak =>
    obtain rfl : k = 0 := hk.trans (Nat.zero_sub _)
    rw [Pace.broken, if_pos rfl, hρ.1]
    rfl
  | unknown =>
    obtain rfl : k = 0 := hk.trans (Nat.zero_sub _)
    rw [Pace.broken, if_pos rfl, hρ.1]
    rfl
  | lineComment text trailing =>
    refine hcomment 1 trailing _ ?_
    rintro rfl hs
    simpa [Pace.want, hs] using hk
  | bracketComment text fence trailing =>
    refine hcomment 0 trailing false ?_
    rintro rfl hs
    simpa [Pace.want, hs] using hk
  | bracket text fence => rfl
  | call role name list =>
    obtain _ | block | divider | block := role <;> rfl

theorem settle_settle_of_alike {s : Style} {ρ σ : Pace} (hρ : ρ.Alike s σ) (hσ : σ.Sound)
    (rows : List Row) : settle s ρ (settle s σ rows) = settle s σ rows := by
  induction rows generalizing ρ σ with
  | nil => rfl
  | cons r rest ih =>
    rw [settle]
    split
    · next hdrop =>
      -- a line break is refused behind an own comment only if no blank line is allowed
      obtain ⟨-, hb⟩ : r.isLineBreak = true ∧ s.allowedBlankLines < σ.breaks := by
        simpa using hdrop
      refine ih ⟨hρ.1, ?_⟩ (fun h => Bool.noConfusion h)
      cases hown : σ.own with
      | true =>
        have := hσ hown
        exact .inr (by omega)
      | false => exact hown ▸ hρ.2
    · next hkeep =>
      generalize hk : σ.want s rest r - σ.breaks = k
      have hbreaks : ρ.breaks = σ.breaks := by rw [hρ.1]
      have hle : 0 < k → ρ.breaks + k ≤ s.allowedBlankLines + 1 := by
        have := want_le s rest σ r
        omega
      have hwant := want_broken hρ hσ r rest hk.symm
      have hkeep' : ¬ (r.isLineBreak && decide (s.allowedBlankLines < (ρ.broken k).breaks)) := by
        cases r with
        | lineBreak =>
          obtain rfl : 0 = k := (Nat.zero_sub _).symm.trans hk
          rwa [Pace.broken, if_pos rfl, hbreaks]
        | _ => simp [Row.isLineBreak]
      rw [settle_replicate s hle, settle, if_neg hkeep', Nat.sub_eq_zero_of_le hwant,
        List.replicate_zero, List.nil_append, behind_broken hρ rest hk.symm,
        ih ⟨rfl, .inl rfl⟩ (sound_behind s σ r)]

/-- Settled rows are not changed by settling them again. -/
theorem settle_settle (s : Style) (rows : List Row) :
    settle s .start (settle s .start rows) = settle s .start rows :=
  settle_settle_of_alike ⟨rfl, .inl rfl⟩ (by simp [Pace.Sound, Pace.start]) rows

/-! ### Comments that trail -/

/-- Whether a comment trails. -/
def trailing? : Row → Option Bool
  | .lineComment _ trailing => some trailing
  | .bracketComment _ _ trailing => some trailing
  | _ => none

/-- Comments trail exactly if they do not start a line; `b` says whether a line starts here. -/
def Anchored : Bool → List Row → Prop
  | _, [] => True
  | b, r :: rest =>
    (∀ trailing ∈ trailing? r, trailing = !b) ∧ Anchored (lineStartBehind b r) rest

theorem anchored_replicate (k : Nat) (b : Bool) (rows : List Row) :
    Anchored b (List.replicate k .lineBreak ++ rows) ↔ Anchored (b || decide (0 < k)) rows := by
  induction k generalizing b with
  | zero => simp
  | succ k ih => simp [List.replicate_succ, Anchored, trailing?, lineStartBehind, ih]

/-- A comment that is not written behind something else starts a line. -/
theorem trailing_want {s : Style} {σ : Pace} {r : Row} {trailing b : Bool}
    (h : trailing? r = some trailing) (hr : trailing = !b) (hb : b = false → σ.atStart = false)
    (rest : List Row) : trailing = !(σ.atStart || decide (0 < σ.want s rest r - σ.breaks)) := by
  subst hr
  cases b with
  | false =>
    have hs := hb rfl
    cases r <;> simp_all [trailing?, Pace.want]
  | true =>
    rw [← Pace.atStart_advance_eq, Pace.atStart_advance]
    intro hf
    cases r <;> simp_all [trailing?, Pace.want, Pace.wantStatement_pos]

/-- Comments that trail still do once the rows are settled, and no others do. -/
theorem anchored_settle {s : Style} {rows : List Row} {b : Bool} {σ : Pace} (h : Anchored b rows)
    (hb : b = false → σ.atStart = false) : Anchored σ.atStart (settle s σ rows) := by
  induction rows generalizing b σ with
  | nil => trivial
  | cons r rest ih =>
    obtain ⟨hr, hrest⟩ := h
    rw [settle]
    split
    · next hdrop =>
      have hline : r.isLineBreak = true := by simp_all
      obtain rfl : r = .lineBreak := by cases r <;> simp_all [Row.isLineBreak]
      exact @ih _ { σ with own := false } hrest (fun h => Bool.noConfusion h)
    · rw [anchored_replicate]
      refine ⟨fun trailing ht => trailing_want ht (hr trailing ht) hb rest, ?_⟩
      rw [← atStart_behind]
      refine ih hrest fun hfalse => ?_
      rw [atStart_behind s σ rest]
      cases r with
      | unknown => simp [lineStartBehind, Pace.want, hb hfalse]
      | _ => simp_all [lineStartBehind]

end Listfile.Layout
