import Listfile.Proofs.Blocks
import Listfile.Proofs.Lossless

/-! Where reports come from, and their order. Reading reports on single tokens
and on whole commands, and a command reaches from its name to its closing
parenthesis or to the end of the source. So what holds of the spans of tokens and
of all that reaches from one of them to another holds of the span of every report
(`reports_read`). The reports of a source are in the order of their starts,
and reports that start at the same offset keep their order, which together leave
only one list (`eq_of_filter_start`). -/

namespace Listfile

open Token

namespace Parse

/-! ### Reports on tokens -/

theorem mem_enclosed_faults {lines : LineIndex} {stop : Span} {group : OpenGroup}
    {outer : List OpenGroup} {tokens : List Token} {d : Diagnostic}
    (h : d ∈ (enclosed lines stop group outer tokens).faults) :
    ∃ t ∈ (group :: outer).map (·.paren) ++ tokens, d = unterminated t := by
  fun_induction enclosed lines stop group outer tokens with
  | case1 group outer =>
    obtain ⟨g, hg, rfl⟩ := List.mem_map.mp h
    exact ⟨g.paren, List.mem_append_left _ (List.mem_map_of_mem hg), rfl⟩
  | case2 => simp at h
  | case3 group t rest _ next outer ih =>
    obtain ⟨u, hu, rfl⟩ := ih h
    exact ⟨u, by grind, rfl⟩
  | case4 group outer t rest _ ih =>
    obtain ⟨u, hu, rfl⟩ := ih h
    exact ⟨u, by grind, rfl⟩
  | case5 group outer t rest _ _ _ _ ih =>
    obtain ⟨u, hu, rfl⟩ := ih h
    exact ⟨u, by grind, rfl⟩
  | case6 group outer t rest _ _ _ ih =>
    obtain ⟨u, hu, rfl⟩ := ih h
    exact ⟨u, by grind, rfl⟩

/-- An argument list ends at a token, or with the source. -/
theorem enclosed_stop (lines : LineIndex) (stop : Span) (group : OpenGroup)
    (outer : List OpenGroup) (tokens : List Token) :
    (enclosed lines stop group outer tokens).stop = stop ∨
      ∃ t ∈ tokens, (enclosed lines stop group outer tokens).stop = t.span := by
  have hmore {t : Token} {rest : List Token} {e : Enclosed}
      (ih : e.stop = stop ∨ ∃ u ∈ rest, e.stop = u.span) :
      e.stop = stop ∨ ∃ u ∈ t :: rest, e.stop = u.span := by
    obtain hstop | ⟨u, hu, hstop⟩ := ih
    · exact .inl hstop
    · exact .inr ⟨u, .tail _ hu, hstop⟩
  fun_induction enclosed lines stop group outer tokens with
  | case1 => exact .inl rfl
  | case2 group t rest => exact .inr ⟨t, List.mem_cons_self .., rfl⟩
  | case3 _ _ _ _ _ _ ih => exact hmore ih
  | case4 _ _ _ _ _ ih => exact hmore ih
  | case5 _ _ _ _ _ _ _ _ ih => exact hmore ih
  | case6 _ _ _ _ _ _ _ ih => exact hmore ih

theorem mem_skipLine_faults {opened tokens : List Token} {d : Diagnostic}
    (h : d ∈ (skipLine opened tokens).2) : ∃ t ∈ opened ++ tokens, d = unterminated t := by
  fun_induction skipLine opened tokens with
  | case1 opened =>
    obtain ⟨t, ht, rfl⟩ := List.mem_map.mp h
    exact ⟨t, List.mem_append_left _ ht, rfl⟩
  | case2 => simp at h
  | case3 opened t rest _ _ ih =>
    obtain ⟨u, hu, rfl⟩ := ih h
    exact ⟨u, by grind, rfl⟩
  | case4 opened t rest _ ih =>
    obtain ⟨u, hu, rfl⟩ := ih h
    exact ⟨u, by grind, rfl⟩
  | case5 opened t rest _ ih =>
    obtain ⟨u, hu, rfl⟩ := ih h
    refine ⟨u, ?_, rfl⟩
    rcases List.mem_append.mp hu with hu | hu
    · exact List.mem_append_left _ (List.mem_of_mem_tail hu)
    · exact List.mem_append_right _ (.tail _ hu)
  | case6 opened t rest _ _ _ ih =>
    obtain ⟨u, hu, rfl⟩ := ih h
    exact ⟨u, by grind, rfl⟩

theorem span_of_mem_skip_faults {fault d : Diagnostic} {tokens : List Token}
    (h : d ∈ (Step.skip fault tokens).faults) : d = fault ∨ ∃ u ∈ tokens, d.span = u.span := by
  have hcons : d ∈ fault :: (skipLine [] tokens).2 := h
  rcases List.mem_cons.mp hcons with rfl | hmem
  · exact .inl rfl
  · obtain ⟨u, hu, rfl⟩ := mem_skipLine_faults hmem
    exact .inr ⟨u, hu, rfl⟩

section Step
variable {lines : LineIndex} {stop : Span} {t : Token} {rest : List Token}

theorem span_of_mem_commandStep_faults {d : Diagnostic}
    (h : d ∈ (commandStep lines stop t rest).faults) : ∃ u ∈ t :: rest, d.span = u.span := by
  have hskip {fault : Diagnostic} (hfault : fault.span = t.span)
      (h : d ∈ (Step.skip fault rest).faults) : ∃ u ∈ t :: rest, d.span = u.span := by
    rcases span_of_mem_skip_faults h with rfl | ⟨u, hu, hspan⟩
    · exact ⟨t, List.mem_cons_self .., hfault⟩
    · exact ⟨u, .tail _ hu, hspan⟩
  unfold commandStep at h
  split at h
  · split at h
    · exact hskip rfl h
    · next p inner =>
      split at h
      · obtain ⟨u, hu, rfl⟩ := mem_enclosed_faults h
        exact ⟨u, List.mem_cons_of_mem _ hu, rfl⟩
      · exact hskip rfl h
  · exact hskip rfl h

/-- Every report on an item is one on a token of the item. -/
theorem span_of_mem_step_faults {d : Diagnostic} (h : d ∈ (step lines stop t rest).faults) :
    ∃ u ∈ t :: rest, d.span = u.span := by
  unfold step at h
  split at h
  · simp at h
  · simp at h
  · simp at h
  · exact span_of_mem_commandStep_faults h
  · rcases span_of_mem_skip_faults h with rfl | hmem
    · exact ⟨t, List.mem_cons_self .., rfl⟩
    · exact hmem

/-- A command reaches from its name to a token behind it, or to the end of the source. -/
theorem span_of_step_command {c : Command} (h : (step lines stop t rest).content = .command c) :
    c.span = t.span.cover stop ∨ ∃ u ∈ rest, c.span = t.span.cover u.span := by
  unfold step at h
  split at h
  · simp at h
  · simp [lineComment] at h
  · simp [bracketComment] at h
  · unfold commandStep at h
    split at h
    · split at h
      · simp [Step.skip] at h
      · next p inner =>
        split at h
        · cases h
          rcases enclosed_stop lines stop ⟨p, []⟩ [] inner with hstop | ⟨u, hu, hstop⟩
          · exact .inl (by rw [hstop])
          · exact .inr ⟨u, .tail _ hu, by rw [hstop]⟩
        · simp [Step.skip] at h
    · simp [Step.skip] at h
  · simp [Step.skip] at h

end Step

/-! ### Reports on blocks -/

/-- What reading an item reports, and the command that the item stands for. -/
def Item.Reports (R : Diagnostic → Prop) (C : Command → Prop) (i : Item) : Prop :=
  (∀ d ∈ i.faults, R d) ∧ ∀ c, i.content = .command c → C c

/-- What is reported so far, and the commands that opened blocks. -/
structure State.Reports (R : Diagnostic → Prop) (C : Command → Prop) (st : State) : Prop where
  faults : ∀ d ∈ st.faults, R d
  frames : ∀ b ∈ st.frames, C b.command

/-- What is known of a command tells of every report on it. -/
structure Command.Tells (R : Diagnostic → Prop) (C : Command → Prop) : Prop where
  ofCode : ∀ {c : Command}, C c → ∀ code ≠ .expectedCommand, R (.ofCode code c.span)
  unmatched : ∀ {c : Command}, C c → R (.worded .unmatchedBlockEnd
    (Diagnostic.Code.summary .unmatchedBlockEnd ++ ": `" ++ String.ofList c.identifier ++ "`")
    c.span)
  unterminated : ∀ {b : Frame}, C b.command → R b.unterminated

theorem reports_items {P : Span → Prop} {lines : LineIndex} {stop : Span} {tokens : List Token}
    (h : ∀ t ∈ tokens, P t.span ∧ P (t.span.cover stop) ∧ ∀ u ∈ tokens, P (t.span.cover u.span)) :
    ∀ i ∈ items lines stop tokens, i.Reports (P ·.span) (P ·.span) := by
  fun_induction items lines stop tokens with
  | case1 => simp
  | case2 t rest s ih =>
    have hrest : ∀ u ∈ s.rest, u ∈ t :: rest := fun u hu =>
      (step_rest_suffix lines stop t rest).subset hu
    obtain ⟨-, hstop, hcover⟩ := h t (List.mem_cons_self ..)
    refine List.forall_mem_cons.mpr ⟨⟨fun d hd => ?_, fun c hc => ?_⟩, ih fun u hu => ?_⟩
    · obtain ⟨u, hu, hspan⟩ := span_of_mem_step_faults hd
      exact hspan ▸ (h u hu).1
    · rcases span_of_step_command hc with hspan | ⟨u, hu, hspan⟩
      · exact hspan ▸ hstop
      · exact hspan ▸ hcover u (.tail _ hu)
    · obtain ⟨hspan, hstop, hcover⟩ := h u (hrest u hu)
      exact ⟨hspan, hstop, fun v hv => hcover v (hrest v hv)⟩

section Blocks
variable {R : Diagnostic → Prop} {C : Command → Prop} (htells : Command.Tells R C)

namespace State.Reports

variable {st : State} (h : st.Reports R C)
include h

theorem report {faults : List Diagnostic} (hfaults : ∀ d ∈ faults, R d) :
    (st.report faults).Reports R C :=
  ⟨List.forall_mem_append.mpr ⟨h.faults, hfaults⟩, h.frames⟩

theorem add (s : Statement) : (st.add s).Reports R C := by
  obtain ⟨frames, top, faults, depth⟩ := st
  cases frames with
  | nil => exact ⟨h.faults, h.frames⟩
  | cons b outer => exact ⟨h.faults, List.forall_mem_cons.mpr (List.forall_mem_cons.mp h.frames)⟩

theorem enter {b : Frame} (hb : C b.command) : (st.enter b).Reports R C :=
  ⟨h.faults, List.forall_mem_cons.mpr ⟨hb, h.frames⟩⟩

include htells

theorem construct {c : Command} (hc : C c) : (st.construct c).Reports R C := by
  unfold State.construct
  split
  · split
    · exact h.enter hc
    · exact (h.report (List.forall_mem_singleton.mpr (htells.ofCode hc _ (by decide)))).enter hc
  · exact h.enter hc
  · exact h.enter hc
  · exact (h.report (List.forall_mem_singleton.mpr (htells.ofCode hc _ (by decide)))).add _
  · exact (h.report (List.forall_mem_singleton.mpr (htells.unmatched hc))).add _
  · exact h.add _

end State.Reports

include htells

theorem State.Reports.command {st : State} (h : st.Reports R C) {c : Command} (hc : C c) :
    (st.command c).Reports R C := by
  obtain ⟨frames, top, faults, depth⟩ := st
  cases frames with
  | nil => exact h.construct htells hc
  | cons b outer =>
    obtain ⟨hb, houter⟩ := List.forall_mem_cons.mp h.frames
    have hinner : State.Reports R C ⟨outer, top, faults, depth⟩ := ⟨h.faults, houter⟩
    unfold State.command
    dsimp only
    split
    · have hnext : ∀ next : Frame, next.command = b.command →
          State.Reports R C ⟨next :: outer, top, faults, depth⟩ := fun next hcommand =>
        ⟨h.faults, List.forall_mem_cons.mpr ⟨hcommand ▸ hb, houter⟩⟩
      have hreport : ∀ d ∈ [Diagnostic.ofCode .misplacedBranch c.span], R d :=
        List.forall_mem_singleton.mpr (htells.ofCode hc _ (by decide))
      unfold State.divide
      dsimp only
      split
      · refine State.Reports.report ?_ hreport
        exact hnext _ rfl
      · exact hnext _ rfl
    · split
      · exact hinner.add _
      · exact h.construct htells hc
    · exact h.construct htells hc

theorem State.Reports.take {st : State} (h : st.Reports R C) {i : Item} (hi : i.Reports R C) :
    (st.take i).Reports R C := by
  obtain ⟨hfaults, hcommand⟩ := hi
  unfold State.take
  split
  · exact (h.report hfaults).add _
  · exact h.report hfaults
  · next c hc => exact (h.report hfaults).command htells (hcommand c hc)

/-- What holds of the reports on items, and of all reports on their commands, holds of all that is
reported. -/
theorem forall_mem_faults_read {items : List Item} (h : ∀ i ∈ items, i.Reports R C) :
    ∀ d ∈ (read [] items).faults, R d := by
  have hfold : ∀ st : State, st.Reports R C → (items.foldl State.take st).Reports R C := by
    induction items with
    | nil => exact fun _ hst => hst
    | cons i rest ih =>
      obtain ⟨hi, hrest⟩ := List.forall_mem_cons.mp h
      exact fun st hst => ih hrest _ (hst.take htells hi)
  have hend := hfold .start ⟨by simp [State.start], by simp [State.start]⟩
  rw [read_nil_eq]
  refine List.forall_mem_append.mpr ⟨hend.faults, fun d hd => ?_⟩
  obtain ⟨b, hb, rfl⟩ := List.mem_map.mp hd
  exact htells.unterminated (hend.frames b hb)

end Blocks

/-- What holds of the spans of tokens, and of all that reaches from a token to another or to the end
of the source, holds of the spans of all reports. -/
theorem reports_read {P : Span → Prop} {lines : LineIndex} {stop : Span} {tokens : List Token}
    (h : ∀ t ∈ tokens, P t.span ∧ P (t.span.cover stop) ∧ ∀ u ∈ tokens, P (t.span.cover u.span)) :
    ∀ d ∈ (read [] (items lines stop tokens)).faults, P d.span :=
  forall_mem_faults_read ⟨fun hc _ _ => hc, fun hc => hc, fun hb => hb⟩ (reports_items h)

end Parse

/-! ### Order -/

namespace Diagnostic

/-- Reports are in the order of their starts. -/
def Ordered (ds : List Diagnostic) : Prop := ds.Pairwise fun a b => a.span.start ≤ b.span.start

theorem start_trans (a b c : Diagnostic) (h : decide (a.span.start ≤ b.span.start) = true)
    (h' : decide (b.span.start ≤ c.span.start) = true) :
    decide (a.span.start ≤ c.span.start) = true := by
  simp only [decide_eq_true_eq] at *
  omega

theorem start_total (a b : Diagnostic) :
    (decide (a.span.start ≤ b.span.start) || decide (b.span.start ≤ a.span.start)) = true := by
  simp only [Bool.or_eq_true, decide_eq_true_eq]
  omega

theorem ordered_sortByStart (ds : List Diagnostic) : Ordered (sortByStart ds) := by
  simpa [Ordered, sortByStart] using List.pairwise_mergeSort start_trans start_total ds

/-- Reports that start at one offset keep their order. -/
theorem filter_sortByStart (ds : List Diagnostic) (k : Nat) :
    (sortByStart ds).filter (·.span.start = k) = ds.filter (·.span.start = k) := by
  have hequal : (ds.filter (·.span.start = k)).Pairwise fun a b =>
      decide (a.span.start ≤ b.span.start) = true := by
    apply List.pairwise_of_forall_mem_list
    intro a ha b hb
    have hak : a.span.start = k := by simpa using (List.mem_filter.mp ha).2
    have hbk : b.span.start = k := by simpa using (List.mem_filter.mp hb).2
    exact decide_eq_true (Nat.le_of_eq (hak.trans hbk.symm))
  have hsub := (List.sublist_mergeSort start_trans start_total hequal List.filter_sublist).filter
    (·.span.start = k)
  rw [List.filter_filter] at hsub
  simp only [Bool.and_self] at hsub
  refine (hsub.eq_of_length ?_).symm
  exact ((List.mergeSort_perm ds _).filter _).length_eq.symm

/-- Nothing else is in order and has the same reports in the same order at every offset. -/
theorem eq_of_filter_start {ds es : List Diagnostic} (hd : Ordered ds) (he : Ordered es)
    (h : ∀ k, ds.filter (·.span.start = k) = es.filter (·.span.start = k)) : ds = es := by
  have hmem {ds es : List Diagnostic}
      (h : ∀ k, ds.filter (·.span.start = k) = es.filter (·.span.start = k)) {d : Diagnostic}
      (hd : d ∈ ds) : d ∈ es := by
    have hfilter : d ∈ ds.filter (·.span.start = d.span.start) := by simp [hd]
    rw [h] at hfilter
    exact List.mem_of_mem_filter hfilter
  induction ds generalizing es with
  | nil => exact (List.eq_nil_iff_forall_not_mem.mpr fun d hd => by
      simpa using hmem (fun k => (h k).symm) hd).symm
  | cons x ds ih =>
    cases es with
    | nil => exact absurd (hmem h (List.mem_cons_self ..)) (by simp)
    | cons y es =>
      obtain ⟨hx, hds⟩ := List.pairwise_cons.mp hd
      obtain ⟨hy, hes⟩ := List.pairwise_cons.mp he
      -- both lists start with the first report at their least offset
      have hle : ∀ d ∈ x :: ds, x.span.start ≤ d.span.start := by
        simpa using hx
      have hge : ∀ d ∈ y :: es, y.span.start ≤ d.span.start := by
        simpa using hy
      have hstart : x.span.start = y.span.start :=
        Nat.le_antisymm (hle y (hmem (fun k => (h k).symm) (List.mem_cons_self ..)))
          (hge x (hmem h (List.mem_cons_self ..)))
      have hfirst := h x.span.start
      simp only [List.filter_cons, hstart, decide_true, if_true, List.cons.injEq] at hfirst
      obtain ⟨rfl, -⟩ := hfirst
      congr 1
      refine ih hds hes fun k => ?_
      have hk := h k
      rw [List.filter_cons, List.filter_cons] at hk
      split at hk
      · exact (List.cons.inj hk).2
      · exact hk

/-- Reports that start below an offset come first, wherever they stand among others. -/
theorem sortByStart_append {front early late : List Diagnostic} {n : Nat}
    (hearly : ∀ d ∈ early, d.span.start < n) (hlate : ∀ d ∈ front ++ late, n ≤ d.span.start) :
    sortByStart (front ++ (early ++ late)) = sortByStart early ++ sortByStart (front ++ late) := by
  have hmem {ds : List Diagnostic} {d : Diagnostic} : d ∈ sortByStart ds ↔ d ∈ ds :=
    List.mem_mergeSort
  have hordered : Ordered (sortByStart early ++ sortByStart (front ++ late)) := by
    refine List.pairwise_append.mpr ⟨ordered_sortByStart _, ordered_sortByStart _, ?_⟩
    intro d hd e he
    have hbelow := hearly d (hmem.mp hd)
    have habove := hlate e (hmem.mp he)
    omega
  refine eq_of_filter_start (ordered_sortByStart _) hordered fun k => ?_
  rw [filter_sortByStart, List.filter_append, List.filter_append, List.filter_append,
    filter_sortByStart, filter_sortByStart, List.filter_append]
  by_cases hk : k < n
  · have hnone : front.filter (·.span.start = k) = [] := by
      refine List.filter_eq_nil_iff.mpr fun d hd => ?_
      have := hlate d (List.mem_append_left _ hd)
      simp only [decide_eq_true_eq]
      omega
    rw [hnone, List.nil_append, List.nil_append]
  · have hnone : early.filter (·.span.start = k) = [] := by
      refine List.filter_eq_nil_iff.mpr fun d hd => ?_
      have := hearly d hd
      simp only [decide_eq_true_eq]
      omega
    rw [hnone, List.nil_append, List.nil_append]

end Diagnostic

/-! ### The reports of a source -/

theorem Source.mem_diagnostics {text : Text} {d : Diagnostic} :
    d ∈ (Source.parse text).diagnostics ↔
      d ∈ faults (scan text) ∨ d ∈ (Parse.read [] (Parse.itemsOf text)).faults := by
  rw [Source.parse, Diagnostic.sortByStart, List.mem_mergeSort, List.mem_append]

/-- The tokens that carry structure are not empty and lie within their text. -/
theorem Parse.span_of_mem_significant {text : Text} {t : Token} (h : t ∈ significant text) :
    t.span.start < t.span.stop ∧ t.span.stop ≤ text.length := by
  obtain ⟨hscan, hs⟩ := List.mem_filter.mp h
  obtain ⟨r, ⟨front, htext, hoffset⟩, rfl⟩ := (Reader.within_start text).exists_reader hscan
  have hahead : r.ahead ≠ [] := fun hnil => by
    rw [isSignificant, (Reader.next_kind_eq_endOfFile_iff r).mpr hnil] at hs
    contradiction
  have hpos := List.length_pos_iff.mpr (Reader.next_text_ne_nil hahead)
  have hlength := congrArg List.length (r.next_text_append)
  rw [List.length_append] at hlength
  rw [r.next_start, r.next_stop, htext, List.length_append]
  omega

end Listfile
