import Listfile.Proofs.Lines
import Listfile.Proofs.Progress
import Listfile.Proofs.Reports

/-! The reports of a source as they are shown. Each is about a part of the text
that is not empty: a token, or a command from its name to a token behind it or to the
end of the text. The reports on tokens come in the order of the tokens, those of a
descent through the blocks in the order in which it makes them, and both are put
in the order of their starts, where no two that start together change places
(`parse_reports`). -/

namespace Listfile

open Token

/-- A report on a part of a text, and the place that is shown with it. -/
structure Diagnostic.Shown (text : Text) (d : Diagnostic) (place : Location) : Prop where
  start_lt_stop : d.span.start < d.span.stop
  stop_le_length : d.span.stop ≤ text.length
  line_eq : ∀ path, d.line path text =
    s!"{path}: {d.code.name} line {place.line}, {place.column}: {d.message}"
  one_le_line : 1 ≤ place.line
  line_le : place.line ≤ (LineIndex.ofText text).lineCount
  /-- The start of the line and the column make up the start of the report. -/
  offset : ∃ start, (LineIndex.ofText text).start? place.line = some start ∧
    start + place.column = d.span.start

/-- A part of a text that is not empty. -/
def Span.Covers (text : Text) (s : Span) : Prop := s.start < s.stop ∧ s.stop ≤ text.length

theorem Diagnostic.shown_of_covers {text : Text} {d : Diagnostic} (h : d.span.Covers text) :
    d.Shown text ((LineIndex.ofText text).location d.span.start) where
  start_lt_stop := h.1
  stop_le_length := h.2
  line_eq := fun path => by
    have hmin : min d.span.start text.length = d.span.start :=
      Nat.min_eq_left (Nat.le_of_lt (Nat.lt_of_lt_of_le h.1 h.2))
    rw [Diagnostic.line, hmin]
  one_le_line := Location.one_le_line _
  line_le := LineIndex.line_location_le text _
  offset := LineIndex.start?_location text _

namespace Span.Covers

variable {text : Text} {s : Span}

theorem cover (h : s.Covers text) {u : Span} (hu : u.stop ≤ text.length) :
    (s.cover u).Covers text := by
  obtain ⟨hlt, hle⟩ := h
  simp only [Covers, Span.cover]
  omega

end Span.Covers

/-- The tokens that carry structure cover parts of their text. -/
theorem Token.covers_of_mem {text : Text} {t : Token} (h : t ∈ Parse.significant text) :
    t.span.Covers text := Parse.span_of_mem_significant h

/-- A token that lacks its terminator carries structure, and the report is on it. -/
theorem Token.mem_significant_of_fault? {text : Text} {t : Token} (h : t ∈ scan text)
    {d : Diagnostic} (hd : t.fault? = some d) : t ∈ Parse.significant text ∧ d.span = t.span := by
  have hs : isSignificant t = true ∧ d.span = t.span := by
    cases hclosed : t.closed <;> cases hkind : t.kind <;>
      simp [fault?, hclosed, hkind] at hd <;> simp [isSignificant, hkind, ← hd, Diagnostic.ofCode]
  exact ⟨List.mem_filter.mpr ⟨h, hs.1⟩, hs.2⟩

/-- Every report of a source is on a part of its text that is not empty. -/
theorem Source.covers_of_mem_diagnostics {text : Text} {d : Diagnostic}
    (h : d ∈ (Source.parse text).diagnostics) : d.span.Covers text := by
  rcases Source.mem_diagnostics.mp h with hscan | hread
  · obtain ⟨t, ht, hd⟩ := List.mem_filterMap.mp hscan
    obtain ⟨hmem, hspan⟩ := Token.mem_significant_of_fault? ht hd
    exact hspan ▸ Token.covers_of_mem hmem
  · refine Parse.reports_read (P := (·.Covers text)) (fun t ht => ?_) d hread
    exact ⟨Token.covers_of_mem ht, (Token.covers_of_mem ht).cover (Nat.le_refl _), fun u hu =>
      (Token.covers_of_mem ht).cover (Token.covers_of_mem hu).2⟩

/-- What a descent through a whole text comes to. -/
theorem Parse.statementLists_parse (text : Text) :
    ∃ o, statementLists (.ofText text) (text.length + 2) [[]] (.start text) = .ok [o] ∧
      o.statements = (Source.parse text).statements ∧
      o.parser.reports = (read [] (itemsOf text)).faults := by
  have hfuel : (significant text).length + 1 < text.length + 2 :=
    Nat.succ_lt_succ (Nat.lt_succ_of_le (length_significant_le text))
  have hrun := (statementLists_eq (S := .ofText text) (.ofText text)
    (List.suffix_refl (significant text)) hfuel [[]] [] 0).1
  rw [Stream.parser_ofText] at hrun
  exact ⟨_, hrun, rfl, List.nil_append _⟩

/-- The reports of a source are those on its tokens and those of a descent through its blocks, by
their starts, and where they start together in the order in which they are made. Each is shown
with the place at which it starts. -/
theorem parse_reports (text : Text) :
    ∃ o, Parse.statementLists (.ofText text) (text.length + 2) [[]] (.start text) = .ok [o] ∧
      o.statements = (Source.parse text).statements ∧
      (Source.parse text).diagnostics.Perm (faults (scan text) ++ o.parser.reports) ∧
      Diagnostic.Ordered (Source.parse text).diagnostics ∧
      (∀ k, (Source.parse text).diagnostics.filter (·.span.start = k) =
        (faults (scan text)).filter (·.span.start = k) ++
          o.parser.reports.filter (·.span.start = k)) ∧
      ∀ d ∈ (Source.parse text).diagnostics, ∃ place, d.Shown text place := by
  obtain ⟨o, hrun, hstatements, hreports⟩ := Parse.statementLists_parse text
  have hdiagnostics : (Source.parse text).diagnostics =
      Diagnostic.sortByStart (faults (scan text) ++ o.parser.reports) := by
    rw [hreports]
    rfl
  refine ⟨o, hrun, hstatements, ?_, ?_, fun k => ?_, fun d hd =>
    ⟨_, Diagnostic.shown_of_covers (Source.covers_of_mem_diagnostics hd)⟩⟩
  · rw [hdiagnostics]
    exact List.mergeSort_perm _ _
  · rw [hdiagnostics]
    exact Diagnostic.ordered_sortByStart _
  · rw [hdiagnostics, Diagnostic.filter_sortByStart, List.filter_append]

end Listfile
