import Listfile.Proofs.Items

/-! Written rows, read back. Rows whose parts are legible and whose comments trail
exactly where they do not start a line are read back one by one from the text
that they are written as, whatever the style and the indentation
(`items_verbatim`). What is read differs from what was written in the spaces of
trimmed comments and in nothing else. -/

namespace Listfile.Parse

open Token Layout

/-! ### Legible rows -/

/-- All parts of a row are tokens that can be written anywhere. -/
def RowLegible : Row → Prop
  | .lineBreak => True
  | .lineComment text _ => Lexeme .lineComment ('#' :: text)
  | .bracketComment text fence _ => Lexeme .bracketComment (bracketCommentText text fence)
  | .call _ name list => isIdentifier name = true ∧ Argument.LegibleAll list
  | .bracket _ _ => False
  | .unknown => False

/-- A character of an identifier is none of those that mean something to the scanner. -/
theorem ne_of_isWord {c d : Char} (hc : (c.isAlphanum || c = '_') = true)
    (hd : (d.isAlphanum || d = '_') = false) : c ≠ d := by
  rintro rfl
  simp [hd] at hc

theorem startsWord_of_isWord {c : Char} (hc : (c.isAlphanum || c = '_') = true) :
    startsWord c = true := by
  simp [startsWord, endsUnquoted, isSpace, isBreak, ne_of_isWord hc]

theorem cutUnquoted_word {t rest : Text} (h : ∀ c ∈ t, (c.isAlphanum || c = '_') = true)
    (hends : Ends .unquoted rest) :
    cutUnquoted false (t ++ rest) = ⟨t, rest, true, false⟩ := by
  induction t with
  | nil => exact cutUnquoted_of_ends hends
  | cons c t ih =>
    obtain ⟨hc, ht⟩ := List.forall_mem_cons.mp h
    have hstop : endsUnquoted c = false := by
      have := startsWord_of_isWord hc
      simp_all [startsWord]
    rw [List.cons_append, cutUnquoted_cons (ne_of_isWord hc rfl), if_neg (ne_of_isWord hc rfl),
      ih ht, hstop]
    rfl

theorem lexeme_of_isIdentifier {name : Text} (h : isIdentifier name = true) :
    Lexeme .unquoted name := by
  cases name with
  | nil => contradiction
  | cons c t =>
    intro rest hends
    have hword : ∀ d ∈ c :: t, (d.isAlphanum || d = '_') = true := by
      simp only [isIdentifier, Bool.and_eq_true, List.all_eq_true] at h
      refine List.forall_mem_cons.mpr ⟨?_, h.2⟩
      rcases Bool.or_eq_true_iff.mp h.1 with hc | hc <;> simp [Char.isAlphanum, hc]
    have hc := hword c (List.mem_cons_self ..)
    have hfence : fence? (c :: (t ++ rest)) = none := by
      simp [fence?, ne_of_isWord hc]
    refine ⟨false, ?_⟩
    have hcut := cutUnquoted_word hword hends
    rw [List.cons_append] at hcut ⊢
    simp only [first?, cut_word (startsWord_of_isWord hc), hfence, hcut]

/-! ### Reading a row back -/

/-- Items that say the same as a row. -/
inductive Echoes : Row → Content → Prop
  | lineBreak {location : Option Location} : Echoes .lineBreak (.statement (.lineBreak location))
  | lineComment {text : Text} {trailing : Bool} {location : Option Location} :
      Echoes (.lineComment text trailing) (.statement (.lineComment text trailing location))
  | bracketComment {text : Text} {fence : Nat} {trailing : Bool} {location : Option Location} :
      Echoes (.bracketComment text fence trailing)
        (.statement (.bracketComment text fence trailing location))
  | call {role : Option Keyword} {name : Text} {list : List Argument} {c : Command}
      (hname : c.identifier = name) (hlist : Argument.plainAll id c.arguments = list) :
      Echoes (.call role name list) (.command c)

/-- Tokens that span an item are read as it. -/
theorem items_of_spans {lines : LineIndex} {tokens : List Token} {content : Content}
    (h : Spans lines tokens content) (stop : Span) (rest : List Token) :
    ∃ i, items lines stop (tokens ++ rest) = i :: items lines stop rest ∧ i.faults = [] ∧
      ∀ r, Echoes r content → Echoes r i.content := by
  cases h with
  | lineBreak hk =>
    rw [List.singleton_append, items]
    simp only [step, hk]
    exact ⟨_, rfl, rfl, fun r hr => hr⟩
  | lineComment hk hu =>
    rw [List.cons_append, List.singleton_append, items]
    simp only [step, hk, dropLineBreak, hu, if_true]
    exact ⟨_, rfl, rfl, fun r hr => hr⟩
  | bracketComment hk =>
    rw [List.singleton_append, items]
    simp only [step, hk]
    exact ⟨_, rfl, rfl, fun r hr => hr⟩
  | @command t p q inner list span hk hname hp hq hi =>
    have henclosed := enclosed_of_reads_close hi stop p hq rest
    rw [List.cons_append, List.cons_append, List.append_assoc, List.singleton_append, items]
    simp only [step, hk, commandStep, hname, hp, if_true, henclosed]
    refine ⟨_, rfl, rfl, fun r hr => ?_⟩
    cases hr with
    | call hname hlist => exact .call hname hlist

/-- What stands before a row on its line is read over. -/
theorem ink_rowLead (indentation : Nat) (b : Bool) (r : Row) (rest : Text) (offset : Nat) :
    ∃ offset', (Reader.mk (rowLead indentation b r ++ rest) offset b).ink =
      (Reader.mk rest offset' b).ink := by
  unfold rowLead
  split
  · exact ⟨offset, rfl⟩
  · exact ⟨offset, rfl⟩
  · cases b with
    | true => exact ⟨_, Reader.ink_spaces indentation rest offset true⟩
    | false => exact ⟨_, Reader.ink_space rest offset false⟩

/-- The text of a command is read as the tokens of a command with the same arguments. -/
theorem ink_callText (s : Style) (indentation : Nat) {name : Text} {list : List Argument}
    (hname : isIdentifier name = true) (hlist : Argument.LegibleAll list) (lines : LineIndex)
    (rest : Text) (offset : Nat) (b : Bool) :
    ∃ tokens c offset', (Reader.mk (callText s indentation name list ++ rest) offset b).ink =
        tokens ++ (Reader.mk rest offset' false).ink ∧
      Spans lines tokens (.command c) ∧ c.identifier = name ∧
      Argument.plainAll id c.arguments = Argument.plainAll (settleText s) list ∧
      ∀ t ∈ tokens, t.closed = true := by
  obtain ⟨body, hspells, htext⟩ : ∃ body, Spells s .first list body ∧
      callText s indentation name list ++ rest = name ++ '(' :: (body ++ ')' :: rest) := by
    simp only [callText, List.append_assoc, List.singleton_append]
    exact ⟨_, spells_arguments s _ _ 1 hlist.known, rfl⟩
  have hends : Ends .unquoted ('(' :: (body ++ ')' :: rest)) := by simp [Ends, endsUnquoted]
  obtain ⟨t, htk, htt, -, htc, hink₁⟩ :=
    Reader.ink_lexeme (lexeme_of_isIdentifier hname) (by decide) (by decide) hends offset b
  obtain ⟨p, hp, hink₂⟩ := ink_paren lexeme_openParen (.inl rfl) (body ++ ')' :: rest)
    (offset + name.length) (Reader.staysAtLineStart .unquoted b)
  obtain ⟨inner, offset₁, b₁, hink₃, as, hreads, hplain, hclosed⟩ :=
    ink_spells hspells hlist lines rest (offset + name.length + 1) false
  obtain ⟨q, hq, hink₄⟩ := ink_paren lexeme_closeParen (.inr rfl) rest offset₁ b₁
  have hspans : Spans lines (t :: p :: (inner ++ [q]))
      (.command ⟨t.text, as, t.span, lines.location t.span.start⟩) :=
    .command htk (htt ▸ hname) hp.1 hq.1 hreads
  refine ⟨t :: p :: (inner ++ [q]), _, offset₁ + 1, ?_, hspans, htt, hplain, ?_⟩
  · rw [htext, hink₁, hink₂, hink₃, hink₄]
    simp
  · simpa [or_imp, forall_and] using ⟨htc, hp.2, hclosed, hq.2⟩

/-- The text of a row is read as tokens that span an item which echoes the row. -/
theorem ink_rowText (s : Style) {r : Row} (hl : RowLegible r) {b : Bool}
    (ht : ∀ trailing ∈ trailing? r, trailing = !b) (lines : LineIndex) (indentation : Nat)
    (rest : Text) (offset : Nat) :
    ∃ tokens content offset', (Reader.mk (rowText s indentation r ++ rest) offset b).ink =
        tokens ++ (Reader.mk rest offset' (lineStartBehind b r)).ink ∧
      Spans lines tokens content ∧ Echoes (r.plain (settleText s)) content ∧
      ∀ t ∈ tokens, t.closed = true := by
  cases r with
  | lineBreak =>
    obtain ⟨t, htk, htc, hink⟩ := Reader.ink_lineFeed rest offset b
    exact ⟨[t], _, _, hink, .lineBreak htk, .lineBreak, by simp [htc]⟩
  | lineComment text trailing =>
    have hends : Ends .lineComment ('\n' :: rest) := by simp [Ends, isBreak]
    obtain ⟨t, htk, htt, hts, htc, hink⟩ :=
      Reader.ink_lexeme (lexeme_lineCommentText hl s) (by decide) (by decide) hends offset b
    obtain ⟨u, huk, huc, hink'⟩ := Reader.ink_lineFeed rest
      (offset + (lineCommentText s text).length) (Reader.staysAtLineStart .lineComment b)
    refine ⟨[t, u], _, offset + (lineCommentText s text).length + 1, ?_, .lineComment htk huk, ?_,
      by simp [htc, huc]⟩
    · rw [rowText, List.append_assoc, List.singleton_append, hink, hink']
      rfl
    · obtain rfl := ht trailing rfl
      simp only [lineComment, htt, hts, lineCommentText_eq, List.tail_cons, Row.plain]
      exact .lineComment
  | bracketComment text fence trailing =>
    have hends : Ends .bracketComment rest := trivial
    obtain ⟨t, htk, htt, hts, htc, hink⟩ :=
      Reader.ink_lexeme hl (by decide) (by decide) hends offset b
    refine ⟨[t], _, _, hink, .bracketComment htk, ?_, by simp [htc]⟩
    obtain rfl := ht trailing rfl
    simp only [bracketComment, htt, hts, bracketCommentText, List.tail_cons, fenceOf_bracketText,
      bracketBody_bracketText, Row.plain]
    exact .bracketComment
  | call role name list =>
    obtain ⟨tokens, c, offset', hink, hspans, hname, hlist, hclosed⟩ :=
      ink_callText s indentation hl.1 hl.2 lines rest offset b
    exact ⟨tokens, _, offset', hink, hspans, .call hname hlist, hclosed⟩
  | bracket text fence => contradiction
  | unknown => contradiction

/-- Written rows are read back as items that echo them, without a report. -/
theorem items_verbatim (s : Style) {rows : List Row} (hl : ∀ r ∈ rows, RowLegible r) {b : Bool}
    (ha : Anchored b rows) (lines : LineIndex) (stop : Span) (levels : List Nat) (offset : Nat) :
    List.Forall₂ (fun r i => Echoes (r.plain (settleText s)) i.content ∧ i.faults = []) rows
      (items lines stop (Reader.mk (verbatim s levels b rows) offset b).ink) ∧
    ∀ t ∈ (Reader.mk (verbatim s levels b rows) offset b).ink, t.closed = true := by
  induction rows generalizing b levels offset with
  | nil =>
    rw [verbatim, Reader.ink_nil, items]
    exact ⟨.nil, by simp⟩
  | cons r rest ih =>
    obtain ⟨hr, hrest⟩ := List.forall_mem_cons.mp hl
    obtain ⟨htrailing, hanchored⟩ := ha
    rw [verbatim, List.append_assoc]
    obtain ⟨offset₁, hlead⟩ := ink_rowLead ((levelsAt levels r).headD 0) b r
      (rowText s ((levelsAt levels r).headD 0) r ++
        verbatim s (levelsBehind s levels r) (lineStartBehind b r) rest) offset
    obtain ⟨tokens, content, offset₂, hink, hspans, hechoes, hclosed⟩ :=
      ink_rowText s hr htrailing lines ((levelsAt levels r).headD 0)
        (verbatim s (levelsBehind s levels r) (lineStartBehind b r) rest) offset₁
    obtain ⟨hitems, hclosed'⟩ := ih hrest hanchored (levelsBehind s levels r) offset₂
    obtain ⟨i, hcons, hfaults, hsame⟩ := items_of_spans hspans stop
      (Reader.mk (verbatim s (levelsBehind s levels r) (lineStartBehind b r) rest) offset₂
        (lineStartBehind b r)).ink
    rw [hlead, hink, hcons]
    exact ⟨.cons ⟨hsame _ hechoes, hfaults⟩ hitems, List.forall_mem_append.mpr ⟨hclosed, hclosed'⟩⟩

/-! ### Rows in their plain form -/

/-- Rows are written in the same way once their comments are settled. -/
theorem verbatim_map_plain (s : Style) (levels : List Nat) (b : Bool) (rows : List Row) :
    verbatim s levels b (rows.map (Row.plain (settleText s))) = verbatim s levels b rows := by
  have htext (indentation : Nat) (r : Row) :
      rowText s indentation (r.plain (settleText s)) = rowText s indentation r := by
    cases r with
    | lineComment text trailing => simp only [Row.plain, rowText, lineCommentText_settleText]
    | call role name list => simp only [Row.plain, rowText, callText, arguments_plainAll]
    | _ => rfl
  have hlead (indentation : Nat) (b : Bool) (r : Row) :
      rowLead indentation b (r.plain (settleText s)) = rowLead indentation b r := by
    cases r <;> rfl
  have hlevels (levels : List Nat) (r : Row) :
      levelsAt levels (r.plain (settleText s)) = levelsAt levels r ∧
        levelsBehind s levels (r.plain (settleText s)) = levelsBehind s levels r := by
    cases r with
    | call role name list => obtain _ | block | divider | block := role <;> exact ⟨rfl, rfl⟩
    | _ => exact ⟨rfl, rfl⟩
  have hstart (b : Bool) (r : Row) :
      lineStartBehind b (r.plain (settleText s)) = lineStartBehind b r := by
    cases r <;> rfl
  induction rows generalizing levels b with
  | nil => rfl
  | cons r rest ih =>
    rw [List.map_cons, verbatim, verbatim, htext, hlead, (hlevels levels r).1,
      (hlevels levels r).2, hstart, ih]

end Listfile.Parse
