import Listfile.Proofs.Blocks
import Listfile.Proofs.Settled
import Listfile.Proofs.Spelling

/-! The items of a text without faults. Each one is spanned by the tokens of a
line break, of a comment or of a command with its parentheses (`Spans`). Since
the tokens fit together, all that these items hold is legible, and a comment
trails exactly if it does not start a line (`anchored_of_spanned`). -/

namespace Listfile.Parse

open Token Layout

def Content.command? : Content → Option Command
  | .command c => some c
  | _ => none

/-! ### The tokens of an item -/

/-- The tokens that make up an item which is not reported. A line comment takes the end of its line
along. -/
inductive Spans (lines : LineIndex) : List Token → Content → Prop
  | lineBreak {t : Token} (h : t.kind = .lineBreak) :
      Spans lines [t] (.statement (.lineBreak (some (lines.location t.span.start))))
  | lineComment {t u : Token} (h : t.kind = .lineComment) (hu : u.kind = .lineBreak) :
      Spans lines [t, u] (.statement (lineComment lines t))
  | bracketComment {t : Token} (h : t.kind = .bracketComment) :
      Spans lines [t] (.statement (bracketComment lines t))
  | command {t p q : Token} {inner : List Token} {list : List Argument} {span : Span}
      (h : t.kind = .unquoted) (hname : isIdentifier t.text = true) (hp : p.kind = .openParen)
      (hq : q.kind = .closeParen) (hi : Reads lines inner list) :
      Spans lines (t :: p :: (inner ++ [q]))
        (.command ⟨t.text, list, span, lines.location t.span.start⟩)

theorem Step.skip_faults_ne_nil (fault : Diagnostic) (tokens : List Token) :
    (Step.skip fault tokens).faults ≠ [] := by
  simp [Step.skip]

theorem spans_commandStep {lines : LineIndex} {stop : Span} {t : Token} {rest : List Token}
    (hk : t.kind = .unquoted) (hs : ∀ u ∈ rest, isSignificant u = true)
    (h : (commandStep lines stop t rest).faults = []) :
    ∃ tokens, t :: rest = tokens ++ (commandStep lines stop t rest).rest ∧
      Spans lines tokens (commandStep lines stop t rest).content := by
  unfold commandStep at h ⊢
  split at h
  · next hname =>
    split at h
    · exact absurd h (Step.skip_faults_ne_nil _ _)
    · next p inner =>
      split at h
      · next hp =>
        have hpending : Pending lines [] ⟨p, []⟩ [] := .nil
        obtain ⟨ts, q, heq, hq, hstop, hreads⟩ := reads_of_enclosed hpending
          (fun u hu => hs u (List.mem_cons_of_mem _ hu)) h
        simp only [hname, hp, if_true]
        refine ⟨t :: p :: (ts ++ [q]), ?_, .command hk hname hp hq hreads⟩
        simpa using heq
      · exact absurd h (Step.skip_faults_ne_nil _ _)
  · exact absurd h (Step.skip_faults_ne_nil _ _)

/-- An item that is not reported is spanned by its tokens, unless it is a line comment at the very
end. -/
theorem spans_step {lines : LineIndex} {stop : Span} {t : Token} {rest : List Token}
    (hs : ∀ u ∈ rest, isSignificant u = true)
    (hc : t.kind = .lineComment → ∀ u ∈ rest.head?, u.kind = .lineBreak)
    (h : (step lines stop t rest).faults = []) :
    (∃ tokens, t :: rest = tokens ++ (step lines stop t rest).rest ∧
      Spans lines tokens (step lines stop t rest).content) ∨
    (t.kind = .lineComment ∧ rest = []) := by
  unfold step at h ⊢
  split at h
  · next hk => exact .inl ⟨[t], rfl, .lineBreak hk⟩
  · next hk =>
    cases rest with
    | nil => exact .inr ⟨hk, rfl⟩
    | cons u rest =>
      have hu := hc hk u rfl
      refine .inl ⟨[t, u], ?_, .lineComment hk hu⟩
      simp [dropLineBreak, hu]
  · next hk => exact .inl ⟨[t], rfl, .bracketComment hk⟩
  · next hk => exact .inl (spans_commandStep hk hs h)
  · exact absurd h (Step.skip_faults_ne_nil _ _)

theorem Item.tokens_eq {i : Item} {ts : List Token} (h : i.start = ts ++ i.rest) :
    i.tokens = ts := by
  rw [Item.tokens, h, List.length_append, Nat.add_sub_cancel, List.take_left]

/-- Items with the tokens that span them. -/
inductive Spanned (lines : LineIndex) : List Token → List Item → Prop
  | nil : Spanned lines [] []
  | last {t : Token} {i : Item} (hk : t.kind = .lineComment)
      (hc : i.content = .statement (lineComment lines t)) (ht : i.tokens = [t]) :
      Spanned lines [t] [i]
  | cons {ts rest : List Token} {i : Item} {is : List Item} (hc : Spans lines ts i.content)
      (ht : i.tokens = ts) (h : Spanned lines rest is) : Spanned lines (ts ++ rest) (i :: is)

/-! ### Tokens that fit -/

theorem Fit.isSignificant {b : Bool} {tokens : List Token} (h : Fit b tokens) :
    ∀ t ∈ tokens, isSignificant t = true := by
  induction tokens generalizing b with
  | nil => simp
  | cons t rest ih =>
    obtain ⟨-, hs, -, -, -, hrest⟩ := h
    exact List.forall_mem_cons.mpr ⟨hs, ih hrest⟩

theorem Fit.behind {b : Bool} {xs ys : List Token} {t : Token} (h : Fit b (xs ++ t :: ys)) :
    Fit (t.kind = .lineBreak) ys := by
  induction xs generalizing b with
  | nil => exact h.2.2.2.2.2
  | cons x xs ih => exact ih h.2.2.2.2.2

/-- A token with something behind it is a lexeme. -/
theorem Fit.lexeme {b : Bool} {xs ys : List Token} (h : Fit b (xs ++ ys)) (hy : ys ≠ []) :
    ∀ t ∈ xs, t.kind ≠ .lineBreak → Lexeme t.kind t.text := by
  induction xs generalizing b with
  | nil => simp
  | cons x xs ih =>
    obtain ⟨-, -, -, hl, -, hrest⟩ := h
    refine List.forall_mem_cons.mpr ⟨fun hb => hl hb fun _ => by simp [hy], ih hrest⟩

/-- The tokens between the parentheses of a command are lexemes. -/
theorem Fit.lexeme_inner {b : Bool} {t p q : Token} {inner rest : List Token}
    (h : Fit b (t :: p :: (inner ++ [q]) ++ rest)) :
    ∀ u ∈ inner, u.kind ≠ .lineBreak → Lexeme u.kind u.text := by
  have hfit : Fit b ((t :: p :: inner) ++ (q :: rest)) := by simpa using h
  exact fun u hu => Fit.lexeme hfit (by simp) u (by simp [hu])

theorem Spans.exists_last {lines : LineIndex} {tokens : List Token} {content : Content}
    (h : Spans lines tokens content) : ∃ xs t, tokens = xs ++ [t] := by
  cases h with
  | lineBreak => exact ⟨[], _, rfl⟩
  | lineComment => exact ⟨[_], _, rfl⟩
  | bracketComment => exact ⟨[], _, rfl⟩
  | command => exact ⟨_ :: _ :: _, _, rfl⟩

/-- The items of tokens that fit together are spanned by them, if none is reported. -/
theorem spanned_items {lines : LineIndex} {stop : Span} {tokens : List Token} {b : Bool}
    (hfit : Fit b tokens) (h : ∀ i ∈ items lines stop tokens, i.faults = []) :
    Spanned lines tokens (items lines stop tokens) := by
  induction hn : tokens.length using Nat.strongRecOn generalizing tokens b with
  | ind n ih =>
    subst hn
    cases tokens with
    | nil =>
      rw [items]
      exact .nil
    | cons t rest =>
      rw [items] at h ⊢
      rw [List.forall_mem_cons] at h
      obtain ⟨hf, hrest⟩ := h
      have hlt := step_rest_length_lt lines stop t rest
      have hs : ∀ u ∈ rest, isSignificant u = true := fun u hu =>
        Fit.isSignificant hfit u (List.mem_cons_of_mem _ hu)
      rcases spans_step hs hfit.2.2.2.2.1 hf with ⟨ts, heq, hspans⟩ | ⟨hk, rfl⟩
      · obtain ⟨xs, u, rfl⟩ := hspans.exists_last
        rw [heq, List.append_assoc, List.singleton_append] at hfit
        have hspanned := ih _ hlt (Fit.behind hfit) hrest rfl
        let i : Item := ⟨(step lines stop t rest).content, (step lines stop t rest).faults,
          t :: rest, (step lines stop t rest).rest⟩
        have hspan := Spanned.cons (i := i) hspans (Item.tokens_eq heq) hspanned
        rwa [← heq] at hspan
      · have hstep : step lines stop t [] = ⟨.statement (lineComment lines t), [], []⟩ := by
          simp [step, hk, dropLineBreak]
        rw [hstep, items]
        exact .last hk rfl rfl

/-! ### Legible items -/

/-- All parts of an item are tokens that can be written anywhere. -/
def Content.Legible : Content → Prop
  | .statement (.lineBreak _) => True
  | .statement (.lineComment text _ _) => Lexeme .lineComment ('#' :: text)
  | .statement (.bracketComment text fence _ _) =>
    Lexeme .bracketComment (bracketCommentText text fence)
  | .command c => isIdentifier c.identifier = true ∧ Argument.LegibleAll c.arguments
  | _ => False

theorem Content.Legible.isPlain {content : Content} (h : content.Legible) : content.IsPlain := by
  cases content with
  | statement s => cases s <;> first | exact ⟨_, rfl⟩ | contradiction
  | command c => trivial
  | skipped => contradiction

/-- The body of a line comment token, with its number sign. -/
theorem lineComment_eq_of_lexeme {t : Text} (h : Lexeme .lineComment t) : '#' :: t.tail = t := by
  obtain ⟨body, rfl, -⟩ := h.lineComment_eq
  rfl

/-- The body of a bracket token, with its brackets. -/
theorem bracketText_of_lexeme {t : Text} (h : Lexeme .bracket t) :
    bracketText (bracketBody (fenceOf t) t) (fenceOf t) = t := by
  obtain ⟨n, body, htext, hfence⟩ := h.bracket_eq
  rw [hfence, htext, bracketBody_append, bracketText]

theorem bracketCommentText_of_lexeme {t : Text} (h : Lexeme .bracketComment t) :
    bracketCommentText (bracketBody (fenceOf t.tail) t.tail) (fenceOf t.tail) = t := by
  obtain ⟨n, body, htext, hfence⟩ := h.bracketComment_eq
  rw [hfence, htext, List.tail_cons, bracketBody_append, bracketCommentText, bracketText]

theorem legible_of_argument? {lines : LineIndex} {t : Token} {a : Argument}
    (h : argument? lines t = some a) (ht : Lexeme t.kind t.text) : a.Legible := by
  simp only [argument?] at h
  split at h
  · next hk =>
    rw [hk] at ht
    cases h
    exact ht
  · next hk =>
    rw [hk] at ht
    cases h
    obtain ⟨body, htext, hescaped⟩ := ht.quoted_eq
    rw [Argument.Legible, htext, quotedBody_of_quotesEscaped hescaped, ← htext]
    exact ht
  · next hk =>
    rw [hk] at ht
    cases h
    rw [Argument.Legible, bracketText_of_lexeme ht]
    exact ht
  · next hk =>
    rw [hk] at ht
    cases h
    rw [Argument.Legible, lineComment_eq_of_lexeme ht]
    exact ht
  · next hk =>
    rw [hk] at ht
    cases h
    rw [Argument.Legible, bracketCommentText_of_lexeme ht]
    exact ht
  · contradiction

theorem legibleAll_of_reads {lines : LineIndex} {tokens : List Token} {list : List Argument}
    (h : Reads lines tokens list)
    (ht : ∀ t ∈ tokens, t.kind ≠ .lineBreak → Lexeme t.kind t.text) :
    Argument.LegibleAll list := by
  induction h with
  | nil => trivial
  | lineBreak _ _ ih => exact ih (List.forall_mem_cons.mp ht).2
  | leaf ha _ ih =>
    obtain ⟨hfirst, hrest⟩ := List.forall_mem_cons.mp ht
    refine ⟨legible_of_argument? ha (hfirst fun hk => ?_), ih hrest⟩
    simp [argument?, hk] at ha
  | group _ _ _ _ ihi ih =>
    obtain ⟨-, hrest⟩ := List.forall_mem_cons.mp ht
    obtain ⟨hinner, hmore⟩ := List.forall_mem_append.mp hrest
    exact ⟨ihi hinner, ih (List.forall_mem_cons.mp hmore).2⟩

theorem legible_lineComment {t : Token} (hk : t.kind = .lineComment) (h : Lexeme t.kind t.text)
    (lines : LineIndex) : (Content.statement (lineComment lines t)).Legible := by
  rw [hk] at h
  rw [lineComment, Content.Legible, lineComment_eq_of_lexeme h]
  exact h

theorem legible_of_spans {lines : LineIndex} {tokens rest : List Token} {content : Content}
    (h : Spans lines tokens content) {b : Bool} (hfit : Fit b (tokens ++ rest)) :
    content.Legible := by
  cases h with
  | lineBreak => trivial
  | lineComment hk _ =>
    exact legible_lineComment hk (hfit.2.2.2.1 (by simp [hk]) (by simp [hk])) lines
  | bracketComment hk =>
    have hl := hfit.2.2.2.1 (by simp [hk]) (by simp [hk])
    rw [hk] at hl
    simp only [bracketComment, Content.Legible, bracketCommentText_of_lexeme hl]
    exact hl
  | @command t p q inner list span hk hname hp hq hi =>
    exact ⟨hname, legibleAll_of_reads hi (Fit.lexeme_inner hfit)⟩

theorem legible_of_spanned {lines : LineIndex} {tokens : List Token} {items : List Item}
    (h : Spanned lines tokens items) {b : Bool} (hfit : Fit b tokens) :
    ∀ i ∈ items, i.content.Legible := by
  induction h generalizing b with
  | nil => simp
  | last hk hc _ =>
    have hl := legible_lineComment hk (hfit.2.2.2.1 (by simp [hk]) (by simp [hk])) lines
    simpa [hc] using hl
  | cons hc _ _ ih =>
    obtain ⟨xs, u, rfl⟩ := hc.exists_last
    have hlegible := legible_of_spans hc hfit
    rw [List.append_assoc, List.singleton_append] at hfit
    exact List.forall_mem_cons.mpr ⟨hlegible, ih (Fit.behind hfit)⟩

/-- The arguments of a command are read from lexemes. -/
theorem reads_of_spanned {lines : LineIndex} {tokens : List Token} {items : List Item}
    (h : Spanned lines tokens items) {b : Bool} (hfit : Fit b tokens) {i : Item} (hi : i ∈ items)
    {c : Command} (hc : i.content = .command c) :
    ∃ inner, Reads lines inner c.arguments ∧
      ∀ t ∈ inner, t ∈ tokens ∧ (t.kind ≠ .lineBreak → Lexeme t.kind t.text) := by
  induction h generalizing b with
  | nil => simp at hi
  | last _ hlast _ =>
    obtain rfl := List.mem_singleton.mp hi
    simp [hlast, lineComment] at hc
  | @cons ts rest j is hspans _ _ ih =>
    obtain ⟨xs, u, hts⟩ := hspans.exists_last
    rcases List.mem_cons.mp hi with rfl | hi
    · rw [hc] at hspans
      cases hspans with
      | @command t p q inner list span hk hname hp hq hreads =>
        exact ⟨inner, hreads, fun u hu => ⟨by simp [hu], Fit.lexeme_inner hfit u hu⟩⟩
    · rw [hts, List.append_assoc, List.singleton_append] at hfit
      obtain ⟨inner, hreads, hinner⟩ := ih (Fit.behind hfit) hi
      refine ⟨inner, hreads, fun t ht => ?_⟩
      obtain ⟨hmem, hlexeme⟩ := hinner t ht
      exact ⟨List.mem_append_right _ hmem, hlexeme⟩

/-! ### Comments that trail -/

theorem agrees_lineComment {lines : LineIndex} {t : Token} {r : Row}
    (h : Agrees r (.statement (lineComment lines t))) :
    Row.lineComment t.text.tail (!t.startsLine) = r := by
  cases h with
  | statement h => exact (List.cons.inj h).1

/-- The row of an item tells where its tokens end a line and whether its comment trails. -/
theorem fit_behind_spans {lines : LineIndex} {tokens rest : List Token} {content : Content}
    (h : Spans lines tokens content) {b : Bool} (hfit : Fit b (tokens ++ rest)) {r : Row}
    (hr : Agrees r content) :
    (∀ trailing ∈ trailing? r, trailing = !b) ∧ Fit (lineStartBehind b r) rest := by
  cases h with
  | lineBreak hk =>
    obtain ⟨-, -, -, -, -, hrest⟩ := hfit
    cases hr with
    | statement h =>
      obtain rfl : Row.lineBreak = r := (List.cons.inj h).1
      exact ⟨by simp [trailing?], by simpa [hk, lineStartBehind] using hrest⟩
  | lineComment hk hu =>
    obtain ⟨hs, -, -, -, -, -, -, -, -, -, hrest⟩ := hfit
    obtain rfl := agrees_lineComment hr
    exact ⟨by simp [trailing?, hs], by simpa [hu, lineStartBehind] using hrest⟩
  | bracketComment hk =>
    obtain ⟨hs, -, -, -, -, hrest⟩ := hfit
    cases hr with
    | statement h =>
      obtain rfl := (List.cons.inj h).1
      exact ⟨by simp [trailing?, hs], by simpa [hk, lineStartBehind] using hrest⟩
  | @command t p q inner list span hk _ hp hq _ =>
    have hbehind : Fit false rest := by
      have hfit' : Fit b ((t :: p :: inner) ++ q :: rest) := by simpa using hfit
      simpa [hq] using Fit.behind hfit'
    cases hr <;> exact ⟨by simp [trailing?, Row.keyword], hbehind⟩

/-- The comments of a text without faults trail exactly if they do not start a line. -/
theorem anchored_of_spanned {lines : LineIndex} {tokens : List Token} {items : List Item}
    (h : Spanned lines tokens items) {b : Bool} (hfit : Fit b tokens) {rows : List Row}
    (hr : List.Forall₂ Agrees rows (items.map (·.content))) : Anchored b rows := by
  induction h generalizing b rows with
  | nil =>
    cases hr
    trivial
  | last hk hc _ =>
    obtain ⟨r, rows, hfirst, hrest, rfl⟩ := List.forall₂_cons_right_iff.mp hr
    cases hrest
    simp only [hc] at hfirst
    obtain rfl := agrees_lineComment hfirst
    exact ⟨by simp [trailing?, hfit.1], trivial⟩
  | cons hc _ _ ih =>
    cases hr with
    | cons hfirst hrest =>
      obtain ⟨htrailing, hfit'⟩ := fit_behind_spans hc hfit hfirst
      exact ⟨htrailing, ih hfit' hrest⟩

end Listfile.Parse
