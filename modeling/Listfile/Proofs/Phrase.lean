import Listfile.Proofs.Items

/-! A token stream as a sequence of phrases. A phrase is a line break, a comment,
or a command: a name, directly behind it an opening parenthesis, tokens with
balanced parentheses, and the closing parenthesis. A phrase carries the proof
that it is one. The tokens of a source without reports are those of some phrases
(`exists_phrases`), of no others (`flatMap_tokens_injective`), and in the other
direction phrases are read item by item without a report (`forall₂_readAs`). -/

namespace Listfile

theorem Token.Kind.eq_of_lone {k : Token.Kind} (h : k = .lineBreak ∨ k.isComment = true) :
    k = .lineBreak ∨ k = .lineComment ∨ k = .bracketComment := by
  cases k <;> simp_all [isComment]

namespace Parse

open Token

/-! ### Parentheses -/

/-- Tokens in which every parenthesis has its partner. -/
inductive Balanced : List Token → Prop
  | nil : Balanced []
  | token {t : Token} {ts : List Token} (ho : t.kind ≠ .openParen) (hc : t.kind ≠ .closeParen)
      (h : Balanced ts) : Balanced (t :: ts)
  | group {o c : Token} {inner ts : List Token} (ho : o.kind = .openParen)
      (hc : c.kind = .closeParen) (hi : Balanced inner) (h : Balanced ts) :
      Balanced (o :: (inner ++ c :: ts))

/-- The partner of a parenthesis is determined by what stands before it. -/
theorem Balanced.append_cons_inj {inner inner' rest rest' : List Token} {c c' : Token}
    (h : Balanced inner) (h' : Balanced inner') (hc : c.kind = .closeParen)
    (hc' : c'.kind = .closeParen) (heq : inner ++ c :: rest = inner' ++ c' :: rest') :
    inner = inner' ∧ c = c' ∧ rest = rest' := by
  induction h generalizing inner' c c' rest rest' with
  | nil =>
    cases h' with
    | nil => simpa using heq
    | token _ hnot _ => exact absurd ((List.cons.inj heq).1 ▸ hc) hnot
    | group ho _ _ _ =>
      rw [← (List.cons.inj heq).1, hc] at ho
      contradiction
  | token ho hnot _ ih =>
    cases h' with
    | nil => exact absurd ((List.cons.inj heq).1 ▸ hc') hnot
    | token _ _ h' =>
      rw [List.cons_append, List.cons_append, List.cons.injEq] at heq
      obtain ⟨rfl, heq⟩ := heq
      obtain ⟨rfl, hrest⟩ := ih h' hc hc' heq
      exact ⟨rfl, hrest⟩
    | group ho' _ _ _ => exact absurd ((List.cons.inj heq).1 ▸ ho') ho
  | group ho hclose _ _ ihi ih =>
    cases h' with
    | nil =>
      rw [(List.cons.inj heq).1, hc'] at ho
      contradiction
    | token ho' _ _ => exact absurd ((List.cons.inj heq).1 ▸ ho) ho'
    | group _ hclose' hi' h' =>
      simp only [List.cons_append, List.append_assoc, List.cons.injEq] at heq
      obtain ⟨rfl, heq⟩ := heq
      obtain ⟨rfl, rfl, hmore⟩ := ihi hi' hclose hclose' heq
      obtain ⟨rfl, hrest⟩ := ih h' hc hc' hmore
      exact ⟨rfl, hrest⟩

theorem Reads.balanced {lines : LineIndex} {tokens : List Token} {list : List Argument}
    (h : Reads lines tokens list) : Balanced tokens := by
  induction h with
  | nil => exact .nil
  | lineBreak hk _ ih => exact .token (by simp [hk]) (by simp [hk]) ih
  | leaf ha _ ih =>
    obtain ⟨ho, hc⟩ := kind_of_argument? ha
    exact .token ho hc ih
  | group ho hc _ _ ihi ih => exact .group ho hc ihi ih

/-- Balanced tokens stand for arguments. -/
theorem Balanced.exists_reads (lines : LineIndex) {tokens : List Token} (h : Balanced tokens)
    (hs : ∀ t ∈ tokens, isSignificant t = true) : ∃ list, Reads lines tokens list := by
  induction h with
  | nil => exact ⟨[], .nil⟩
  | @token t ts ho hc _ ih =>
    obtain ⟨ht, hs⟩ := List.forall_mem_cons.mp hs
    obtain ⟨list, hlist⟩ := ih hs
    by_cases hk : t.kind = .lineBreak
    · exact ⟨list, .lineBreak hk hlist⟩
    · obtain ⟨a, ha⟩ : ∃ a, argument? lines t = some a := by
        cases hkind : t.kind <;> simp_all [argument?, isSignificant]
      exact ⟨a :: list, .leaf ha hlist⟩
  | group ho hc _ _ ihi ih =>
    obtain ⟨-, hs⟩ := List.forall_mem_cons.mp hs
    obtain ⟨hinner, hrest⟩ := List.forall_mem_append.mp hs
    obtain ⟨xs, hxs⟩ := ihi hinner
    obtain ⟨list, hlist⟩ := ih (List.forall_mem_cons.mp hrest).2
    exact ⟨.group xs :: list, .group ho hc hxs hlist⟩

/-! ### Literals -/

/-- An unquoted, quoted or bracket argument stands among the tokens outside of all groups. -/
def HasLiteral (tokens : List Token) : Prop :=
  ∃ front t back, tokens = front ++ t :: back ∧ Balanced front ∧ t.kind.isArgument = true

theorem hasLiteral_cons {t : Token} (ho : t.kind ≠ .openParen) (hc : t.kind ≠ .closeParen)
    (ts : List Token) : HasLiteral (t :: ts) ↔ t.kind.isArgument = true ∨ HasLiteral ts := by
  constructor
  · rintro ⟨front, u, back, heq, hfront, hu⟩
    cases hfront with
    | nil =>
      obtain ⟨rfl, -⟩ := List.cons.inj heq
      exact .inl hu
    | token _ _ hfront =>
      obtain ⟨-, rfl⟩ := List.cons.inj heq
      exact .inr ⟨_, u, back, rfl, hfront, hu⟩
    | group ho' _ _ _ => exact absurd ((List.cons.inj heq).1 ▸ ho') ho
  · rintro (ht | ⟨front, u, back, rfl, hfront, hu⟩)
    · exact ⟨[], t, ts, rfl, .nil, ht⟩
    · exact ⟨t :: front, u, back, rfl, .token ho hc hfront, hu⟩

theorem hasLiteral_group {o c : Token} {inner : List Token} (ho : o.kind = .openParen)
    (hc : c.kind = .closeParen) (hi : Balanced inner) (ts : List Token) :
    HasLiteral (o :: (inner ++ c :: ts)) ↔ HasLiteral ts := by
  constructor
  · rintro ⟨front, u, back, heq, hfront, hu⟩
    cases hfront with
    | nil =>
      rw [← (List.cons.inj heq).1, ho] at hu
      contradiction
    | token ho' _ _ => exact absurd ((List.cons.inj heq).1 ▸ ho) ho'
    | group _ hc' hi' hfront =>
      simp only [List.cons_append, List.append_assoc, List.cons.injEq] at heq
      obtain ⟨-, -, rfl⟩ := hi.append_cons_inj hi' hc hc' heq.2
      exact ⟨_, u, back, rfl, hfront, hu⟩
  · rintro ⟨front, u, back, rfl, hfront, hu⟩
    exact ⟨o :: (inner ++ c :: front), u, back, by simp, .group ho hc hi hfront, hu⟩

theorem isSome_takeName_cons (a : Argument) (list : List Argument) :
    (takeName (a :: list)).isSome = (a.literal?.isSome || (takeName list).isSome) := by
  rw [takeName]
  cases a.literal? <;> simp

/-- Arguments hold the name of a definition exactly if their tokens hold a literal. -/
theorem isSome_takeName_iff {lines : LineIndex} {tokens : List Token} {list : List Argument}
    (h : Reads lines tokens list) : (takeName list).isSome = true ↔ HasLiteral tokens := by
  induction h with
  | nil => simp [takeName, HasLiteral]
  | lineBreak hk _ ih =>
    rw [hasLiteral_cons (by simp [hk]) (by simp [hk]), ih]
    simp [hk, Kind.isArgument]
  | @leaf t a ts as ha _ ih =>
    obtain ⟨ho, hc⟩ := kind_of_argument? ha
    have hliteral : a.literal?.isSome = t.kind.isArgument := by
      unfold argument? at ha
      cases hk : t.kind <;> simp only [hk] at ha <;> cases ha <;> rfl
    rw [isSome_takeName_cons, Bool.or_eq_true, hasLiteral_cons ho hc, ih, hliteral]
  | group ho hc hi _ _ ih =>
    rw [isSome_takeName_cons, Bool.or_eq_true, hasLiteral_group ho hc hi.balanced, ih]
    simp [Argument.literal?]

/-! ### Phrases -/

/-- The tokens of a command. -/
structure Call where
  name : Token
  opening : Token
  inner : List Token
  closing : Token
  name_kind : name.kind = .unquoted
  isIdentifier_name : isIdentifier name.text = true
  opening_kind : opening.kind = .openParen
  balanced_inner : Balanced inner
  closing_kind : closing.kind = .closeParen

def Call.tokens (c : Call) : List Token := c.name :: c.opening :: (c.inner ++ [c.closing])

/-- The name of a command does not depend on the case of its letters. -/
def Call.key (c : Call) : Text := c.name.text.lower

theorem spelling_of_ofName? {name : Text} {k : Keyword} (h : Keyword.ofName? name = some k) :
    name = k.spelling := by
  have := List.find?_some h
  simpa [eq_comm] using this

/-- A line break, a comment or a command, as tokens. -/
inductive Phrase
  | lone (t : Token) (h : t.kind = .lineBreak ∨ t.kind.isComment = true)
  | command (c : Call)

namespace Phrase

def tokens : Phrase → List Token
  | .lone t _ => [t]
  | .command c => c.tokens

def call? : Phrase → Option Call
  | .lone _ _ => none
  | .command c => some c

def isLineBreak : Phrase → Bool
  | .lone t _ => t.kind = .lineBreak
  | .command _ => false

def isLineComment : Phrase → Bool
  | .lone t _ => t.kind = .lineComment
  | .command _ => false

/-- Phrases without the line breaks that end line comments; `behind` says whether a line comment
stands right before the first. -/
def dropEndings (behind : Bool) : List Phrase → List Phrase
  | [] => []
  | p :: rest =>
    if behind && p.isLineBreak then dropEndings false rest
    else p :: dropEndings p.isLineComment rest

theorem tokens_append_inj {p q : Phrase} {rest rest' : List Token}
    (h : p.tokens ++ rest = q.tokens ++ rest') : p = q ∧ rest = rest' := by
  cases p with
  | lone t ht =>
    cases q with
    | lone u hu =>
      obtain ⟨rfl, hrest⟩ := List.cons.inj h
      exact ⟨rfl, hrest⟩
    | command c =>
      rw [(List.cons.inj h).1, c.name_kind] at ht
      simp [Kind.isComment] at ht
  | command c =>
    cases q with
    | lone u hu =>
      rw [← (List.cons.inj h).1, c.name_kind] at hu
      simp [Kind.isComment] at hu
    | command d =>
      obtain ⟨name, opening, inner, closing, _, _, _, hinner, hclosing⟩ := c
      obtain ⟨name', opening', inner', closing', _, _, _, hinner', hclosing'⟩ := d
      simp only [tokens, Call.tokens, List.cons_append, List.append_assoc, List.nil_append,
        List.cons.injEq] at h
      obtain ⟨rfl, rfl, h⟩ := h
      obtain ⟨rfl, rfl, hrest⟩ := hinner.append_cons_inj hinner' hclosing hclosing' h
      exact ⟨rfl, hrest⟩

theorem tokens_ne_nil (p : Phrase) : p.tokens ≠ [] := by
  cases p <;> simp [tokens, Call.tokens]

/-- Tokens are those of one sequence of phrases at most. -/
theorem flatMap_tokens_injective {ps qs : List Phrase}
    (h : ps.flatMap tokens = qs.flatMap tokens) : ps = qs := by
  induction ps generalizing qs with
  | nil =>
    cases qs with
    | nil => rfl
    | cons q qs => simp [tokens_ne_nil] at h
  | cons p ps ih =>
    cases qs with
    | nil => simp [tokens_ne_nil] at h
    | cons q qs =>
      obtain ⟨rfl, hrest⟩ := tokens_append_inj h
      rw [ih hrest]

end Phrase

/-- The command that the tokens of a call are read as. -/
structure Call.ReadAs (lines : LineIndex) (call : Call) (c : Command) : Prop where
  identifier_eq : c.identifier = call.name.text
  reads : Reads lines call.inner c.arguments
  location_eq : c.location = lines.location call.name.span.start

theorem Call.ReadAs.key_eq {lines : LineIndex} {call : Call} {c : Command}
    (h : call.ReadAs lines c) : call.key = c.name := by
  rw [Call.key, Command.name, h.identifier_eq]

theorem Spans.exists_calls {lines : LineIndex} {tokens : List Token} {content : Content}
    (h : Spans lines tokens content) : ∃ ps : List Phrase, tokens = ps.flatMap Phrase.tokens ∧
      List.Forall₂ (Call.ReadAs lines) (ps.filterMap Phrase.call?) content.command?.toList := by
  cases h with
  | lineBreak hk => exact ⟨[.lone _ (.inl hk)], rfl, .nil⟩
  | lineComment hk hu =>
    exact ⟨[.lone _ (.inr (by simp [hk, Kind.isComment])), .lone _ (.inl hu)], rfl, .nil⟩
  | bracketComment hk =>
    exact ⟨[.lone _ (.inr (by simp [hk, Kind.isComment]))], rfl, .nil⟩
  | command hk hname hp hq hi =>
    exact ⟨[.command ⟨_, _, _, _, hk, hname, hp, hi.balanced, hq⟩],
      by simp [Phrase.tokens, Call.tokens], .cons ⟨rfl, hi, rfl⟩ .nil⟩

/-- The commands of items without a report are read from the calls among their phrases. -/
theorem Spanned.exists_calls {lines : LineIndex} {tokens : List Token} {items : List Item}
    (h : Spanned lines tokens items) : ∃ ps : List Phrase, tokens = ps.flatMap Phrase.tokens ∧
      List.Forall₂ (Call.ReadAs lines) (ps.filterMap Phrase.call?)
        (items.filterMap (·.content.command?)) := by
  induction h with
  | nil => exact ⟨[], rfl, .nil⟩
  | @last t i hk hc _ =>
    have hnone : [i].filterMap (·.content.command?) = [] :=
      List.filterMap_cons_none (by rw [hc]; rfl)
    refine ⟨[.lone t (.inr (by simp [hk, Kind.isComment]))], rfl, ?_⟩
    rw [hnone]
    exact .nil
  | @cons ts rest i is hc _ _ ih =>
    obtain ⟨ps, rfl, hps⟩ := hc.exists_calls
    obtain ⟨qs, rfl, hqs⟩ := ih
    refine ⟨ps ++ qs, List.flatMap_append.symm, ?_⟩
    have hcommands : (i :: is).filterMap (·.content.command?) =
        i.content.command?.toList ++ is.filterMap (·.content.command?) := by
      rw [List.filterMap_cons]
      cases i.content.command? <;> rfl
    rw [List.filterMap_append, hcommands]
    exact List.rel_append hps hqs

/-- The tokens of items without a report are those of phrases. -/
theorem Spanned.exists_phrases {lines : LineIndex} {tokens : List Token} {items : List Item}
    (h : Spanned lines tokens items) : ∃ ps : List Phrase, tokens = ps.flatMap Phrase.tokens := by
  obtain ⟨ps, heq, -⟩ := h.exists_calls
  exact ⟨ps, heq⟩

/-! ### Phrases as items -/

/-- What a phrase is read as. -/
inductive Phrase.ReadAs (lines : LineIndex) : Phrase → Content → Prop
  | lineBreak {t : Token} {h : t.kind = .lineBreak ∨ t.kind.isComment = true}
      (hk : t.kind = .lineBreak) : ReadAs lines (.lone t h)
        (.statement (.lineBreak (some (lines.location t.span.start))))
  | lineComment {t : Token} {h : t.kind = .lineBreak ∨ t.kind.isComment = true}
      (hk : t.kind = .lineComment) :
      ReadAs lines (.lone t h) (.statement (Parse.lineComment lines t))
  | bracketComment {t : Token} {h : t.kind = .lineBreak ∨ t.kind.isComment = true}
      (hk : t.kind = .bracketComment) :
      ReadAs lines (.lone t h) (.statement (Parse.bracketComment lines t))
  | command {call : Call} {c : Command} (hc : c.identifier = call.name.text)
      (hi : Reads lines call.inner c.arguments) : ReadAs lines (.command call) (.command c)

/-- A phrase is read as one item; a line comment takes the line break behind it along. -/
theorem Phrase.exists_items_eq (lines : LineIndex) (stop : Span) {p : Phrase}
    (hs : ∀ t ∈ p.tokens, isSignificant t = true) (rest : List Token) :
    ∃ i : Item, items lines stop (p.tokens ++ rest) =
        i :: items lines stop (if p.isLineComment then dropLineBreak rest else rest) ∧
      p.ReadAs lines i.content ∧ i.faults = [] := by
  cases p with
  | lone t h =>
    rw [Phrase.tokens, List.singleton_append, items]
    rcases Kind.eq_of_lone h with hk | hk | hk
    · simp only [step, hk, Phrase.isLineComment]
      exact ⟨_, rfl, .lineBreak hk, rfl⟩
    · simp only [step, hk, Phrase.isLineComment]
      exact ⟨_, rfl, .lineComment hk, rfl⟩
    · simp only [step, hk, Phrase.isLineComment]
      exact ⟨_, rfl, .bracketComment hk, rfl⟩
  | command c =>
    obtain ⟨list, hlist⟩ := c.balanced_inner.exists_reads lines fun t ht =>
      hs t (by simp [Phrase.tokens, Call.tokens, ht])
    have henclosed := enclosed_of_reads_close hlist stop c.opening c.closing_kind rest
    rw [Phrase.tokens, Call.tokens, List.cons_append, List.cons_append, List.append_assoc,
      List.singleton_append, items]
    simp only [step, c.name_kind, commandStep, c.isIdentifier_name, c.opening_kind, if_true,
      henclosed, Phrase.isLineComment]
    exact ⟨_, rfl, .command rfl hlist, rfl⟩

/-- Only at a line break is there something to drop. -/
theorem Phrase.dropLineBreak_tokens {p : Phrase} (h : p.isLineBreak = false) (rest : List Token) :
    dropLineBreak (p.tokens ++ rest) = p.tokens ++ rest := by
  cases p with
  | lone t _ =>
    have hk : t.kind ≠ .lineBreak := by simpa [Phrase.isLineBreak] using h
    exact if_neg hk
  | command c => exact if_neg (by simp [c.name_kind])

/-- Phrases are read without a report, one item for each but for the line breaks that end line
comments. -/
theorem forall₂_readAs (lines : LineIndex) (stop : Span) {ps : List Phrase}
    (hs : ∀ t ∈ ps.flatMap Phrase.tokens, isSignificant t = true) (behind : Bool) :
    List.Forall₂ (fun (p : Phrase) (i : Item) => p.ReadAs lines i.content ∧ i.faults = [])
      (Phrase.dropEndings behind ps)
      (items lines stop
        (if behind then dropLineBreak (ps.flatMap Phrase.tokens)
          else ps.flatMap Phrase.tokens)) := by
  induction ps generalizing behind with
  | nil =>
    have hnil : (if behind then dropLineBreak [] else []) = [] := by cases behind <;> rfl
    rw [List.flatMap_nil, hnil, items]
    exact .nil
  | cons p ps ih =>
    rw [List.flatMap_cons] at hs ⊢
    obtain ⟨hp, hps⟩ := List.forall_mem_append.mp hs
    rw [Phrase.dropEndings]
    split
    · next hend =>
      obtain ⟨rfl, hbreak⟩ : behind = true ∧ p.isLineBreak = true := by simpa using hend
      cases p with
      | command => contradiction
      | lone t h =>
        have hk : t.kind = .lineBreak := by simpa [Phrase.isLineBreak] using hbreak
        simpa [Phrase.tokens, dropLineBreak, hk] using ih hps false
    · next hend =>
      have hkeep : (if behind then dropLineBreak (p.tokens ++ ps.flatMap Phrase.tokens)
          else p.tokens ++ ps.flatMap Phrase.tokens) = p.tokens ++ ps.flatMap Phrase.tokens := by
        cases behind with
        | false => rfl
        | true => exact Phrase.dropLineBreak_tokens (by simpa using hend) _
      obtain ⟨i, hitems, hread, hfaults⟩ :=
        Phrase.exists_items_eq lines stop hp (ps.flatMap Phrase.tokens)
      rw [hkeep, hitems]
      exact .cons ⟨hread, hfaults⟩ (ih hps p.isLineComment)

end Parse

end Listfile
