import Listfile.Proofs.Nesting
import Listfile.Proofs.Phrase
import Listfile.Proofs.Places

/-! What formatting can see of a text. The gist of a token stream leaves out
spaces, line breaks inside parentheses, and how a line is broken. A text without
faults is a sequence of phrases, and its gist is spelled by these phrases without
the line breaks in their parentheses. No other phrases spell the same, and what
is left of a phrase decides all that it is read to but the places
(`Phrase.Alike.relocate_eq`), which are not written. So two texts with one gist
are formatted to one text (`format_of_gist_eq`). -/

namespace Listfile

open Parse Layout

namespace Token

/-- The kind and the text of a token, with one text for all line breaks. -/
def entry (t : Token) : Kind × Text := (t.kind, if t.kind = .lineBreak then [] else t.text)

/-- The entries of tokens, without spaces and without line breaks inside parentheses, of which
`level` are open before the first token. -/
def gist (level : Nat) : List Token → List (Kind × Text)
  | [] => []
  | t :: rest =>
    if !isSignificant t || (t.kind = .lineBreak && 0 < level) then
      gist (parenLevel level t) rest
    else t.entry :: gist (parenLevel level t) rest

/-- A token with a given entry. -/
def ofEntry (e : Kind × Text) : Token := ⟨e.1, e.2, .point 0, false, false, true⟩

/-- A token with nothing but its entry. -/
def bare (t : Token) : Token := ofEntry t.entry

/-- Tokens inside parentheses with nothing but their entries, and without line breaks. -/
def bareInner (tokens : List Token) : List Token :=
  (tokens.filter (·.kind ≠ .lineBreak)).map bare

@[simp] theorem kind_bare (t : Token) : t.bare.kind = t.kind := rfl

theorem text_bare {t : Token} (h : t.kind ≠ .lineBreak) : t.bare.text = t.text := if_neg h

theorem entry_bare (t : Token) : t.bare.entry = t.entry := by
  unfold bare entry ofEntry
  split <;> simp [*]

theorem parenLevel_of_not_isSignificant {t : Token} (h : isSignificant t = false) (level : Nat) :
    parenLevel level t = level := by
  apply parenLevel_of_ne <;> intro hk <;> simp [isSignificant, hk] at h

/-- The gist of a text is that of the tokens that carry structure. -/
theorem gist_filter (level : Nat) (tokens : List Token) :
    gist level (tokens.filter isSignificant) = gist level tokens := by
  induction tokens generalizing level with
  | nil => rfl
  | cons t rest ih =>
    cases ht : isSignificant t with
    | true => rw [List.filter_cons_of_pos ht, gist, gist, ih]
    | false =>
      rw [List.filter_cons_of_neg (by simp [ht]), gist, ht, ih,
        parenLevel_of_not_isSignificant ht]
      rfl

theorem gist_cons {t : Token} (hs : isSignificant t = true) {level : Nat}
    (h : t.kind = .lineBreak → level = 0) (rest : List Token) :
    gist level (t :: rest) = t.entry :: gist (parenLevel level t) rest := by
  rw [gist, hs, if_neg]
  simpa [imp_iff_not_or] using h

theorem bareInner_cons {t : Token} (h : t.kind ≠ .lineBreak) (rest : List Token) :
    bareInner (t :: rest) = t.bare :: bareInner rest := by
  simp [bareInner, h]

theorem bareInner_lineBreak {t : Token} (h : t.kind = .lineBreak) (rest : List Token) :
    bareInner (t :: rest) = bareInner rest := by
  simp [bareInner, h]

theorem bareInner_group {o c : Token} (ho : o.kind = .openParen) (hc : c.kind = .closeParen)
    (inner rest : List Token) : bareInner (o :: (inner ++ c :: rest)) =
      o.bare :: (bareInner inner ++ c.bare :: bareInner rest) := by
  simp [bareInner, ho, hc]

end Token

open Token

/-! ### Parentheses -/

theorem Parse.Balanced.bareInner {tokens : List Token} (h : Balanced tokens) :
    Balanced (bareInner tokens) := by
  induction h with
  | nil => exact .nil
  | @token t ts ho hc _ ih =>
    by_cases hk : t.kind = .lineBreak
    · rwa [bareInner_lineBreak hk]
    · rw [bareInner_cons hk]
      exact .token ho hc ih
  | group ho hc _ _ ihi ih =>
    rw [bareInner_group ho hc]
    exact .group ho hc ihi ih

/-- Balanced tokens inside parentheses. -/
theorem gist_append_of_balanced {tokens : List Token} (h : Balanced tokens)
    (hs : ∀ t ∈ tokens, isSignificant t = true) (level : Nat) (rest : List Token) :
    gist (level + 1) (tokens ++ rest) =
      (bareInner tokens).map entry ++ gist (level + 1) rest := by
  induction h generalizing level rest with
  | nil => rfl
  | @token t ts ho hc _ ih =>
    obtain ⟨ht, hts⟩ := List.forall_mem_cons.mp hs
    have hlevel := parenLevel_of_ne ho hc (level + 1)
    rw [List.cons_append]
    by_cases hk : t.kind = .lineBreak
    · rw [gist, ht, hk, bareInner_lineBreak hk, hlevel, ih hts]
      rfl
    · rw [gist_cons ht (by simp [hk]), bareInner_cons hk, hlevel, ih hts, List.map_cons,
        entry_bare, List.cons_append]
  | @group o c inner ts ho hc _ _ ihi ih =>
    obtain ⟨hopen, hrest⟩ := List.forall_mem_cons.mp hs
    obtain ⟨hinner, hmore⟩ := List.forall_mem_append.mp hrest
    obtain ⟨hclose, hts⟩ := List.forall_mem_cons.mp hmore
    have hup : parenLevel (level + 1) o = level + 1 + 1 := by simp [parenLevel, ho]
    have hdown : parenLevel (level + 1 + 1) c = level + 1 := by simp [parenLevel, hc]
    rw [bareInner_group ho hc, List.cons_append, List.append_assoc, List.cons_append,
      gist_cons hopen (by simp [ho]), hup, ihi hinner, gist_cons hclose (by simp [hc]), hdown,
      ih hts]
    simp [entry_bare]

/-- The gist of tokens nests as deeply as the tokens do. -/
theorem parenDepth_gist (level : Nat) (tokens : List Token) :
    parenDepth level ((gist level tokens).map ofEntry) = parenDepth level tokens := by
  induction tokens generalizing level with
  | nil => rfl
  | cons t rest ih =>
    rw [gist]
    split
    · next hdrop =>
      have hlevel : parenLevel level t = level := by
        apply parenLevel_of_ne <;> intro hk <;> simp [isSignificant, hk] at hdrop
      rw [parenDepth, hlevel, ih, Nat.max_eq_right (le_parenDepth level rest)]
    · rw [List.map_cons, parenDepth, parenDepth, ← ih]
      rfl

/-! ### Phrases -/

/-- A command with nothing but the entries of its tokens. -/
def Parse.Call.bare (c : Call) : Call where
  name := c.name.bare
  opening := c.opening.bare
  inner := bareInner c.inner
  closing := c.closing.bare
  name_kind := c.name_kind
  isIdentifier_name := by
    rw [text_bare (by simp [c.name_kind])]
    exact c.isIdentifier_name
  opening_kind := c.opening_kind
  balanced_inner := c.balanced_inner.bareInner
  closing_kind := c.closing_kind

/-- A phrase with nothing but the entries of its tokens. -/
def Parse.Phrase.bare : Phrase → Phrase
  | .lone t h => .lone t.bare h
  | .command c => .command c.bare

theorem Parse.Phrase.isLineBreak_bare (p : Phrase) : p.bare.isLineBreak = p.isLineBreak := by
  cases p <;> rfl

theorem Parse.Phrase.isLineComment_bare (p : Phrase) : p.bare.isLineComment = p.isLineComment := by
  cases p <;> rfl

theorem gist_phrase {p : Phrase} (hs : ∀ t ∈ p.tokens, isSignificant t = true)
    (rest : List Token) : gist 0 (p.tokens ++ rest) = p.bare.tokens.map entry ++ gist 0 rest := by
  cases p with
  | lone t h =>
    have hlevel : parenLevel 0 t = 0 := by
      rcases Kind.eq_of_lone h with hk | hk | hk <;> simp [parenLevel, hk]
    rw [Phrase.tokens, List.singleton_append, gist_cons (hs t (by simp [Phrase.tokens]))
      (fun _ => rfl), hlevel]
    simp [Phrase.bare, Phrase.tokens, entry_bare]
  | command c =>
    have hname : parenLevel 0 c.name = 0 := by simp [parenLevel, c.name_kind]
    have hup : parenLevel 0 c.opening = 0 + 1 := by simp [parenLevel, c.opening_kind]
    have hdown : parenLevel (0 + 1) c.closing = 0 := by simp [parenLevel, c.closing_kind]
    have hmem : ∀ t ∈ c.tokens, isSignificant t = true := hs
    rw [Phrase.tokens, Call.tokens, List.cons_append, List.cons_append, List.append_assoc,
      List.singleton_append, gist_cons (hmem _ (by simp [Call.tokens])) (fun _ => rfl), hname,
      gist_cons (hmem _ (by simp [Call.tokens])) (fun _ => rfl), hup,
      gist_append_of_balanced c.balanced_inner (fun t ht => hmem t (by simp [Call.tokens, ht])),
      gist_cons (hmem _ (by simp [Call.tokens])) (by simp [c.closing_kind]), hdown]
    simp [Phrase.bare, Phrase.tokens, Call.bare, Call.tokens, entry_bare]

/-- Phrases that have nothing but the entries of their tokens are spelled by these. -/
theorem map_ofEntry_bare (p : Phrase) :
    p.bare.tokens.map (ofEntry ∘ entry) = p.bare.tokens := by
  have hbare (t : Token) : ofEntry (entry t.bare) = t.bare := by
    rw [entry_bare]
    rfl
  cases p with
  | lone t h => simp [Phrase.bare, Phrase.tokens, hbare]
  | command c => simp [Phrase.bare, Phrase.tokens, Call.bare, Call.tokens, bareInner, hbare]

/-- The gist of phrases is spelled by the phrases without the line breaks in their parentheses. -/
theorem gist_phrases {ps : List Phrase}
    (hs : ∀ t ∈ ps.flatMap Phrase.tokens, isSignificant t = true) :
    (gist 0 (ps.flatMap Phrase.tokens)).map ofEntry =
      (ps.map Phrase.bare).flatMap Phrase.tokens := by
  induction ps with
  | nil => rfl
  | cons p ps ih =>
    rw [List.flatMap_cons] at hs ⊢
    obtain ⟨hp, hps⟩ := List.forall_mem_append.mp hs
    rw [gist_phrase hp, List.map_append, List.map_map, map_ofEntry_bare, ih hps, List.map_cons,
      List.flatMap_cons]

/-! ### Phrases of one gist -/

namespace Parse

/-- The first token of a phrase. -/
def Phrase.first : Phrase → Token
  | .lone t _ => t
  | .command c => c.name

/-- Two phrases that differ at most in places and in the line breaks inside parentheses. -/
def Phrase.Alike (p q : Phrase) : Prop :=
  p.bare = q.bare ∧ p.first.startsLine = q.first.startsLine

theorem Phrase.Alike.isLineBreak {p q : Phrase} (h : p.Alike q) :
    p.isLineBreak = q.isLineBreak := by
  rw [← isLineBreak_bare, h.1, isLineBreak_bare]

theorem Phrase.Alike.isLineComment {p q : Phrase} (h : p.Alike q) :
    p.isLineComment = q.isLineComment := by
  rw [← isLineComment_bare, h.1, isLineComment_bare]

/-- Behind a phrase a line starts if the phrase is a line break. -/
theorem Phrase.fit {b : Bool} {p : Phrase} {rest : List Token} (h : Fit b (p.tokens ++ rest)) :
    p.first.startsLine = b ∧ Fit p.isLineBreak rest := by
  cases p with
  | lone t ht => exact ⟨h.1, h.2.2.2.2.2⟩
  | command c =>
    have hend : Fit b ((c.name :: c.opening :: c.inner) ++ c.closing :: rest) := by
      simpa [Phrase.tokens, Call.tokens] using h
    have hrest := Fit.behind hend
    rw [c.closing_kind] at hrest
    exact ⟨h.1, hrest⟩

/-- Phrases of one gist are alike, one by one. -/
theorem forall₂_alike {ps qs : List Phrase} {b : Bool} (hp : Fit b (ps.flatMap Phrase.tokens))
    (hq : Fit b (qs.flatMap Phrase.tokens)) (h : ps.map Phrase.bare = qs.map Phrase.bare) :
    List.Forall₂ Phrase.Alike ps qs := by
  induction ps generalizing qs b with
  | nil =>
    obtain rfl : qs = [] := by simpa [eq_comm] using h
    exact .nil
  | cons p ps ih =>
    cases qs with
    | nil => simp at h
    | cons q qs =>
      obtain ⟨hbare, hrest⟩ := List.cons.inj h
      obtain ⟨hpfirst, hps⟩ := Phrase.fit hp
      obtain ⟨hqfirst, hqs⟩ := Phrase.fit hq
      have halike : p.Alike q := ⟨hbare, hpfirst.trans hqfirst.symm⟩
      exact .cons halike (ih hps (halike.isLineBreak ▸ hqs) hrest)

theorem forall₂_dropEndings {ps qs : List Phrase} (h : List.Forall₂ Phrase.Alike ps qs)
    (behind : Bool) :
    List.Forall₂ Phrase.Alike (Phrase.dropEndings behind ps) (Phrase.dropEndings behind qs) := by
  induction h generalizing behind with
  | nil => exact .nil
  | cons hpq _ ih =>
    rw [Phrase.dropEndings, Phrase.dropEndings, ← hpq.isLineBreak, ← hpq.isLineComment]
    split
    · exact ih false
    · exact .cons hpq (ih _)

/-! ### What alike phrases are read as -/

/-- The place of everything that has lost its place. -/
def nowhere : Location := ⟨1, 0, Nat.le_refl 1⟩

/-- An item without places. -/
def Item.unplaced (i : Item) : Item := i.relocate (fun _ => nowhere) fun _ => .point 0

theorem argument?_bare (lines : LineIndex) (t : Token) :
    argument? ⟨[]⟩ t.bare = (argument? lines t).map (Argument.relocate fun _ => nowhere) := by
  by_cases hk : t.kind = .lineBreak
  · simp [argument?, hk]
  · simp only [argument?, kind_bare, text_bare hk]
    split <;> rfl

/-- Tokens with nothing but their entries stand for the arguments without their places. -/
theorem reads_bareInner {lines : LineIndex} {tokens : List Token} {list : List Argument}
    (h : Reads lines tokens list) :
    Reads ⟨[]⟩ (bareInner tokens) (Argument.relocateAll (fun _ => nowhere) list) := by
  induction h with
  | nil => exact .nil
  | lineBreak hk _ ih => rwa [bareInner_lineBreak hk]
  | @leaf t a ts as ha _ ih =>
    have hk : t.kind ≠ .lineBreak := fun hk => by simp [argument?, hk] at ha
    rw [bareInner_cons hk]
    exact .leaf (by rw [argument?_bare lines, ha]; rfl) ih
  | group ho hc _ _ ihi ih =>
    rw [bareInner_group ho hc]
    exact .group ho hc ihi ih

/-- Tokens stand for one argument list only. -/
theorem Reads.unique {lines : LineIndex} {tokens : List Token} {as bs : List Argument}
    (h : Reads lines tokens as) (h' : Reads lines tokens bs) : as = bs := by
  let close : Token := ⟨.closeParen, [')'], .point 0, false, false, true⟩
  have has := enclosed_of_reads_close h (.point 0) close (c := close) rfl []
  have hbs := enclosed_of_reads_close h' (.point 0) close (c := close) rfl []
  exact congrArg Enclosed.arguments (has.symm.trans hbs)

theorem entry_eq_of_bare {t u : Token} (h : t.bare = u.bare) :
    t.kind = u.kind ∧ (t.kind ≠ .lineBreak → t.text = u.text) := by
  have hkind : t.bare.kind = u.bare.kind := by rw [h]
  refine ⟨hkind, fun hk => ?_⟩
  have hk' : u.kind ≠ .lineBreak := fun hu => hk (hkind.trans hu)
  rw [← text_bare hk, h, text_bare hk']

/-- Alike phrases are read to the same, but for its places. -/
theorem Phrase.Alike.relocate_eq {lines lines' : LineIndex} {p q : Phrase} (h : p.Alike q)
    {content content' : Content} (hp : p.ReadAs lines content)
    (hq : q.ReadAs lines' content') :
    content.relocate (fun _ => nowhere) (fun _ => .point 0) =
      content'.relocate (fun _ => nowhere) (fun _ => .point 0) := by
  obtain ⟨hbare, hstarts⟩ := h
  cases p with
  | lone t ht =>
    cases q with
    | command d => simp [Phrase.bare] at hbare
    | lone u hu =>
      obtain ⟨hkind, htext⟩ := entry_eq_of_bare (Phrase.lone.inj hbare)
      replace hstarts : t.startsLine = u.startsLine := hstarts
      cases hp with
      | lineBreak hk =>
        cases hq with
        | lineBreak _ => rfl
        | lineComment hk' => simp [hk, hk'] at hkind
        | bracketComment hk' => simp [hk, hk'] at hkind
      | lineComment hk =>
        cases hq with
        | lineBreak hk' => simp [hk, hk'] at hkind
        | lineComment _ =>
          simp [Content.relocate, Parse.lineComment, Statement.relocate, htext (by simp [hk]),
            hstarts]
        | bracketComment hk' => simp [hk, hk'] at hkind
      | bracketComment hk =>
        cases hq with
        | lineBreak hk' => simp [hk, hk'] at hkind
        | lineComment hk' => simp [hk, hk'] at hkind
        | bracketComment _ =>
          simp [Content.relocate, Parse.bracketComment, Statement.relocate, htext (by simp [hk]),
            hstarts]
  | command c =>
    cases q with
    | lone u hu => simp [Phrase.bare] at hbare
    | command d =>
      have hcall : c.bare = d.bare := Phrase.command.inj hbare
      obtain ⟨-, hname⟩ := entry_eq_of_bare (congrArg Call.name hcall)
      have hinner : bareInner c.inner = bareInner d.inner := congrArg Call.inner hcall
      cases hp with
      | command hc hi =>
        cases hq with
        | command hd hj =>
          have harguments := (reads_bareInner hi).unique (hinner ▸ reads_bareInner hj)
          simp [Content.relocate, Command.relocate, harguments, hc, hd,
            hname (by simp [c.name_kind])]

theorem Phrase.Alike.unplaced_eq {lines lines' : LineIndex} {p q : Phrase} (h : p.Alike q)
    {i j : Item} (hi : p.ReadAs lines i.content ∧ i.faults = [])
    (hj : q.ReadAs lines' j.content ∧ j.faults = []) : i.unplaced = j.unplaced := by
  simp only [Item.unplaced, Item.relocate, h.relocate_eq hi.1 hj.1, hi.2, hj.2]

/-- Texts of one gist are read to the same, but for its places. -/
theorem map_unplaced_items {lines lines' : LineIndex} {stop stop' : Span} {ps qs : List Phrase}
    (hp : Fit true (ps.flatMap Phrase.tokens)) (hq : Fit true (qs.flatMap Phrase.tokens))
    (h : ps.map Phrase.bare = qs.map Phrase.bare) :
    (items lines stop (ps.flatMap Phrase.tokens)).map Item.unplaced =
      (items lines' stop' (qs.flatMap Phrase.tokens)).map Item.unplaced := by
  have halike := forall₂_dropEndings (forall₂_alike hp hq h) false
  have hreadp := forall₂_readAs lines stop (Fit.isSignificant hp) false
  have hreadq := forall₂_readAs lines' stop' (Fit.isSignificant hq) false
  have hitems := forall₂_trans (S := fun i j => i.unplaced = j.unplaced)
    (fun i q j hi hj => hi j hj)
    (forall₂_trans (S := fun i q => ∀ j : Item, q.ReadAs lines' j.content ∧ j.faults = [] →
        i.unplaced = j.unplaced)
      (fun i p q hi hpq j hj => hpq.unplaced_eq hi hj) hreadp.flip halike) hreadq
  rw [← List.forall₂_eq_eq_eq, List.forall₂_map_left_iff, List.forall₂_map_right_iff]
  exact hitems

end Parse

/-! ### Writing without places -/

mutual

theorem Argument.plain_relocate (f : Location → Location) (g : Text → Text) :
    ∀ a : Argument, (a.relocate f).plain g = a.plain g
  | .unquoted _ | .quoted _ | .bracket _ _ _ | .lineComment _ _ | .bracketComment _ _ _
  | .unknown => rfl
  | .group arguments => by
    rw [Argument.relocate, Argument.plain, Argument.plain, Argument.plainAll_relocateAll f g]

theorem Argument.plainAll_relocateAll (f : Location → Location) (g : Text → Text) :
    ∀ list : List Argument,
      Argument.plainAll g (Argument.relocateAll f list) = Argument.plainAll g list
  | [] => rfl
  | a :: rest => by
    rw [Argument.relocateAll, Argument.plainAll, Argument.plainAll, Argument.plain_relocate f g a,
      Argument.plainAll_relocateAll f g rest]

end

theorem Row.plain_keyword (g : Text → Text) (k : Keyword) (list : List Argument) :
    (Row.keyword k list).plain g = .keyword k (Argument.plainAll g list) := rfl

mutual

/-- Rows have no places but those in their arguments. -/
theorem Statement.rows_relocate (f : Location → Location) (g : Text → Text) :
    ∀ s : Statement, (s.relocate f).rows.map (Row.plain g) = s.rows.map (Row.plain g)
  | .lineBreak _ | .lineComment _ _ _ | .bracketComment _ _ _ _ | .bracket _ _ _
  | .unknown => rfl
  | .command name arguments _ => by
    simp only [Statement.relocate, Statement.rows, List.map_cons, Row.plain,
      Argument.plainAll_relocateAll]
  | .definition kind name arguments body _ => by
    simp only [Statement.relocate, Statement.rows, List.map_cons, List.map_append,
      Row.plain_keyword, Argument.plainAll, Argument.plainAll_relocateAll,
      Statement.rowsAll_relocateAll f g body]
  | .conditional head elseifs none => by
    simp only [Statement.relocate, Statement.rows, List.map_append,
      Branch.rows_relocate f g _ head, Branch.rowsAll_relocateAll f g elseifs]
  | .conditional head elseifs (some arm) => by
    simp only [Statement.relocate, Statement.rows, List.map_append,
      Branch.rows_relocate f g _ head, Branch.rowsAll_relocateAll f g elseifs,
      Branch.rows_relocate f g _ arm]
  | .loop kind arguments body _ => by
    simp only [Statement.relocate, Statement.rows, List.map_cons, List.map_append,
      Row.plain_keyword, Argument.plainAll_relocateAll, Statement.rowsAll_relocateAll f g body]

theorem Statement.rowsAll_relocateAll (f : Location → Location) (g : Text → Text) :
    ∀ list : List Statement,
      (Statement.rowsAll (Statement.relocateAll f list)).map (Row.plain g) =
        (Statement.rowsAll list).map (Row.plain g)
  | [] => rfl
  | s :: rest => by
    simp only [Statement.relocateAll, Statement.rowsAll, List.map_append,
      Statement.rows_relocate f g s, Statement.rowsAll_relocateAll f g rest]

theorem Branch.rows_relocate (f : Location → Location) (g : Text → Text) (k : Keyword) :
    ∀ b : Branch, ((b.relocate f).rows k).map (Row.plain g) = (b.rows k).map (Row.plain g)
  | .mk predicate body _ => by
    simp only [Branch.relocate, Branch.rows, List.map_cons, Row.plain_keyword,
      Argument.plainAll_relocateAll, Statement.rowsAll_relocateAll f g body]

theorem Branch.rowsAll_relocateAll (f : Location → Location) (g : Text → Text) :
    ∀ list : List Branch,
      (Branch.rowsAll (Branch.relocateAll f list)).map (Row.plain g) =
        (Branch.rowsAll list).map (Row.plain g)
  | [] => rfl
  | b :: rest => by
    simp only [Branch.relocateAll, Branch.rowsAll, List.map_append,
      Branch.rows_relocate f g _ b, Branch.rowsAll_relocateAll f g rest]

end

/-- Where its parts come from does not matter to how a tree is written. -/
theorem Layout.statements_relocateAll (s : Style) (f : Location → Location)
    (list : List Statement) : statements s (Statement.relocateAll f list) = statements s list := by
  rw [statements_eq_verbatim, statements_eq_verbatim, ← verbatim_map_plain, ← settle_map_plain,
    Statement.rowsAll_relocateAll, settle_map_plain, verbatim_map_plain]

/-! ### Texts of one gist -/

section Clean
variable {text₁ text₂ : Text} (h₁ : (Source.parse text₁).diagnostics = [])
  (h₂ : (Source.parse text₂).diagnostics = []) (h : gist 0 (scan text₁) = gist 0 (scan text₂))
include h₁ h₂ h

theorem unplaced_of_gist_eq :
    (itemsOf text₁).map Item.unplaced = (itemsOf text₂).map Item.unplaced := by
  obtain ⟨ps, hps⟩ := (spanned_of_clean h₁).exists_phrases
  obtain ⟨qs, hqs⟩ := (spanned_of_clean h₂).exists_phrases
  have hp : Fit true (ps.flatMap Phrase.tokens) := hps ▸ fit_of_clean h₁
  have hq : Fit true (qs.flatMap Phrase.tokens) := hqs ▸ fit_of_clean h₂
  rw [← gist_filter, ← gist_filter 0 (scan text₂)] at h
  change gist 0 (significant text₁) = gist 0 (significant text₂) at h
  have hbare : (ps.map Phrase.bare).flatMap Phrase.tokens =
      (qs.map Phrase.bare).flatMap Phrase.tokens := by
    rw [← gist_phrases (Fit.isSignificant hp), ← gist_phrases (Fit.isSignificant hq), ← hps,
      ← hqs, h]
  rw [itemsOf, itemsOf, hps, hqs]
  exact map_unplaced_items hp hq (Phrase.flatMap_tokens_injective hbare)

/-- Texts of one gist have one tree, but for its places, and nest as deeply. -/
theorem parse_of_gist_eq :
    Statement.relocateAll (fun _ => nowhere) (Source.parse text₁).statements =
        Statement.relocateAll (fun _ => nowhere) (Source.parse text₂).statements ∧
      (Source.parse text₁).depth = (Source.parse text₂).depth := by
  have hitems := unplaced_of_gist_eq h₁ h₂ h
  obtain ⟨hstatements₁, -, hdepth₁⟩ :=
    read_relocate (f := fun _ => nowhere) (g := fun _ => .point 0) (itemsOf text₁)
  obtain ⟨hstatements₂, -, hdepth₂⟩ :=
    read_relocate (f := fun _ => nowhere) (g := fun _ => .point 0) (itemsOf text₂)
  have hsame : (itemsOf text₁).map (Item.relocate (fun _ => nowhere) fun _ => .point 0) =
      (itemsOf text₂).map (Item.relocate (fun _ => nowhere) fun _ => .point 0) := hitems
  have hparens : parenDepth 0 (significant text₁) = parenDepth 0 (significant text₂) := by
    rw [← parenDepth_gist, ← parenDepth_gist 0 (significant text₂), significant, significant,
      gist_filter, gist_filter, h]
  rw [hsame] at hstatements₁ hdepth₁
  exact ⟨hstatements₁.symm.trans hstatements₂, by
    simp only [Source.parse, hparens, ← hdepth₁, hdepth₂]⟩

end Clean

/-- What a text without reports is formatted to is determined by its gist: by its tokens without
spaces and without line breaks inside parentheses, and not by how a line is broken. So is whether
it nests too deeply to be formatted, whatever the limit. -/
theorem format_of_gist_eq (s : Style) {text₁ text₂ : Text}
    (h₁ : (Source.parse text₁).diagnostics = []) (h₂ : (Source.parse text₂).diagnostics = [])
    (h : gist 0 (scan text₁) = gist 0 (scan text₂)) :
    (Source.parse text₁).format s = (Source.parse text₂).format s ∧
      ∀ limit, (Source.parseWithin limit text₁).map (Source.format s) =
        (Source.parseWithin limit text₂).map (Source.format s) := by
  obtain ⟨htree, hdepth⟩ := parse_of_gist_eq h₁ h₂ h
  have hformat : (Source.parse text₁).format s = (Source.parse text₂).format s := by
    rw [Source.format_of_clean h₁, Source.format_of_clean h₂, ← statements_relocateAll, htree,
      statements_relocateAll]
  refine ⟨hformat, fun limit => ?_⟩
  rw [Source.parseWithin, Source.parseWithin, hdepth]
  split
  · rw [Option.map_some, Option.map_some, hformat]
  · rfl

/-- Carriage returns, indentation and the breaks of an argument list leave a text what it is. -/
theorem format_of_gist_eq_wrapped :
    let wrapped := "if( x\r\n  y )# z\r\n\ta(\r)\nendif()".toList
    let plain := "if(x y) # z\na()\nendif()".toList
    (Source.parse wrapped).diagnostics = [] ∧ (Source.parse plain).diagnostics = [] ∧
      gist 0 (scan wrapped) = gist 0 (scan plain) ∧
      (Source.parse wrapped).format .standard = (Source.parse plain).format .standard :=
  ⟨by decide +kernel, by decide +kernel, by decide +kernel,
    (format_of_gist_eq .standard (by decide +kernel) (by decide +kernel) (by decide +kernel)).1⟩

end Listfile
