import Listfile.Proofs.Respacing
import Listfile.Proofs.RoundTrip

/-! The comments of a text, before and after formatting. An item holds the
comments of its tokens (`comments_of_spanned`), a row holds those of its item
unless it closes a block, and a command that closes a block is written without
the comments in its parentheses. Rows that are written have their comments in
what is written (`comments_verbatim`). Names of definitions lose their quotes or
brackets there, so they must be silent: not read as comments, and in no one's way.
All other comments are then written once each, in order (`format_keeps_comments`). -/

namespace Listfile

open Parse Token Layout

/-! ### The comments of tokens, arguments, items and rows -/

/-- A comment token with its kind and text; `form` is applied to what stands behind the number sign
of a line comment. -/
def Token.comment? (form : Text → Text) (t : Token) : Option (Kind × Text) :=
  match t.kind with
  | .lineComment => some (.lineComment, form t.text.tail)
  | .bracketComment => some (.bracketComment, t.text)
  | _ => none

/-- The comments among tokens, in order. -/
def Token.comments (form : Text → Text) (tokens : List Token) : List (Kind × Text) :=
  tokens.filterMap (Token.comment? form)

mutual

/-- The comments in an argument, in order. -/
def Argument.comments (form : Text → Text) : Argument → List (Kind × Text)
  | .lineComment text _ => [(.lineComment, form text)]
  | .bracketComment text fence _ => [(.bracketComment, bracketCommentText text fence)]
  | .group arguments => Argument.commentsAll form arguments
  | _ => []

def Argument.commentsAll (form : Text → Text) : List Argument → List (Kind × Text)
  | [] => []
  | a :: rest => a.comments form ++ Argument.commentsAll form rest

end

def Parse.Content.comments (form : Text → Text) : Content → List (Kind × Text)
  | .statement (.lineComment text _ _) => [(.lineComment, form text)]
  | .statement (.bracketComment text fence _ _) =>
    [(.bracketComment, bracketCommentText text fence)]
  | .command c => Argument.commentsAll form c.arguments
  | _ => []

def Row.comments (form : Text → Text) : Row → List (Kind × Text)
  | .lineComment text _ => [(.lineComment, form text)]
  | .bracketComment text fence _ => [(.bracketComment, bracketCommentText text fence)]
  | .call _ _ arguments => Argument.commentsAll form arguments
  | _ => []

/-! ### Comments of items are comments of their tokens -/

theorem Token.comments_append (form : Text → Text) (s t : List Token) :
    Token.comments form (s ++ t) = Token.comments form s ++ Token.comments form t :=
  List.filterMap_append ..

theorem Token.comments_cons (form : Text → Text) (t : Token) (rest : List Token) :
    Token.comments form (t :: rest) = (t.comment? form).toList ++ Token.comments form rest := by
  cases h : t.comment? form <;> simp [Token.comments, h]

theorem Token.comments_cons_of_not_isComment (form : Text → Text) {t : Token}
    (h : t.kind.isComment = false) (rest : List Token) :
    Token.comments form (t :: rest) = Token.comments form rest := by
  have hnone : t.comment? form = none := by
    unfold Token.comment?
    split <;> simp_all [Kind.isComment]
  rw [Token.comments_cons, hnone]
  rfl

/-- A leaf has the comment that its token is. -/
theorem comments_of_argument? (form : Text → Text) {lines : LineIndex} {t : Token} {a : Argument}
    (h : argument? lines t = some a) (ht : Lexeme t.kind t.text) :
    (t.comment? form).toList = a.comments form := by
  simp only [argument?] at h
  split at h
  · next hk =>
    cases h
    simp [Token.comment?, hk, Argument.comments]
  · next hk =>
    cases h
    simp [Token.comment?, hk, Argument.comments]
  · next hk =>
    cases h
    simp [Token.comment?, hk, Argument.comments]
  · next hk =>
    cases h
    simp [Token.comment?, hk, Argument.comments]
  · next hk =>
    rw [hk] at ht
    cases h
    simp [Token.comment?, hk, Argument.comments, bracketCommentText_of_lexeme ht]
  · contradiction

/-- Arguments hold the comments of the tokens that they are read from. -/
theorem comments_of_reads (form : Text → Text) {lines : LineIndex} {tokens : List Token}
    {list : List Argument} (h : Reads lines tokens list)
    (ht : ∀ t ∈ tokens, t.kind ≠ .lineBreak → Lexeme t.kind t.text) :
    Token.comments form tokens = Argument.commentsAll form list := by
  induction h with
  | nil => rfl
  | lineBreak hk _ ih =>
    rw [Token.comments_cons_of_not_isComment form (by simp [hk, Kind.isComment])]
    exact ih (List.forall_mem_cons.mp ht).2
  | leaf ha _ ih =>
    obtain ⟨hfirst, hrest⟩ := List.forall_mem_cons.mp ht
    have hlexeme := hfirst fun hk => by simp [argument?, hk] at ha
    rw [Token.comments_cons, comments_of_argument? form ha hlexeme, ih hrest, Argument.commentsAll]
  | group ho hc _ _ ihi ih =>
    obtain ⟨-, hrest⟩ := List.forall_mem_cons.mp ht
    obtain ⟨hinner, hmore⟩ := List.forall_mem_append.mp hrest
    rw [Token.comments_cons_of_not_isComment form (by simp [ho, Kind.isComment]),
      Token.comments_append,
      Token.comments_cons_of_not_isComment form (by simp [hc, Kind.isComment]),
      ihi hinner, ih (List.forall_mem_cons.mp hmore).2]
    rfl

theorem comments_of_spans (form : Text → Text) {lines : LineIndex} {tokens rest : List Token}
    {content : Content} (h : Spans lines tokens content) {b : Bool}
    (hfit : Fit b (tokens ++ rest)) :
    Token.comments form tokens = content.comments form := by
  cases h with
  | lineBreak hk => simp [Token.comments, Token.comment?, hk, Content.comments]
  | lineComment hk hu =>
    simp [Token.comments, Token.comment?, hk, hu, Content.comments, lineComment]
  | bracketComment hk =>
    have hl := hfit.2.2.2.1 (by simp [hk]) (by simp [hk])
    rw [hk] at hl
    simp [Token.comments, Token.comment?, hk, Content.comments, bracketComment,
      bracketCommentText_of_lexeme hl]
  | @command t p q inner list span hk _ hp hq hi =>
    have hinner := comments_of_reads form hi (Fit.lexeme_inner hfit)
    rw [Token.comments_cons_of_not_isComment form (by simp [hk, Kind.isComment]),
      Token.comments_cons_of_not_isComment form (by simp [hp, Kind.isComment]),
      Token.comments_append,
      Token.comments_cons_of_not_isComment form (by simp [hq, Kind.isComment]), hinner]
    exact List.append_nil _

/-- Items hold the comments of the tokens that span them. -/
theorem comments_of_spanned (form : Text → Text) {lines : LineIndex} {tokens : List Token}
    {items : List Item} (h : Spanned lines tokens items) {b : Bool} (hfit : Fit b tokens) :
    ∀ i ∈ items, Token.comments form i.tokens = i.content.comments form := by
  induction h generalizing b with
  | nil => simp
  | last hk hc ht =>
    rw [List.forall_mem_singleton, hc, ht]
    simp [Token.comments, Token.comment?, hk, Content.comments, lineComment]
  | cons hc ht _ ih =>
    obtain ⟨xs, u, rfl⟩ := hc.exists_last
    have hfirst := comments_of_spans form hc hfit
    rw [List.append_assoc, List.singleton_append] at hfit
    exact List.forall_mem_cons.mpr ⟨ht ▸ hfirst, ih (Fit.behind hfit)⟩

/-! ### Comments of rows -/

/-- Taking its name out of the arguments of a definition takes no comment away. -/
theorem commentsAll_takeName (form : Text → Text) {list rest : List Argument} {name : Text}
    (h : takeName list = some (name, rest)) :
    Argument.commentsAll form rest = Argument.commentsAll form list := by
  induction list generalizing rest with
  | nil => simp [takeName] at h
  | cons a list ih =>
    rw [takeName] at h
    split at h
    · next ha =>
      cases h
      have hnone : a.comments form = [] := by cases a <;> first | rfl | contradiction
      rw [Argument.commentsAll, hnone, List.nil_append]
    · obtain ⟨⟨name', rest'⟩, hrest, heq⟩ := Option.map_eq_some_iff.mp h
      cases heq
      rw [Argument.commentsAll, Argument.commentsAll, ih hrest]

/-- Whether an item is a command that closes a block. -/
def Parse.Content.closes : Content → Bool
  | .command c =>
    match Keyword.ofName? c.name with
    | some (.closing _) => true
    | _ => false
  | _ => false

/-- The row of an item has its comments, unless it closes a block and has none. -/
theorem comments_of_agrees (form : Text → Text) {r : Row} {content : Content}
    (h : Agrees r content) (hl : content.Legible)
    (hc : ∀ block name list, r = .call (some (.closing block)) name list →
      Argument.commentsAll form list = []) :
    r.comments form = if content.closes then [] else content.comments form := by
  cases h with
  | @statement s r h =>
    cases s <;> first | contradiction | skip
    all_goals
      cases h
      rfl
  | plain h => simp [Content.closes, h, Content.comments, Row.comments]
  | definition h hn =>
    simp only [Content.closes, h, Content.comments, Row.comments, Row.keyword,
      Argument.commentsAll, Argument.comments, List.nil_append]
    exact commentsAll_takeName form hn
  | opening h => simp [Content.closes, h, Content.comments, Row.comments, Row.keyword]
  | dividing h => simp [Content.closes, h, Content.comments, Row.comments, Row.keyword]
  | closing h =>
    simp only [Content.closes, h, Row.comments, Row.keyword, if_true]
    exact hc _ _ _ rfl

/-- The comments of the rows of a text without faults are those of its items other than the
commands that close blocks. -/
theorem comments_rowsAll (form : Text → Text) {text : Text}
    (h : (Source.parse text).diagnostics = []) :
    (Statement.rowsAll (Source.parse text).statements).flatMap (Row.comments form) =
      ((itemsOf text).filter (!·.content.closes)).flatMap fun i => i.content.comments form := by
  have hclosing : ∀ r ∈ Statement.rowsAll (Source.parse text).statements,
      ∀ block name list, r = .call (some (.closing block)) name list →
        Argument.commentsAll form list = [] := by
    rintro r hr block name list rfl
    rcases Statement.closesNamed_rowsAll _ block name list hr with rfl | ⟨_, _, rfl, -⟩ <;> rfl
  have hrows := (List.forall₂_and_left _ _).mpr
    ⟨hclosing, List.forall₂_map_right_iff.mp (agrees_of_clean h)⟩
  have hitems := (List.forall₂_and_left _ _).mpr ⟨legible_of_clean h, hrows.flip⟩
  rw [flatMap_filter]
  refine (flatMap_of_forall₂ (hitems.imp fun i r ⟨hl, hc, hagrees⟩ => ?_)).symm
  rw [comments_of_agrees form hagrees hl hc]
  cases i.content.closes <;> rfl

theorem comments_settle (form : Text → Text) (s : Style) (σ : Pace) (rows : List Row) :
    (settle s σ rows).flatMap (Row.comments form) = rows.flatMap (Row.comments form) := by
  have hfilter (rows : List Row) :
      (rows.filter (!·.isLineBreak)).flatMap (Row.comments form) =
        rows.flatMap (Row.comments form) := by
    rw [flatMap_filter]
    exact List.flatMap_congr fun r _ => by cases r <;> rfl
  rw [← hfilter, filter_settle, hfilter]

/-! ### The comments of a written text -/

/-- The comment that a token with some face is. -/
def Token.voice? (form : Text → Text) (face : Kind × Text × Bool) : Option (Kind × Text) :=
  match face.1 with
  | .lineComment => some (.lineComment, form face.2.1.tail)
  | .bracketComment => some (.bracketComment, face.2.1)
  | _ => none

/-- The comments of a text, which do not depend on where its tokens stand. -/
theorem Token.comments_scan_eq (form : Text → Text) (t : Text) :
    Token.comments form (scan t) = (faces t).filterMap (voice? form) := by
  have hvoice (t : Token) : voice? form t.face = t.comment? form := by
    unfold voice? comment? face
    cases t.kind <;> rfl
  have hsilent (t : Token) (h : t.kind.isVisible = false) : t.comment? form = none := by
    unfold comment?
    split <;> simp_all [Kind.isVisible]
  have hfaces (tokens : List Token) : comments form tokens =
      ((tokens.filter (·.kind.isVisible)).map face).filterMap (voice? form) := by
    induction tokens with
    | nil => rfl
    | cons t rest ih =>
      rw [comments_cons, ih, List.filter_cons]
      cases h : t.kind.isVisible with
      | true =>
        rw [if_pos rfl, List.map_cons, ← hvoice]
        cases hv : voice? form t.face <;> simp [hv]
      | false =>
        rw [hsilent t h]
        rfl
  exact hfaces _

section Written
variable (form : Text → Text) {s : Style}

theorem comments_lexeme {k : Kind} {text rest : Text} (h : Lexeme k text) (hends : Ends k rest)
    (hk : k.isVisible = true) :
    Token.comments form (scan (text ++ rest)) =
      (voice? form (k, text, true)).toList ++ Token.comments form (scan rest) := by
  rw [comments_scan_eq, comments_scan_eq, faces_of_form (h.form hends), if_pos hk,
    List.filterMap_append]
  cases hv : voice? form (k, text, true) <;> simp [hv]

theorem comments_blanks {sep : Text} (h : ∀ c ∈ sep, c = ' ' ∨ c = '\t' ∨ c = '\n') (rest : Text) :
    Token.comments form (scan (sep ++ rest)) = Token.comments form (scan rest) := by
  rw [comments_scan_eq, comments_scan_eq, faces_blanks h]

theorem comments_spaces (n : Nat) (rest : Text) :
    Token.comments form (scan (Text.spaces n ++ rest)) = Token.comments form (scan rest) :=
  comments_blanks form (fun _ hc => .inl (List.eq_of_mem_replicate hc)) rest

theorem comments_openParen (rest : Text) :
    Token.comments form (scan ('(' :: rest)) = Token.comments form (scan rest) :=
  comments_lexeme form lexeme_openParen trivial rfl

theorem comments_closeParen (rest : Text) :
    Token.comments form (scan (')' :: rest)) = Token.comments form (scan rest) :=
  comments_lexeme form lexeme_closeParen trivial rfl

theorem comments_gap {place : Place} {gap : Text} (h : Gapped place gap) (rest : Text) :
    Token.comments form (scan (gap ++ rest)) = Token.comments form (scan rest) := by
  refine comments_blanks form ?_ rest
  have hbreak (column : Int) : ∀ c ∈ breakTo column, c = ' ' ∨ c = '\t' ∨ c = '\n' := by
    intro c hc
    rcases List.mem_cons.mp hc with rfl | hc
    · exact .inr (.inr rfl)
    · exact .inl (List.eq_of_mem_replicate hc)
  cases place with
  | first =>
    obtain rfl : gap = [] := h
    simp
  | behind =>
    rcases h with rfl | ⟨column, rfl⟩
    · simp
    · exact hbreak column
  | belowComment =>
    obtain ⟨column, rfl⟩ := h
    exact hbreak column

/-- A leaf is written as a token that is its comment, if it is one. -/
theorem comments_leaf {a : Argument} {k : Kind} (hk : a.kind? = some k) {text : Text}
    (ha : inline? s a = some text) :
    (voice? form (k, text, true)).toList = a.comments (form ∘ settleText s) := by
  cases a with
  | lineComment comment location =>
    obtain rfl := Option.some.inj hk
    obtain rfl : lineCommentText s comment = text := Option.some.inj ha
    simp [voice?, Argument.comments, lineCommentText_eq]
  | bracketComment comment fence location =>
    obtain rfl := Option.some.inj hk
    obtain rfl : bracketCommentText comment fence = text := Option.some.inj ha
    rfl
  | group => contradiction
  | unknown => contradiction
  | _ =>
    obtain rfl := Option.some.inj hk
    rfl

/-- The comments of an argument list, up to the parenthesis that closes it. -/
theorem comments_spells {place : Place} {list : List Argument} {text : Text}
    (h : Spells s place list text) (hl : Argument.LegibleAll list) (rest : Text) :
    Token.comments form (scan (text ++ ')' :: rest)) =
      Argument.commentsAll (form ∘ settleText s) list ++
        Token.comments form (scan (')' :: rest)) := by
  induction h generalizing rest with
  | nil => rfl
  | lastLine column =>
    have hgap : Gapped .belowComment (breakTo column) := ⟨column, rfl⟩
    exact comments_gap form hgap _
  | @leaf place gap text more a list k hgap hk ha h ih =>
    obtain ⟨text', htext, hlexeme, -⟩ := hl.1.leaf hk s (.ofText [])
    obtain rfl : text' = text := Option.some.inj (htext.symm.trans ha)
    have hvisible : k.isVisible = true := by cases a <;> cases hk <;> rfl
    rw [List.append_assoc, List.append_assoc, comments_gap form hgap,
      comments_lexeme form hlexeme (ends_of_spells hk h rest) hvisible, comments_leaf form hk ha,
      ih hl.2, Argument.commentsAll, List.append_assoc]
  | @group place gap inner more xs list hgap _ _ ihi ih =>
    rw [List.append_assoc, comments_gap form hgap, List.append_assoc, List.cons_append,
      comments_openParen, List.append_assoc, List.singleton_append, ihi hl.1, comments_closeParen,
      ih hl.2, Argument.commentsAll, Argument.comments, List.append_assoc]

end Written

/-- A text that adds no comment where it is written, and takes none away from what stands behind
it. -/
def Silent (text : Text) : Prop :=
  ∀ form rest, Ends .unquoted rest →
    Token.comments form (scan (text ++ rest)) = Token.comments form (scan rest)

theorem silent_of_lexeme {text : Text} (h : Lexeme .unquoted text) : Silent text :=
  fun form _ hends => comments_lexeme form h hends rfl

/-- Words with blanks between them. -/
theorem Silent.append {front sep back : Text} (hf : Silent front) (hb : Silent back)
    (hne : sep ≠ []) (hsep : ∀ c ∈ sep, c = ' ' ∨ c = '\t' ∨ c = '\n') :
    Silent (front ++ (sep ++ back)) := by
  intro form rest hrest
  have hends : Ends .unquoted (sep ++ (back ++ rest)) := by
    obtain ⟨c, sep, rfl⟩ := List.exists_cons_of_ne_nil hne
    rcases hsep c (List.mem_cons_self ..) with rfl | rfl | rfl <;>
      simp [Ends, endsUnquoted, isSpace, isBreak]
  rw [List.append_assoc, List.append_assoc, hf form _ hends, comments_blanks form hsep,
    hb form _ hrest]

section Rows
variable (form : Text → Text) (s : Style)

/-- The comments of a command, which may have a silent name as its first argument. -/
theorem comments_callText (indentation : Nat) {name : Text} {list : List Argument}
    (hname : isIdentifier name = true)
    (hlist : Argument.LegibleAll list ∨ Argument.NamedAll Silent list) (rest : Text) :
    Token.comments form (scan (callText s indentation name list ++ rest)) =
      Argument.commentsAll (form ∘ settleText s) list ++ Token.comments form (scan rest) := by
  have hknown : Argument.KnownAll list := by
    rcases hlist with hlegible | ⟨first, more, rfl, -, hmore⟩
    · exact hlegible.known
    · exact ⟨trivial, hmore.known⟩
  obtain ⟨body, hspells, htext⟩ : ∃ body, Spells s .first list body ∧
      callText s indentation name list ++ rest = name ++ '(' :: (body ++ ')' :: rest) := by
    simp only [callText, List.append_assoc, List.singleton_append]
    exact ⟨_, spells_arguments s _ _ 1 hknown, rfl⟩
  have hends : Ends .unquoted ('(' :: (body ++ ')' :: rest)) := by simp [Ends, endsUnquoted]
  have hbody : Token.comments form (scan (body ++ ')' :: rest)) =
      Argument.commentsAll (form ∘ settleText s) list ++
        Token.comments form (scan (')' :: rest)) := by
    rcases hlist with hlegible | ⟨first, more, rfl, hsilent, hmore⟩
    · exact comments_spells form hspells hlegible rest
    · cases hspells with
      | @leaf _ gap text behind _ _ k hgap hk ha h =>
        obtain rfl : gap = [] := hgap
        obtain rfl : first = text := Option.some.inj ha
        rw [List.nil_append, List.append_assoc,
          hsilent form _ (endsUnquoted_of_spells h rest), comments_spells form h hmore]
        rfl
  rw [htext, silent_of_lexeme (lexeme_of_isIdentifier hname) form _ hends, comments_openParen,
    hbody, comments_closeParen]

theorem comments_rowLead (indentation : Nat) (b : Bool) (r : Row) (rest : Text) :
    Token.comments form (scan (rowLead indentation b r ++ rest)) =
      Token.comments form (scan rest) := by
  unfold rowLead
  split
  · rfl
  · rfl
  · split
    · exact comments_spaces form indentation rest
    · exact comments_spaces form 1 rest

theorem comments_rowText (indentation : Nat) {r : Row} (h : RowNamed Silent r) (rest : Text) :
    Token.comments form (scan (rowText s indentation r ++ rest)) =
      r.comments (form ∘ settleText s) ++ Token.comments form (scan rest) := by
  have hfeed (rest : Text) : Token.comments form (scan ('\n' :: rest)) =
      Token.comments form (scan rest) :=
    have hblank : ∀ c ∈ ['\n'], c = ' ' ∨ c = '\t' ∨ c = '\n' := by simp
    comments_blanks form hblank rest
  cases r with
  | lineBreak => exact hfeed rest
  | lineComment text trailing =>
    have hends : Ends .lineComment ('\n' :: rest) := by simp [Ends, isBreak]
    rw [rowText, List.append_assoc, List.singleton_append,
      comments_lexeme form (lexeme_lineCommentText h s) hends rfl, hfeed, lineCommentText_eq]
    rfl
  | bracketComment text fence trailing => exact comments_lexeme form h trivial rfl
  | call role name list => exact comments_callText form s indentation h.1 h.2 rest
  | bracket => contradiction
  | unknown => contradiction

/-- Written rows hold the comments of the rows, whatever the names in them, if these are silent. -/
theorem comments_verbatim {rows : List Row} (h : ∀ r ∈ rows, RowNamed Silent r)
    (levels : List Nat) (b : Bool) :
    Token.comments form (scan (verbatim s levels b rows)) =
      rows.flatMap (Row.comments (form ∘ settleText s)) := by
  induction rows generalizing levels b with
  | nil =>
    rw [verbatim, comments_scan_eq, faces_nil]
    rfl
  | cons r rest ih =>
    obtain ⟨hr, hrest⟩ := List.forall_mem_cons.mp h
    rw [verbatim, List.append_assoc, comments_rowLead, comments_rowText form s _ hr, ih hrest,
      List.flatMap_cons]

end Rows

/-! ### What formatting keeps of the comments -/

/-- The names of the definitions of a text are silent where they are written. -/
def NamesSilent (text : Text) : Prop :=
  ∀ i ∈ itemsOf text, ∀ name ∈ i.content.definedName?, Silent name

/-- A name that is written as an unquoted argument is silent. -/
theorem namesSilent_of_namesStand {text : Text} (h : NamesStand text) : NamesSilent text :=
  fun i hi name hname => silent_of_lexeme
    ((standsUnquoted_iff name).mp (standsUnquoted_of_nameStands (h i hi) name hname))

/-- Formatting keeps the comments of a text without faults, but for those in the parentheses of
commands that close blocks: each of the others is written once, and in their order. Names of
definitions are written without their quotes, so they must not be read as comments then. -/
theorem format_keeps_comments (s : Style) (text : Text)
    (h : (Source.parse text).diagnostics = []) (hn : NamesSilent text) :
    Token.comments (commentForm s) (scan ((Source.parse text).format s)) =
      Token.comments (commentForm s)
        (((itemsOf text).filter (!·.content.closes)).flatMap (·.tokens)) := by
  have hform : commentForm s ∘ settleText s = commentForm s := funext (commentForm_settleText s)
  have hnamed : ∀ r ∈ settle s .start (Statement.rowsAll (Source.parse text).statements),
      RowNamed Silent r := by
    intro r hr
    rcases mem_of_mem_settle hr with rfl | hr
    · trivial
    · exact rowNamed_of_clean h hn r hr
  calc Token.comments (commentForm s) (scan ((Source.parse text).format s))
    _ = (settle s .start (Statement.rowsAll (Source.parse text).statements)).flatMap
          (Row.comments (commentForm s)) := by
      rw [format_eq_verbatim h, comments_verbatim (commentForm s) s hnamed, hform]
    _ = (Statement.rowsAll (Source.parse text).statements).flatMap
          (Row.comments (commentForm s)) := comments_settle _ s .start _
    _ = ((itemsOf text).filter (!·.content.closes)).flatMap
          fun i => i.content.comments (commentForm s) := comments_rowsAll _ h
    _ = _ := by
      have hitems := comments_of_spanned (commentForm s) (spanned_of_clean h) (fit_of_clean h)
      rw [Token.comments, List.filterMap_flatMap]
      exact List.flatMap_congr fun i hi => (hitems i (List.mem_of_mem_filter hi)).symm

/-- Comments at statement level, behind a statement, among arguments and in a group. -/
def commentedText : Text :=
  "# a \nfunction(#[[b]] f (x #c\n))#d\nset(y #[=[e]=])\nendfunction(f #[[g]])\n".toList

/-- A comment behind a name of two words. -/
def wordyText : Text := "macro(\"a b\" #c\n)\nendmacro()\n".toList

theorem format_keeps_comments_sample :
    (Source.parse commentedText).diagnostics = [] ∧ NamesStand commentedText ∧
      Token.comments Text.trim (scan ((Source.parse commentedText).format .standard)) =
        [(.lineComment, ['a']), (.bracketComment, "#[[b]]".toList), (.lineComment, ['c']),
          (.lineComment, ['d']), (.bracketComment, "#[=[e]=]".toList)] ∧
      ¬ NamesStand wordyText ∧
      Token.comments Text.trim (scan ((Source.parse wordyText).format .standard)) =
        [(.lineComment, ['c'])] := by
  have h : (Source.parse commentedText).diagnostics = [] := by decide +kernel
  have hn : NamesStand commentedText := by
    unfold NamesStand
    decide +kernel
  have hw : NamesSilent wordyText := by
    have hword (c : Char) (hc : standsUnquoted [c] = true) : Silent [c] :=
      silent_of_lexeme ((standsUnquoted_iff _).mp hc)
    have hnames : ∀ i ∈ itemsOf wordyText, ∀ name ∈ i.content.definedName?,
        name = "a b".toList := by decide +kernel
    rintro i hi name hname
    rw [hnames i hi name hname]
    have hblank : ∀ c ∈ [' '], c = ' ' ∨ c = '\t' ∨ c = '\n' := by simp
    exact Silent.append (hword 'a' (by decide)) (hword 'b' (by decide)) (by simp) hblank
  refine ⟨h, hn, ?_, by unfold NamesStand; decide +kernel, ?_⟩
  · refine (format_keeps_comments .standard commentedText h (namesSilent_of_namesStand hn)).trans ?_
    decide +kernel
  · refine (format_keeps_comments .standard wordyText (by decide +kernel) hw).trans ?_
    decide +kernel

/-- The comment in the parentheses of a command that closes a block is lost, and a name that starts
with a number sign becomes a comment. -/
theorem format_loses_comment :
    (¬ ∀ (s : Style) (text : Text), (Source.parse text).diagnostics = [] →
      Token.comments (commentForm s) (scan ((Source.parse text).format s)) =
        Token.comments (commentForm s) (scan text)) ∧
    ¬ ∀ (s : Style) (text : Text), (Source.parse text).diagnostics = [] →
      Token.comments (commentForm s) (scan ((Source.parse text).format s)) =
        Token.comments (commentForm s)
          (((itemsOf text).filter (!·.content.closes)).flatMap (·.tokens)) := by
  refine ⟨fun h => ?_, fun h => ?_⟩
  · have hlost := h .standard "if(a)\nendif(#[[c]])\n".toList (by decide +kernel)
    revert hlost
    decide +kernel
  · have hgained := h .standard "macro(\"#\")\nendmacro()\n".toList (by decide +kernel)
    revert hgained
    decide +kernel

end Listfile
