import Listfile.Proofs.Comments
import Listfile.Proofs.Phrase

/-! What a tree keeps of the tokens that it is read from. A tree is flattened in
source order, with its keywords, parentheses and delimiters put back. On the side
of the tokens, each phrase keeps its own: line breaks inside parentheses go, and
so does what stands between the parentheses of a command that closes a block; the
name of a definition moves to the front and loses its delimiters. Both sides are
the same (`parse_retains_tokens`), so that no other token is lost, written twice
or moved. -/

namespace Listfile

open Parse Token Layout

/-- The kind and the text of a token. -/
abbrev Piece := Kind × Text

/-! ### Flattened trees -/

mutual

/-- An argument with its delimiters. -/
def Argument.pieces : Argument → List Piece
  | .unquoted text => [(.unquoted, text)]
  | .quoted text => [(.quoted, '"' :: (text ++ ['"']))]
  | .bracket text fence _ => [(.bracket, bracketText text fence)]
  | .group arguments =>
    (.openParen, ['(']) :: (Argument.piecesAll arguments ++ [(.closeParen, [')'])])
  | .lineComment text _ => [(.lineComment, '#' :: text)]
  | .bracketComment text fence _ => [(.bracketComment, bracketCommentText text fence)]
  | .unknown => []

def Argument.piecesAll : List Argument → List Piece
  | [] => []
  | a :: rest => a.pieces ++ Argument.piecesAll rest

end

/-- A command with its parentheses. -/
def callPieces (name : Text) (inner : List Piece) : List Piece :=
  (.unquoted, name) :: (.openParen, ['(']) :: (inner ++ [(.closeParen, [')'])])

/-- A row with its delimiters. Nothing is put between the parentheses of a command that closes a
block. -/
def Row.pieces : Row → List Piece
  | .lineBreak => [(.lineBreak, ['\n'])]
  | .lineComment text _ => [(.lineComment, '#' :: text)]
  | .bracketComment text fence _ => [(.bracketComment, bracketCommentText text fence)]
  | .bracket text fence => [(.bracket, bracketText text fence)]
  | .call (some (.closing _)) name _ => callPieces name []
  | .call _ name arguments => callPieces name (Argument.piecesAll arguments)
  | .unknown => []

/-- Statements in source order, each arm behind its own command and each body before the command
that closes it. -/
def Statement.pieces (statements : List Statement) : List Piece :=
  (Statement.rowsAll statements).flatMap Row.pieces

/-! ### What phrases keep -/

namespace Token

/-- A token with one spelling for all line breaks. -/
def piece (t : Token) : Piece := (t.kind, if t.kind = .lineBreak then ['\n'] else t.text)

/-- The tokens between parentheses, without line breaks. -/
def pieces (tokens : List Token) : List Piece :=
  (tokens.filter (·.kind ≠ .lineBreak)).map piece

/-- The length of the delimiter at either end of a literal. -/
def delimiterLength (t : Token) : Nat :=
  match t.kind with
  | .quoted => 1
  | .bracket => fenceOf t.text + 2
  | _ => 0

/-- The text of a literal without its delimiters. -/
def bareText (t : Token) : Text :=
  (t.text.drop t.delimiterLength).take (t.text.length - 2 * t.delimiterLength)

/-- The first literal outside of all groups, and the tokens without it; `level` groups are open at
the start. -/
def takeLiteral (level : Nat) : List Token → Option (Token × List Token)
  | [] => none
  | t :: rest =>
    if level = 0 && t.kind.isArgument then some (t, rest)
    else (takeLiteral (parenLevel level t) rest).map fun (u, others) => (u, t :: others)

/-- The tokens between the parentheses of a definition, with its name in front. -/
def definitionPieces (tokens : List Token) : List Piece :=
  match takeLiteral 0 tokens with
  | some (t, others) => (.unquoted, t.bareText) :: pieces others
  | none => pieces tokens

end Token

namespace Parse

/-- The tokens of a command, with `name` for its name and `inner` between its parentheses. -/
def Call.enclose (c : Call) (name : Text) (inner : List Piece) : List Piece :=
  (c.name.kind, name) :: c.opening.piece :: (inner ++ [c.closing.piece])

/-- What is kept of the tokens of a command. -/
def Call.pieces (c : Call) : List Piece :=
  match Keyword.ofName? c.key with
  | none => c.enclose c.name.text (Token.pieces c.inner)
  | some (.opening (.definition _)) => c.enclose c.key (definitionPieces c.inner)
  | some (.closing _) => c.enclose c.key []
  | some _ => c.enclose c.key (Token.pieces c.inner)

def Phrase.pieces : Phrase → List Piece
  | .lone t _ => [t.piece]
  | .command c => c.pieces

end Parse

/-! ### Arguments -/

theorem Token.piece_eq {t : Token} (h : t.kind ≠ .lineBreak) : t.piece = (t.kind, t.text) := by
  rw [Token.piece, if_neg h]

theorem Token.pieces_cons_lineBreak {t : Token} (h : t.kind = .lineBreak) (ts : List Token) :
    Token.pieces (t :: ts) = Token.pieces ts := by
  simp [Token.pieces, h]

theorem Token.pieces_cons {t : Token} (h : t.kind ≠ .lineBreak) (ts : List Token) :
    Token.pieces (t :: ts) = (t.kind, t.text) :: Token.pieces ts := by
  simp [Token.pieces, h, Token.piece_eq]

theorem Token.pieces_append (ts us : List Token) :
    Token.pieces (ts ++ us) = Token.pieces ts ++ Token.pieces us := by
  simp [Token.pieces]

theorem Token.Lexeme.openParen_eq {text : Text} (h : Lexeme .openParen text) : text = ['('] := by
  obtain ⟨c, t, escaped, rfl, hcut⟩ := h.exists_cut
  grind [cut]

theorem Token.Lexeme.closeParen_eq {text : Text} (h : Lexeme .closeParen text) :
    text = [')'] := by
  obtain ⟨c, t, escaped, rfl, hcut⟩ := h.exists_cut
  grind [cut]

/-- A leaf with its delimiters is its token. -/
theorem pieces_of_argument? {lines : LineIndex} {t : Token} {a : Argument}
    (h : argument? lines t = some a) (ht : Lexeme t.kind t.text) :
    a.pieces = [(t.kind, t.text)] := by
  simp only [argument?] at h
  split at h
  · next hk =>
    cases h
    rw [Argument.pieces, hk]
  · next hk =>
    rw [hk] at ht ⊢
    cases h
    obtain ⟨body, htext, hescaped⟩ := ht.quoted_eq
    rw [Argument.pieces, htext, quotedBody_of_quotesEscaped hescaped]
  · next hk =>
    rw [hk] at ht ⊢
    cases h
    rw [Argument.pieces, bracketText_of_lexeme ht]
  · next hk =>
    rw [hk] at ht ⊢
    cases h
    rw [Argument.pieces, lineComment_eq_of_lexeme ht]
  · next hk =>
    rw [hk] at ht ⊢
    cases h
    rw [Argument.pieces, bracketCommentText_of_lexeme ht]
  · contradiction

/-- Arguments with their delimiters are the tokens that they are read from. -/
theorem pieces_of_reads {lines : LineIndex} {tokens : List Token} {list : List Argument}
    (h : Reads lines tokens list)
    (ht : ∀ t ∈ tokens, t.kind ≠ .lineBreak → Lexeme t.kind t.text) :
    Argument.piecesAll list = Token.pieces tokens := by
  induction h with
  | nil => rfl
  | lineBreak hk _ ih =>
    rw [Token.pieces_cons_lineBreak hk]
    exact ih (List.forall_mem_cons.mp ht).2
  | @leaf t a ts as ha _ ih =>
    obtain ⟨hfirst, hrest⟩ := List.forall_mem_cons.mp ht
    have hk : t.kind ≠ .lineBreak := fun hk => by simp [argument?, hk] at ha
    rw [Argument.piecesAll, pieces_of_argument? ha (hfirst hk), ih hrest, Token.pieces_cons hk,
      List.singleton_append]
  | @group o c inner ts xs as ho hc _ _ ihi ih =>
    obtain ⟨hopen, hrest⟩ := List.forall_mem_cons.mp ht
    obtain ⟨hinner, hmore⟩ := List.forall_mem_append.mp hrest
    obtain ⟨hclose, hrest⟩ := List.forall_mem_cons.mp hmore
    rw [ho] at hopen
    rw [hc] at hclose
    rw [Argument.piecesAll, Argument.pieces, ihi hinner, ih hrest,
      Token.pieces_cons (by simp [ho]), Token.pieces_append, Token.pieces_cons (by simp [hc]), ho,
      hc, (hopen (by simp)).openParen_eq, (hclose (by simp)).closeParen_eq]
    simp

/-! ### Names of definitions -/

theorem take_drop_delimited (front body back : Text) (h : front.length = back.length) :
    ((front ++ body ++ back).drop front.length).take
      ((front ++ body ++ back).length - 2 * front.length) = body := by
  have hlength : (front ++ body ++ back).length - 2 * front.length = body.length := by
    simp only [List.length_append]
    omega
  rw [hlength, List.append_assoc, List.drop_left, List.take_left]

/-- The text of a literal argument is that of its token without the delimiters. -/
theorem literal?_of_argument? {lines : LineIndex} {t : Token} {a : Argument}
    (h : argument? lines t = some a) (ht : Lexeme t.kind t.text) :
    a.literal? = if t.kind.isArgument then some t.bareText else none := by
  simp only [argument?] at h
  split at h
  · next hk =>
    cases h
    simp [Argument.literal?, hk, Kind.isArgument, Token.bareText, Token.delimiterLength]
  · next hk =>
    rw [hk] at ht
    cases h
    obtain ⟨body, htext, hescaped⟩ := ht.quoted_eq
    have hbare := take_drop_delimited ['"'] body ['"'] rfl
    rw [Argument.literal?, hk, htext, quotedBody_of_quotesEscaped hescaped]
    simp only [Kind.isArgument, Token.bareText, Token.delimiterLength, hk, htext, if_true]
    exact congrArg some hbare.symm
  · next hk =>
    rw [hk] at ht
    cases h
    obtain ⟨n, body, htext, hfence⟩ := ht.bracket_eq
    have hbare := take_drop_delimited (opener n) body (closer n) (by simp [opener, closer])
    rw [Argument.literal?, hk]
    simp only [Kind.isArgument, Token.bareText, Token.delimiterLength, hk, hfence, if_true]
    rw [htext, bracketBody_append, ← length_opener, hbare]
  · next hk =>
    cases h
    simp [Argument.literal?, hk, Kind.isArgument]
  · next hk =>
    cases h
    simp [Argument.literal?, hk, Kind.isArgument]
  · contradiction

theorem Token.parenLevel_eq {t : Token} (ho : t.kind ≠ .openParen) (hc : t.kind ≠ .closeParen)
    (level : Nat) : parenLevel level t = level := by
  unfold parenLevel
  split <;> simp_all

theorem Token.takeLiteral_cons {level : Nat} {t : Token}
    (h : level ≠ 0 ∨ t.kind.isArgument = false) (rest : List Token) :
    takeLiteral level (t :: rest) =
      (takeLiteral (parenLevel level t) rest).map fun (u, others) => (u, t :: others) := by
  rw [takeLiteral, if_neg]
  rcases h with h | h <;> simp [h]

/-- Inside a group no literal is found. -/
theorem takeLiteral_balanced {inner : List Token} (h : Balanced inner) (level : Nat)
    (rest : List Token) :
    takeLiteral (level + 1) (inner ++ rest) =
      (takeLiteral (level + 1) rest).map fun (u, others) => (u, inner ++ others) := by
  induction h generalizing level rest with
  | nil => simp
  | token ho hc _ ih =>
    rw [List.cons_append, Token.takeLiteral_cons (.inl (by simp)), Token.parenLevel_eq ho hc, ih]
    simp [Function.comp_def]
  | @group o c inner ts ho hc _ _ ihi ih =>
    have hopen : parenLevel (level + 1) o = level + 2 := by simp [parenLevel, ho]
    have hclose : parenLevel (level + 2) c = level + 1 := by simp [parenLevel, hc]
    rw [List.cons_append, Token.takeLiteral_cons (.inl (by simp)), hopen, List.append_assoc, ihi,
      List.cons_append, Token.takeLiteral_cons (.inl (by simp)), hclose, ih]
    simp [Function.comp_def]

theorem Token.sublist_of_takeLiteral {level : Nat} {tokens others : List Token} {t : Token}
    (h : takeLiteral level tokens = some (t, others)) : others.Sublist tokens := by
  induction tokens generalizing level others with
  | nil => simp [takeLiteral] at h
  | cons u rest ih =>
    rw [takeLiteral] at h
    split at h
    · cases h
      exact List.sublist_cons_self t rest
    · obtain ⟨⟨t', others'⟩, hrest, heq⟩ := Option.map_eq_some_iff.mp h
      cases heq
      exact (ih hrest).cons_cons u

/-- The name of a definition is its first literal, and the other arguments are read from the other
tokens. -/
theorem takeLiteral_of_takeName {lines : LineIndex} {tokens : List Token} {list : List Argument}
    (h : Reads lines tokens list)
    (ht : ∀ t ∈ tokens, t.kind ≠ .lineBreak → Lexeme t.kind t.text) {name : Text}
    {arguments : List Argument} (hn : takeName list = some (name, arguments)) :
    ∃ t others, takeLiteral 0 tokens = some (t, others) ∧ t.bareText = name ∧
      Reads lines others arguments := by
  induction h generalizing arguments with
  | nil => simp [takeName] at hn
  | @lineBreak t ts as hk _ ih =>
    obtain ⟨u, others, htake, hname, hreads⟩ := ih (List.forall_mem_cons.mp ht).2 hn
    refine ⟨u, t :: others, ?_, hname, .lineBreak hk hreads⟩
    rw [Token.takeLiteral_cons (.inr (by simp [hk, Kind.isArgument])),
      Token.parenLevel_eq (by simp [hk]) (by simp [hk]), htake]
    rfl
  | @leaf t a ts as ha hrest ih =>
    obtain ⟨hfirst, hlexemes⟩ := List.forall_mem_cons.mp ht
    have hliteral := literal?_of_argument? ha
      (hfirst fun hk => by simp [argument?, hk] at ha)
    rw [takeName, hliteral] at hn
    cases harg : t.kind.isArgument with
    | true =>
      rw [harg] at hn
      cases hn
      exact ⟨t, ts, by simp [takeLiteral, harg], rfl, hrest⟩
    | false =>
      rw [harg] at hn
      obtain ⟨⟨name', more⟩, hmore, heq⟩ := Option.map_eq_some_iff.mp hn
      cases heq
      obtain ⟨u, others, htake, hname, hreads⟩ := ih hlexemes hmore
      obtain ⟨ho, hc⟩ := kind_of_argument? ha
      refine ⟨u, t :: others, ?_, hname, .leaf ha hreads⟩
      rw [Token.takeLiteral_cons (.inr harg), Token.parenLevel_eq ho hc, htake]
      rfl
  | @group o c inner ts xs as ho hc hi _ _ ih =>
    obtain ⟨-, hlexemes⟩ := List.forall_mem_append.mp (List.forall_mem_cons.mp ht).2
    rw [takeName] at hn
    obtain ⟨⟨name', more⟩, hmore, heq⟩ := Option.map_eq_some_iff.mp hn
    cases heq
    obtain ⟨u, others, htake, hname, hreads⟩ := ih (List.forall_mem_cons.mp hlexemes).2 hmore
    refine ⟨u, o :: (inner ++ c :: others), ?_, hname, .group ho hc hi hreads⟩
    have hopen : parenLevel 0 o = 1 := by simp [parenLevel, ho]
    have hclose : parenLevel 1 c = 0 := by simp [parenLevel, hc]
    rw [Token.takeLiteral_cons (.inr (by simp [ho, Kind.isArgument])), hopen,
      takeLiteral_balanced hi.balanced, Token.takeLiteral_cons (.inl (by simp)), hclose, htake]
    rfl

/-- A definition keeps its name in front of its other arguments. -/
theorem definitionPieces_of_takeName {lines : LineIndex} {tokens : List Token}
    {list : List Argument} (h : Reads lines tokens list)
    (ht : ∀ t ∈ tokens, t.kind ≠ .lineBreak → Lexeme t.kind t.text) {name : Text}
    {arguments : List Argument} (hn : takeName list = some (name, arguments)) :
    Argument.piecesAll (.unquoted name :: arguments) = definitionPieces tokens := by
  obtain ⟨t, others, htake, rfl, hreads⟩ := takeLiteral_of_takeName h ht hn
  have hsub := (Token.sublist_of_takeLiteral htake).subset
  have hothers := pieces_of_reads hreads fun u hu => ht u (hsub hu)
  rw [definitionPieces, htake, Argument.piecesAll, hothers]
  rfl

/-! ### Phrases -/

/-- Tokens that fit together are lexemes, if the last of them is no unquoted argument. -/
theorem Token.Fit.lexeme_of_getLast? {b : Bool} {tokens : List Token} (h : Fit b tokens)
    (hlast : ∀ t ∈ tokens.getLast?, t.kind ≠ .unquoted) :
    ∀ t ∈ tokens, t.kind ≠ .lineBreak → Lexeme t.kind t.text := by
  induction tokens generalizing b with
  | nil => simp
  | cons t rest ih =>
    obtain ⟨-, -, -, hlexeme, -, hrest⟩ := h
    cases rest with
    | nil =>
      have ht : t.kind ≠ .unquoted := hlast t rfl
      exact List.forall_mem_singleton.mpr fun hk => hlexeme hk fun hu => absurd hu ht
    | cons u rest =>
      rw [List.getLast?_cons_cons] at hlast
      exact List.forall_mem_cons.mpr ⟨fun hk => hlexeme hk fun _ => by simp, ih hrest hlast⟩

namespace Parse.Phrase

theorem getLast?_tokens (p : Phrase) : ∀ t ∈ p.tokens.getLast?, t.kind ≠ .unquoted := by
  cases p with
  | lone t h =>
    rw [tokens, List.getLast?_singleton]
    rintro u ⟨⟩ hk
    simp [hk, Kind.isComment] at h
  | command c =>
    have hlast : c.tokens.getLast? = some c.closing := by
      rw [Call.tokens, ← List.cons_append, ← List.cons_append, List.getLast?_concat]
    rw [tokens, hlast]
    rintro u ⟨⟩
    simp [c.closing_kind]

theorem getLast?_flatMap_tokens (ps : List Phrase) :
    ∀ t ∈ (ps.flatMap tokens).getLast?, t.kind ≠ .unquoted := by
  induction ps with
  | nil => simp
  | cons p ps ih =>
    rw [List.flatMap_cons, List.getLast?_append]
    intro t ht
    rcases Option.or_eq_some_iff.mp ht with ht | ⟨-, ht⟩
    · exact ih t ht
    · exact p.getLast?_tokens t ht

theorem dropEndings_sublist (behind : Bool) (ps : List Phrase) :
    (dropEndings behind ps).Sublist ps := by
  induction ps generalizing behind with
  | nil => exact .slnil
  | cons p ps ih =>
    rw [dropEndings]
    split
    · exact (ih false).cons p
    · exact (ih p.isLineComment).cons_cons p

end Parse.Phrase

theorem Parse.Call.enclose_eq {c : Call} {name : Text} {inner : List Piece}
    (ht : ∀ t ∈ c.tokens, t.kind ≠ .lineBreak → Lexeme t.kind t.text) :
    c.enclose name inner = callPieces name inner := by
  have hopen := ht c.opening (by simp [Call.tokens]) (by simp [c.opening_kind])
  have hclose := ht c.closing (by simp [Call.tokens]) (by simp [c.closing_kind])
  rw [c.opening_kind] at hopen
  rw [c.closing_kind] at hclose
  rw [Call.enclose, callPieces, Token.piece_eq (by simp [c.opening_kind]),
    Token.piece_eq (by simp [c.closing_kind]), c.name_kind, c.opening_kind, c.closing_kind,
    hopen.openParen_eq, hclose.closeParen_eq]

/-- The row of a command has what is kept of its tokens. -/
theorem pieces_of_call {lines : LineIndex} {r : Row} {call : Call} {c : Command}
    (h : Agrees r (.command c)) (hname : c.identifier = call.name.text)
    (hi : Reads lines call.inner c.arguments)
    (ht : ∀ t ∈ call.tokens, t.kind ≠ .lineBreak → Lexeme t.kind t.text) :
    r.pieces = call.pieces := by
  have hkey : c.name = call.key := by rw [Command.name, hname, Call.key]
  have hinner : ∀ t ∈ call.inner, t.kind ≠ .lineBreak → Lexeme t.kind t.text := fun t hmem =>
    ht t (by simp [Call.tokens, hmem])
  rw [Call.pieces, ← hkey]
  cases h with
  | plain h =>
    simp only [h, Call.enclose_eq ht, ← pieces_of_reads hi hinner, ← hname]
    rfl
  | definition h hn =>
    simp only [h, Call.enclose_eq ht, ← definitionPieces_of_takeName hi hinner hn]
    rw [spelling_of_ofName? h]
    rfl
  | @opening _ block h hb =>
    cases block with
    | definition kind => exact absurd rfl (hb kind)
    | _ =>
      simp only [h, Call.enclose_eq ht, ← pieces_of_reads hi hinner]
      rw [spelling_of_ofName? h]
      rfl
  | dividing h =>
    simp only [h, Call.enclose_eq ht, ← pieces_of_reads hi hinner]
    rw [spelling_of_ofName? h]
    rfl
  | closing h =>
    simp only [h, Call.enclose_eq ht]
    rw [spelling_of_ofName? h]
    rfl

/-- The row of a phrase has what is kept of its tokens. -/
theorem pieces_of_readAs {lines : LineIndex} {r : Row} {p : Phrase} {content : Content}
    (h : Agrees r content) (hread : p.ReadAs lines content)
    (ht : ∀ t ∈ p.tokens, t.kind ≠ .lineBreak → Lexeme t.kind t.text) : r.pieces = p.pieces := by
  cases hread with
  | lineBreak hk =>
    cases h with
    | statement h =>
      obtain rfl : Row.lineBreak = r := (List.cons.inj h).1
      simp [Row.pieces, Phrase.pieces, Token.piece, hk]
  | @lineComment t _ hk =>
    have hlexeme := ht t (by simp [Phrase.tokens]) (by simp [hk])
    rw [hk] at hlexeme
    obtain rfl := agrees_lineComment h
    rw [Row.pieces, lineComment_eq_of_lexeme hlexeme, Phrase.pieces,
      Token.piece_eq (by simp [hk]), hk]
  | @bracketComment t _ hk =>
    have hlexeme := ht t (by simp [Phrase.tokens]) (by simp [hk])
    rw [hk] at hlexeme
    cases h with
    | statement h =>
      obtain rfl := (List.cons.inj h).1
      rw [Row.pieces, bracketCommentText_of_lexeme hlexeme, Phrase.pieces,
        Token.piece_eq (by simp [hk]), hk]
  | command hname hi => exact pieces_of_call h hname hi ht

/-! ### What a tree keeps -/

/-- The tree of a text that is read without a report holds all its tokens, once and in order: its
flattened form is what its phrases keep, and these are determined by the tokens. The only phrases
without a trace are the line breaks that end line comments. -/
theorem parse_retains_tokens (text : Text) (h : (Source.parse text).diagnostics = []) :
    ∃ phrases : List Phrase,
      (∀ others : List Phrase,
        significant text = others.flatMap Phrase.tokens ↔ others = phrases) ∧
      Statement.pieces (Source.parse text).statements =
        (Phrase.dropEndings false phrases).flatMap Phrase.pieces := by
  have hfit := fit_of_clean h
  obtain ⟨phrases, heq⟩ := (spanned_of_clean h).exists_phrases
  refine ⟨phrases, fun others => ?_, ?_⟩
  · constructor
    · exact fun hothers => Phrase.flatMap_tokens_injective (hothers.symm.trans heq)
    · rintro rfl
      exact heq
  · rw [heq] at hfit
    have hlexemes := hfit.lexeme_of_getLast? (Phrase.getLast?_flatMap_tokens phrases)
    have hphrases : ∀ p ∈ Phrase.dropEndings false phrases,
        ∀ t ∈ p.tokens, t.kind ≠ .lineBreak → Lexeme t.kind t.text := fun p hp t ht =>
      hlexemes t (List.mem_flatMap.mpr ⟨p, (Phrase.dropEndings_sublist ..).subset hp, ht⟩)
    have hread : List.Forall₂
        (fun (p : Phrase) (i : Item) => p.ReadAs (.ofText text) i.content ∧ i.faults = [])
        (Phrase.dropEndings false phrases) (itemsOf text) := by
      rw [itemsOf, heq]
      exact forall₂_readAs _ _ (Fit.isSignificant hfit) false
    have hrows := List.forall₂_map_right_iff.mp (agrees_of_clean h)
    have hboth := (List.forall₂_and_left _ _).mpr ⟨hphrases, hread⟩
    refine flatMap_of_forall₂ (forall₂_trans ?_ hrows hboth.flip)
    rintro r i p hr ⟨ht, hp, -⟩
    exact pieces_of_readAs hr hp ht

/-- A line comment, a definition with a group before its name, and a conditional inside. -/
def wovenText : Text :=
  "# a\r\nMacro((g #[[c]]) [=[m n]=]\n\"x\")\nIF(u)v()ELSE()#b\nw(u)endIF(u)\nENDMACRO(m)".toList

theorem parse_retains_tokens_sample :
    (Source.parse wovenText).diagnostics = [] ∧
    ∃ phrases : List Phrase, significant wovenText = phrases.flatMap Phrase.tokens ∧
      (Phrase.dropEndings false phrases).flatMap Phrase.pieces =
        (.lineComment, "# a".toList) ::
          (callPieces "macro".toList
            [(.unquoted, "m n".toList), (.openParen, ['(']), (.unquoted, ['g']),
              (.bracketComment, "#[[c]]".toList), (.closeParen, [')']),
              (.quoted, "\"x\"".toList)] ++
          (.lineBreak, ['\n']) :: callPieces "if".toList [(.unquoted, ['u'])] ++
          callPieces ['v'] [] ++ callPieces "else".toList [] ++ (.lineComment, "#b".toList) ::
          callPieces ['w'] [(.unquoted, ['u'])] ++ callPieces "endif".toList [] ++
          (.lineBreak, ['\n']) :: callPieces "endmacro".toList []) := by
  have h : (Source.parse wovenText).diagnostics = [] := by decide +kernel
  obtain ⟨phrases, hphrases, hpieces⟩ := parse_retains_tokens wovenText h
  refine ⟨h, phrases, (hphrases phrases).mpr rfl, hpieces.symm.trans ?_⟩
  decide +kernel

end Listfile
