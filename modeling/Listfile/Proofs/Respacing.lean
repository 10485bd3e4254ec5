import Listfile.Proofs.Lexical

/-! Tokens written again with other spaces and line breaks between them. What a
reader makes of a text does not depend on where it stands (`faces_congr`), and it
reads over separators (`faces_separator`). The tokens of a source without faults are
`Sturdy`: the last can stand at the end of a text, and every other one is a lexeme,
which a separator or a parenthesis ends. So the same tokens come out of every text
that puts them together in this way (`tokens_survive_respacing`). -/

namespace Listfile.Token

namespace Kind

/-- All but spaces, line breaks and the end of the file. -/
def isVisible : Kind → Bool
  | .space | .lineBreak | .endOfFile => false
  | _ => true

def isParen : Kind → Bool
  | .openParen | .closeParen => true
  | _ => false

end Kind

/-- What may stand between two tokens: spaces, tabs and line feeds, of which the first is a line
feed behind a line comment, or nothing where one of the two is a parenthesis and the first is no
line comment. -/
inductive Separates (k k' : Kind) : Text → Prop
  | blank {sep : Text} (hne : sep ≠ []) (hblank : ∀ c ∈ sep, c = ' ' ∨ c = '\t' ∨ c = '\n')
      (hcomment : k = .lineComment → sep.head? = some '\n') : Separates k k' sep
  | nothing (hcomment : k ≠ .lineComment) (hparen : k.isParen = true ∨ k'.isParen = true) :
      Separates k k' []

/-- The texts of tokens with a separator between each two neighbours. -/
inductive Respaced : List Token → Text → Prop
  | nil : Respaced [] []
  | single (t : Token) : Respaced [t] t.text
  | cons {t u : Token} {rest : List Token} {sep w : Text} (hsep : Separates t.kind u.kind sep)
      (h : Respaced (u :: rest) w) : Respaced (t :: u :: rest) (t.text ++ sep ++ w)

/-! ### Faces -/

/-- What a token is apart from where it stands. -/
def face (t : Token) : Kind × Text × Bool := (t.kind, t.text, t.closed)

namespace Reader

/-- The faces of the visible tokens from a reader on. -/
def faces (r : Reader) : List (Kind × Text × Bool) :=
  (r.tokens.filter (·.kind.isVisible)).map face

theorem faces_of_nil {r : Reader} (h : r.ahead = []) : r.faces = [] := by
  simp [faces, tokens_of_nil h, stopToken, Kind.isVisible]

theorem faces_of_ne_nil {r : Reader} (h : r.ahead ≠ []) :
    r.faces = (if r.next.1.kind.isVisible then [face r.next.1] else []) ++ r.next.2.faces := by
  rw [faces, tokens_of_ne_nil h, List.filter_cons]
  split <;> rfl

/-- Only what is ahead of a reader matters. -/
theorem faces_congr {r r' : Reader} (h : r.ahead = r'.ahead) : r.faces = r'.faces := by
  fun_induction tokens r generalizing r' with
  | case1 r hr => rw [faces_of_nil hr, faces_of_nil (h ▸ hr)]
  | case2 r hr ih =>
    have hr' : r'.ahead ≠ [] := h ▸ hr
    obtain ⟨c, t, hcons⟩ := List.exists_cons_of_ne_nil hr
    have hcons' : r'.ahead = c :: t := h ▸ hcons
    have hface : face r.next.1 = face r'.next.1 ∧ r.next.2.ahead = r'.next.2.ahead := by
      rw [next_of_cons hcons, next_of_cons hcons']
      exact ⟨rfl, rfl⟩
    have hkind : r.next.1.kind = r'.next.1.kind := congrArg Prod.fst hface.1
    rw [faces_of_ne_nil hr, faces_of_ne_nil hr', ih hface.2, hface.1, hkind]

end Reader

/-- The faces of the visible tokens of a text. -/
def faces (t : Text) : List (Kind × Text × Bool) := (Reader.start t).faces

@[simp] theorem faces_nil : faces [] = [] := Reader.faces_of_nil rfl

/-- The first token is read off, whatever is read behind it. -/
theorem faces_of_form {rest text : Text} {kind : Kind} {closed : Bool}
    (h : Form rest kind closed text) :
    faces (text ++ rest) =
      (if kind.isVisible then [(kind, text, closed)] else []) ++ faces rest := by
  obtain ⟨c, t, escaped, hall, hcut⟩ := h.exists_cut
  have hr : (Reader.start (c :: t)).ahead = c :: t := rfl
  have hrest : (Reader.start (c :: t)).next.2.faces = faces rest := by
    apply Reader.faces_congr
    rw [Reader.next_of_cons hr, hcut]
    rfl
  rw [hall, faces, Reader.faces_of_ne_nil (by simp [hr]), hrest, Reader.next_of_cons hr, hcut]
  rfl

theorem faces_lineFeed (rest : Text) : faces ('\n' :: rest) = faces rest :=
  faces_of_form .lineFeed

theorem faces_dropWhile_isSpace (t : Text) : faces (t.dropWhile isSpace) = faces t := by
  by_cases h : t.takeWhile isSpace = []
  · have hall := List.takeWhile_append_dropWhile (p := isSpace) (l := t)
    rw [h, List.nil_append] at hall
    rw [hall]
  · have hform : Form (t.dropWhile isSpace) .space true (t.takeWhile isSpace) :=
      .space h (fun c hc => List.mem_takeWhile_imp hc) (head_dropWhile isSpace t)
    have hread := faces_of_form hform
    rw [List.takeWhile_append_dropWhile] at hread
    exact hread.symm

theorem faces_space {c : Char} (hc : isSpace c = true) (rest : Text) :
    faces (c :: rest) = faces rest := by
  rw [← faces_dropWhile_isSpace (c :: rest), List.dropWhile_cons_of_pos hc,
    faces_dropWhile_isSpace]

theorem faces_blanks {sep : Text} (h : ∀ c ∈ sep, c = ' ' ∨ c = '\t' ∨ c = '\n') (rest : Text) :
    faces (sep ++ rest) = faces rest := by
  induction sep with
  | nil => rfl
  | cons c sep ih =>
    obtain ⟨hc, hsep⟩ := List.forall_mem_cons.mp h
    rw [List.cons_append, ← ih hsep]
    rcases hc with rfl | rfl | rfl
    · exact faces_space rfl _
    · exact faces_space rfl _
    · exact faces_lineFeed _

/-- A separator is read over. -/
theorem faces_separator {k k' : Kind} {sep : Text} (h : Separates k k' sep) (rest : Text) :
    faces (sep ++ rest) = faces rest := by
  cases h with
  | blank _ hblank _ => exact faces_blanks hblank rest
  | nothing => rfl

/-! ### Tokens that can be moved -/

theorem Lexeme.form {kind : Kind} {text rest : Text} (h : Lexeme kind text)
    (hends : Ends kind rest) : Form rest kind true text :=
  first?_iff_form.mp (h rest hends)

theorem lexeme_of_form {rest text : Text} {kind : Kind} (h : Form rest kind true text)
    (hvisible : kind.isVisible = true) (hrest : kind = .unquoted → rest ≠ []) :
    Lexeme kind text := by
  obtain ⟨c, t, escaped, -, hcut⟩ := h.exists_cut
  have hspace : kind ≠ .space := by
    rintro rfl
    simp [Kind.isVisible] at hvisible
  have hbreak : kind ≠ .lineBreak := by
    rintro rfl
    simp [Kind.isVisible] at hvisible
  exact lexeme_of_cut hcut rfl hspace hbreak hrest

/-- Tokens that are complete: the last can stand at the end of a text, and every other one in front
of all that ends it. -/
def Sturdy : List Token → Prop
  | [] => True
  | t :: rest =>
    t.kind.isVisible = true ∧ t.closed = true ∧ Form [] t.kind true t.text ∧
      (rest ≠ [] → Lexeme t.kind t.text) ∧ Sturdy rest

theorem Sturdy.closed {tokens : List Token} (h : Sturdy tokens) {t : Token} (ht : t ∈ tokens) :
    t.closed = true := by
  induction tokens with
  | nil => contradiction
  | cons u rest ih =>
    obtain ⟨-, hclosed, -, -, hrest⟩ := h
    rcases List.mem_cons.mp ht with rfl | ht
    · exact hclosed
    · exact ih hrest ht

/-- The visible tokens are complete where nothing is reported. An unquoted argument at the very end
of the text may end with a backslash, so that nothing can follow it. -/
theorem Reader.sturdy_visible {r : Reader} (h : ∀ t ∈ r.tokens, t.fault? = none) :
    Sturdy (r.tokens.filter (·.kind.isVisible)) := by
  fun_induction tokens r with
  | case1 r hr => simp [next_of_nil hr, stopToken, Kind.isVisible, Sturdy]
  | case2 r hr ih =>
    obtain ⟨hfirst, hrest⟩ := List.forall_mem_cons.mp h
    by_cases hvisible : r.next.1.kind.isVisible = true
    · have hform := form_next hr
      have hclosed : r.next.1.closed = true := by
        rw [fault?_of_form hform] at hfirst
        by_contra hopen
        simp [hopen] at hfirst
      rw [hclosed] at hform
      rw [List.filter_cons_of_pos (by exact hvisible)]
      refine ⟨hvisible, hclosed, ?_, ?_, ih hrest⟩
      · by_cases hnil : r.next.2.ahead = []
        · exact hnil ▸ hform
        · exact (lexeme_of_form hform hvisible fun _ => hnil).form (ends_nil _)
      · intro hmore
        apply lexeme_of_form hform hvisible
        rintro - hnil
        simp [tokens_of_nil hnil, stopToken, Kind.isVisible] at hmore
    · rw [List.filter_cons_of_neg (by exact hvisible)]
      exact ih hrest

theorem Respaced.exists_append {t : Token} {rest : List Token} {w : Text}
    (h : Respaced (t :: rest) w) : ∃ v, w = t.text ++ v := by
  cases h with
  | single => exact ⟨[], (List.append_nil _).symm⟩
  | cons _ _ => exact ⟨_, List.append_assoc ..⟩

theorem eq_singleton_of_isParen {text : Text} {kind : Kind} (hparen : kind.isParen = true)
    (h : Form [] kind true text) : ∃ c, text = [c] ∧ endsUnquoted c = true := by
  cases h with
  | openParen => exact ⟨'(', rfl, rfl⟩
  | closeParen => exact ⟨')', rfl, rfl⟩
  | _ => simp [Kind.isParen] at hparen

/-- A separator, or the parenthesis that stands without one, ends the token in front of it. -/
theorem ends_separator {t u : Token} {rest : List Token} {sep w : Text}
    (hsep : Separates t.kind u.kind sep) (hu : Form [] u.kind true u.text)
    (hw : Respaced (u :: rest) w) : Ends t.kind (sep ++ w) := by
  cases hsep with
  | blank hne hblank hcomment =>
    obtain ⟨c, sep, rfl⟩ := List.exists_cons_of_ne_nil hne
    cases hk : t.kind with
    | unquoted =>
      rintro d ⟨⟩
      rcases hblank c (by simp) with rfl | rfl | rfl <;> rfl
    | lineComment =>
      rintro d ⟨⟩
      obtain rfl : c = '\n' := Option.some.inj (hcomment hk)
      rfl
    | _ => trivial
  | nothing hcomment hparen =>
    cases hk : t.kind with
    | unquoted =>
      have hnext : u.kind.isParen = true := by simpa [hk, Kind.isParen] using hparen
      obtain ⟨c, htext, hc⟩ := eq_singleton_of_isParen hnext hu
      obtain ⟨v, rfl⟩ := hw.exists_append
      rw [htext]
      rintro d ⟨⟩
      exact hc
    | lineComment => exact absurd hk hcomment
    | _ => trivial

theorem faces_respaced {tokens : List Token} {w : Text} (h : Respaced tokens w)
    (hs : Sturdy tokens) : faces w = tokens.map face := by
  induction h with
  | nil => exact faces_nil
  | single t =>
    obtain ⟨hvisible, hclosed, hform, -, -⟩ := hs
    have hread := faces_of_form hform
    rw [List.append_nil] at hread
    simp [hread, hvisible, face, hclosed]
  | @cons t u rest sep w hsep hw ih =>
    obtain ⟨hvisible, hclosed, -, hlexeme, hrest⟩ := hs
    have hends := ends_separator hsep hrest.2.2.1 hw
    rw [List.append_assoc, faces_of_form ((hlexeme (by simp)).form hends), faces_separator hsep,
      ih hrest]
    simp [hvisible, face, hclosed]

/-! ### Whole texts -/

/-- Whether a report is due shows in the face of a token, and only visible tokens are reported. -/
theorem faults_eq_nil_of_faces {w : Text} (h : ∀ f ∈ faces w, f.2.2 = true) :
    faults (scan w) = [] := by
  apply List.filterMap_eq_nil_iff.mpr
  intro t ht
  by_cases hvisible : t.kind.isVisible = true
  · have hclosed : t.closed = true :=
      h (face t) (List.mem_map_of_mem (List.mem_filter.mpr ⟨ht, hvisible⟩))
    simp [fault?, hclosed]
  · cases hk : t.kind <;> simp [hk, Kind.isVisible] at hvisible <;> simp [fault?, hk]

/-- The visible tokens of a text without faults, written again in the same order with separators
between them, are read as the same tokens, and again without faults. -/
theorem tokens_survive_respacing {s w : Text} (hs : faults (scan s) = [])
    (hw : Respaced ((scan s).filter (·.kind.isVisible)) w) :
    faults (scan w) = [] ∧
      ((scan w).filter (·.kind.isVisible)).map (fun t => (t.kind, t.text)) =
        ((scan s).filter (·.kind.isVisible)).map (fun t => (t.kind, t.text)) := by
  have hsturdy : Sturdy ((scan s).filter (·.kind.isVisible)) :=
    Reader.sturdy_visible (List.filterMap_eq_nil_iff.mp hs)
  have hfaces : faces w = ((scan s).filter (·.kind.isVisible)).map face :=
    faces_respaced hw hsturdy
  constructor
  · apply faults_eq_nil_of_faces
    intro f hf
    rw [hfaces] at hf
    obtain ⟨t, ht, rfl⟩ := List.mem_map.mp hf
    exact hsturdy.closed ht
  · have hmap := congrArg (List.map fun f => (f.1, f.2.1)) hfaces
    simpa [faces, Reader.faces, scan, Function.comp_def, face] using hmap

/-- A call with a line comment, with every blank between its tokens changed. -/
theorem tokens_survive_respacing_sample :
    let s := "a(b #c\n)".toList
    let w := "a\n(b\t#c\n )".toList
    faults (scan s) = [] ∧ Respaced ((scan s).filter (·.kind.isVisible)) w ∧
      faults (scan w) = [] ∧
      ((scan w).filter (·.kind.isVisible)).map (fun t => (t.kind, t.text)) =
        ((scan s).filter (·.kind.isVisible)).map (fun t => (t.kind, t.text)) := by
  intro s w
  have hs : faults (scan s) = [] := by decide +kernel
  have htokens : (scan s).filter (·.kind.isVisible) =
      [⟨.unquoted, ['a'], ⟨0, 1, by decide⟩, true, false, true⟩,
        ⟨.openParen, ['('], ⟨1, 2, by decide⟩, false, false, true⟩,
        ⟨.unquoted, ['b'], ⟨2, 3, by decide⟩, false, false, true⟩,
        ⟨.lineComment, ['#', 'c'], ⟨4, 6, by decide⟩, false, false, true⟩,
        ⟨.closeParen, [')'], ⟨7, 8, by decide⟩, true, false, true⟩] := by decide +kernel
  have hw : Respaced ((scan s).filter (·.kind.isVisible))
      (['a'] ++ ['\n'] ++ (['('] ++ [] ++ (['b'] ++ ['\t'] ++
        (['#', 'c'] ++ ['\n', ' '] ++ [')'])))) := by
    rw [htokens]
    refine .cons (.blank ?_ ?_ ?_) (.cons (.nothing ?_ ?_)
      (.cons (.blank ?_ ?_ ?_) (.cons (.blank ?_ ?_ ?_) (.single _))))
    all_goals simp [Kind.isParen]
  exact ⟨hs, hw, tokens_survive_respacing hs hw⟩

end Listfile.Token
