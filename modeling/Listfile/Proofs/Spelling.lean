import Listfile.Layout.Arguments
import Listfile.Proofs.Enclosed
import Listfile.Proofs.Row
import Mathlib.Data.List.DropRight

/-! Argument lists as they are written and read back. `Spells` says which texts
may stand for an argument list: each argument on its own, with a space or a line
break between two of them and a line break behind every line comment. Both the
list on one line and the wrapped list are such texts, whatever the widths and
columns are. A text that spells a list of legible arguments and is closed by a
parenthesis is read back as that list (`ink_spells`). -/

namespace Listfile

open Token Layout

/-! ### Legible arguments -/

/-- The text of a line comment once it is written, without the number sign. -/
def settleText (s : Style) (text : Text) : Text :=
  if s.trimComments then ' ' :: Text.trim text else text

theorem lineCommentText_eq (s : Style) (text : Text) :
    lineCommentText s text = '#' :: settleText s text := by
  unfold lineCommentText settleText
  split <;> rfl

mutual

/-- Every part of an argument is one token wherever it is written. -/
def Argument.Legible : Argument → Prop
  | .unquoted text => Lexeme .unquoted text
  | .quoted text => Lexeme .quoted ('"' :: (text ++ ['"']))
  | .bracket text fence _ => Lexeme .bracket (bracketText text fence)
  | .group arguments => Argument.LegibleAll arguments
  | .lineComment text _ => Lexeme .lineComment ('#' :: text)
  | .bracketComment text fence _ => Lexeme .bracketComment (bracketCommentText text fence)
  | .unknown => False

def Argument.LegibleAll : List Argument → Prop
  | [] => True
  | a :: rest => a.Legible ∧ Argument.LegibleAll rest

end

theorem Argument.legibleAll_iff (list : List Argument) :
    Argument.LegibleAll list ↔ ∀ a ∈ list, a.Legible := by
  induction list with
  | nil => simp [Argument.LegibleAll]
  | cons a rest ih => simp [Argument.LegibleAll, ih]

mutual

/-- Every part of an argument is written. -/
def Argument.Known : Argument → Prop
  | .group arguments => Argument.KnownAll arguments
  | .unknown => False
  | _ => True

def Argument.KnownAll : List Argument → Prop
  | [] => True
  | a :: rest => a.Known ∧ Argument.KnownAll rest

end

mutual

theorem Argument.Legible.known : ∀ {a : Argument}, a.Legible → a.Known
  | .unquoted _, _ | .quoted _, _ | .bracket _ _ _, _ | .lineComment _ _, _
  | .bracketComment _ _ _, _ => trivial
  | .group _, h => Argument.LegibleAll.known h

theorem Argument.LegibleAll.known :
    ∀ {list : List Argument}, Argument.LegibleAll list → Argument.KnownAll list
  | [], _ => trivial
  | _ :: _, h => ⟨Argument.Legible.known h.1, Argument.LegibleAll.known h.2⟩

end

/-- The kind of the token that an argument is written as, if it is no group. -/
def Argument.kind? : Argument → Option Kind
  | .unquoted _ => some .unquoted
  | .quoted _ => some .quoted
  | .bracket _ _ _ => some .bracket
  | .lineComment _ _ => some .lineComment
  | .bracketComment _ _ _ => some .bracketComment
  | .group _ => none
  | .unknown => none

/-! ### Trimming comments -/

theorem mem_of_mem_trim {c : Char} {t : Text} (h : c ∈ Text.trim t) : c ∈ t := by
  have hend : c ∈ t.dropWhile Text.isBlank := by
    rw [Text.trim, Text.trimEnd, List.mem_reverse] at h
    exact List.mem_reverse.mp ((List.dropWhile_suffix _).subset h)
  exact (List.dropWhile_suffix _).subset hend

theorem trimEnd_cons {c : Char} (hc : Text.isBlank c = false) (t : Text) :
    Text.trimEnd (c :: t) = c :: Text.trimEnd t := by
  unfold Text.trimEnd
  rw [List.reverse_cons, List.dropWhile_append]
  split
  · next h =>
    have hnil : t.reverse.dropWhile Text.isBlank = [] := by simpa using h
    simp [hnil, hc]
  · simp

theorem dropWhile_trim (t : Text) : (Text.trim t).dropWhile Text.isBlank = Text.trim t := by
  unfold Text.trim
  cases h : t.dropWhile Text.isBlank with
  | nil => rfl
  | cons c u =>
    have hc : Text.isBlank c = false := by
      have := List.head?_dropWhile_not Text.isBlank t
      simpa [h] using this
    simp [trimEnd_cons hc, hc]

theorem trimEnd_trimEnd (t : Text) : Text.trimEnd (Text.trimEnd t) = Text.trimEnd t := by
  simp [Text.trimEnd, List.dropWhile_idempotent]

/-- A text that is trimmed stays as it is, also behind a blank. -/
theorem trim_space_trim (t : Text) : Text.trim (' ' :: Text.trim t) = Text.trim t := by
  have hblank : Text.isBlank ' ' = true := by decide
  rw [Text.trim, List.dropWhile_cons_of_pos hblank, dropWhile_trim, Text.trim, trimEnd_trimEnd]

/-- A comment that is written is written again in the same way. -/
theorem settleText_settleText (s : Style) (text : Text) :
    settleText s (settleText s text) = settleText s text := by
  unfold settleText
  split
  · rw [trim_space_trim]
  · rfl

/-- The text of a line comment as far as formatting keeps it. -/
def commentForm (s : Style) : Text → Text := if s.trimComments then Text.trim else id

theorem commentForm_settleText (s : Style) (text : Text) :
    commentForm s (settleText s text) = commentForm s text := by
  unfold commentForm settleText
  split
  · exact trim_space_trim text
  · rfl

theorem lineCommentText_settleText (s : Style) (text : Text) :
    lineCommentText s (settleText s text) = lineCommentText s text := by
  rw [lineCommentText_eq, lineCommentText_eq, settleText_settleText]

theorem lexeme_lineCommentText {text : Text} (h : Lexeme .lineComment ('#' :: text)) (s : Style) :
    Lexeme .lineComment (lineCommentText s text) := by
  obtain ⟨body, heq, hbreak, hfence⟩ := h.lineComment_eq
  obtain rfl : text = body := (List.cons.inj heq).2
  unfold lineCommentText
  split
  · refine lexeme_lineComment (fun c hc => ?_) rfl
    rcases List.mem_cons.mp hc with rfl | hc
    · rfl
    · exact hbreak c (mem_of_mem_trim hc)
  · exact h

theorem fenceOf_bracketText (text : Text) (fence : Nat) :
    Parse.fenceOf (bracketText text fence) = fence := by
  simp [Parse.fenceOf, bracketText, fence?_opener_append]

theorem bracketBody_bracketText (text : Text) (fence : Nat) :
    Parse.bracketBody fence (bracketText text fence) = text :=
  bracketBody_append fence text

/-- A leaf is written as a token from which it is read back. -/
theorem Argument.Legible.leaf {a : Argument} (h : a.Legible) {k : Kind} (hk : a.kind? = some k)
    (s : Style) (lines : LineIndex) :
    ∃ text, inline? s a = some text ∧ Lexeme k text ∧
      ∀ t : Token, t.kind = k → t.text = text →
        ∃ b, Parse.argument? lines t = some b ∧ b.plain id = a.plain (settleText s) := by
  cases a with
  | unquoted text =>
    obtain rfl : Kind.unquoted = k := Option.some.inj hk
    refine ⟨_, rfl, h, fun t hkind htext => ?_⟩
    simp only [Parse.argument?, hkind, htext]
    exact ⟨_, rfl, rfl⟩
  | quoted text =>
    obtain rfl : Kind.quoted = k := Option.some.inj hk
    refine ⟨_, rfl, h, fun t hkind htext => ?_⟩
    obtain ⟨body, heq, hescaped⟩ := Lexeme.quoted_eq h
    obtain rfl : text = body := List.append_cancel_right (List.cons.inj heq).2
    simp only [Parse.argument?, hkind, htext, quotedBody_of_quotesEscaped hescaped]
    exact ⟨_, rfl, rfl⟩
  | bracket text fence location =>
    obtain rfl : Kind.bracket = k := Option.some.inj hk
    refine ⟨_, rfl, h, fun t hkind htext => ?_⟩
    simp only [Parse.argument?, hkind, htext, fenceOf_bracketText, bracketBody_bracketText]
    exact ⟨_, rfl, rfl⟩
  | lineComment text location =>
    obtain rfl : Kind.lineComment = k := Option.some.inj hk
    refine ⟨_, rfl, lexeme_lineCommentText h s, fun t hkind htext => ?_⟩
    simp only [Parse.argument?, hkind, htext, lineCommentText_eq, List.tail_cons]
    exact ⟨_, rfl, rfl⟩
  | bracketComment text fence location =>
    obtain rfl : Kind.bracketComment = k := Option.some.inj hk
    refine ⟨_, rfl, h, fun t hkind htext => ?_⟩
    simp only [Parse.argument?, hkind, htext, bracketCommentText, List.tail_cons,
      fenceOf_bracketText, bracketBody_bracketText]
    exact ⟨_, rfl, rfl⟩
  | group list => contradiction
  | unknown => contradiction

/-! ### Arguments in their plain form

The layout of an argument list sees neither places nor what settling does to the
texts of its line comments. -/

mutual

theorem inline?_plain (s : Style) :
    ∀ a : Argument, inline? s (a.plain (settleText s)) = inline? s a
  | .unquoted _ | .quoted _ | .bracket _ _ _ | .bracketComment _ _ _ | .unknown => rfl
  | .lineComment text _ => by
    rw [Argument.plain, inline?, inline?, lineCommentText_settleText]
  | .group xs => by rw [Argument.plain, inline?, inline?, inlineAll_plainAll s xs]

theorem inlineAll_plainAll (s : Style) :
    ∀ list : List Argument, inlineAll s (Argument.plainAll (settleText s) list) = inlineAll s list
  | [] => rfl
  | a :: rest => by
    rw [Argument.plainAll, inlineAll, inlineAll, inline?_plain s a, inlineAll_plainAll s rest]

end

mutual

theorem hasLineComment_plain (f : Text → Text) :
    ∀ a : Argument, hasLineComment (a.plain f) = hasLineComment a
  | .unquoted _ | .quoted _ | .bracket _ _ _ | .bracketComment _ _ _ | .unknown
  | .lineComment _ _ => rfl
  | .group xs => by
    rw [Argument.plain, hasLineComment, hasLineComment, anyLineComment_plainAll f xs]

theorem anyLineComment_plainAll (f : Text → Text) :
    ∀ list : List Argument, anyLineComment (Argument.plainAll f list) = anyLineComment list
  | [] => rfl
  | a :: rest => by
    rw [Argument.plainAll, anyLineComment, anyLineComment, hasLineComment_plain f a,
      anyLineComment_plainAll f rest]

end

theorem isLineComment_plain (f : Text → Text) (a : Argument) :
    isLineComment (a.plain f) = isLineComment a := by
  cases a <;> rfl

theorem any_isKnown_plainAll (f : Text → Text) (list : List Argument) :
    (Argument.plainAll f list).any isKnown = list.any isKnown := by
  have hknown (a : Argument) : isKnown (a.plain f) = isKnown a := by cases a <;> rfl
  simp [Argument.plainAll_eq_map, Function.comp_def, hknown]

mutual

theorem wrapOne_plain (s : Style) :
    ∀ (a : Argument) (column hanging reserve : Int) (text : Text),
      wrapOne s column hanging reserve text (a.plain (settleText s)) =
        wrapOne s column hanging reserve text a
  | .unquoted _, _, _, _, _ | .quoted _, _, _, _, _ | .bracket _ _ _, _, _, _, _
  | .bracketComment _ _ _, _, _, _, _ | .unknown, _, _, _, _ | .lineComment _ _, _, _, _, _ => rfl
  | .group xs, column, hanging, reserve, text => by
    rw [Argument.plain, wrapOne, wrapOne, anyLineComment_plainAll, wrapFrom_plainAll s xs]

theorem wrapFrom_plainAll (s : Style) :
    ∀ (list : List Argument) (hanging closing column : Int) (place : Place),
      wrapFrom s hanging closing column place (Argument.plainAll (settleText s) list) =
        wrapFrom s hanging closing column place list
  | [], _, _, _, _ => rfl
  | a :: rest, hanging, closing, column, place => by
    rw [Argument.plainAll, wrapFrom, wrapFrom, inline?_plain s a]
    cases inline? s a with
    | none => exact wrapFrom_plainAll s rest hanging closing column place
    | some text =>
      simp only [any_isKnown_plainAll, isLineComment_plain, wrapOne_plain s a,
        wrapFrom_plainAll s rest]

end

theorem arguments_plainAll (s : Style) (column hanging closing : Int) (list : List Argument) :
    arguments s column hanging closing (Argument.plainAll (settleText s) list) =
      arguments s column hanging closing list := by
  simp only [arguments, inlineAll_plainAll, anyLineComment_plainAll, wrapFrom_plainAll]

/-! ### Texts that spell an argument list -/

/-- What may stand before an argument. -/
def Gapped : Place → Text → Prop
  | .first, gap => gap = []
  | .behind, gap => gap = [' '] ∨ ∃ column, gap = breakTo column
  | .belowComment, gap => ∃ column, gap = breakTo column

/-- The place behind an argument. -/
def placeBehind (a : Argument) : Place := if isLineComment a then .belowComment else .behind

/-- The texts that may stand for the rest of an argument list. -/
inductive Spells (s : Style) : Place → List Argument → Text → Prop
  | nil {place : Place} (h : place ≠ .belowComment) : Spells s place [] []
  | lastLine (column : Int) : Spells s .belowComment [] (breakTo column)
  | leaf {place : Place} {gap text more : Text} {a : Argument} {rest : List Argument} {k : Kind}
      (hgap : Gapped place gap) (hk : a.kind? = some k) (ha : inline? s a = some text)
      (h : Spells s (placeBehind a) rest more) : Spells s place (a :: rest) (gap ++ (text ++ more))
  | group {place : Place} {gap inner more : Text} {xs rest : List Argument}
      (hgap : Gapped place gap) (hi : Spells s .first xs inner) (h : Spells s .behind rest more) :
      Spells s place (.group xs :: rest) (gap ++ ('(' :: (inner ++ [')']) ++ more))

variable {s : Style}

/-- A text that may stand for an argument wherever one may stand. -/
def Spelled (s : Style) (a : Argument) (text : Text) : Prop :=
  ∀ place gap rest more, Gapped place gap → Spells s (placeBehind a) rest more →
    Spells s place (a :: rest) (gap ++ (text ++ more))

theorem spelled_leaf {a : Argument} {k : Kind} (hk : a.kind? = some k) {text : Text}
    (ha : inline? s a = some text) : Spelled s a text :=
  fun _ _ _ _ hgap h => .leaf hgap hk ha h

theorem spelled_group {xs : List Argument} {inner : Text} (hi : Spells s .first xs inner) :
    Spelled s (.group xs) ('(' :: (inner ++ [')'])) :=
  fun _ _ _ _ hgap h => .group hgap hi h

theorem unwords_cons (t : Text) (ts : List Text) :
    Text.unwords (t :: ts) = t ++ ts.flatMap (' ' :: ·) := by
  induction ts generalizing t with
  | nil => simp [Text.unwords, Text.join]
  | cons u ts ih =>
    rw [List.flatMap_cons, List.cons_append, ← ih]
    simp [Text.unwords, Text.join]

theorem Argument.Known.inline {a : Argument} (h : a.Known) (s : Style) :
    ∃ text, inline? s a = some text := by
  cases a <;> first | exact ⟨_, rfl⟩ | contradiction

theorem placeBehind_of_hasLineComment {a : Argument} (h : hasLineComment a = false) :
    placeBehind a = .behind := by
  cases a <;> first | rfl | contradiction

mutual

/-- An argument without line comments, on one line. -/
theorem spelled_inline (s : Style) :
    ∀ (a : Argument) (text : Text), a.Known → hasLineComment a = false →
      inline? s a = some text → Spelled s a text
  | .unquoted _, _, _, _, ht => spelled_leaf rfl ht
  | .quoted _, _, _, _, ht => spelled_leaf rfl ht
  | .bracket _ _ _, _, _, _, ht => spelled_leaf rfl ht
  | .bracketComment _ _ _, _, _, _, ht => spelled_leaf rfl ht
  | .lineComment _ _, _, _, hc, _ => nomatch hc
  | .unknown, _, h, _, _ => h.elim
  | .group xs, text, h, hc, ht => by
    obtain rfl : '(' :: (Text.unwords (inlineAll s xs) ++ [')']) = text := Option.some.inj ht
    exact spelled_group (spells_inlineAll s xs h hc).1

/-- An argument list without line comments, on one line, at its start and behind an argument. -/
theorem spells_inlineAll (s : Style) :
    ∀ list : List Argument, Argument.KnownAll list → anyLineComment list = false →
      Spells s .first list (Text.unwords (inlineAll s list)) ∧
        Spells s .behind list ((inlineAll s list).flatMap (' ' :: ·))
  | [], _, _ => ⟨.nil (by decide), .nil (by decide)⟩
  | a :: rest, h, hc => by
    obtain ⟨text, ht⟩ := h.1.inline s
    obtain ⟨hca, hcrest⟩ : hasLineComment a = false ∧ anyLineComment rest = false := by
      simpa [anyLineComment] using hc
    have hspelled := spelled_inline s a text h.1 hca ht
    have hrest := (spells_inlineAll s rest h.2 hcrest).2
    rw [← placeBehind_of_hasLineComment hca] at hrest
    have hall : inlineAll s (a :: rest) = text :: inlineAll s rest := by rw [inlineAll, ht]
    rw [hall, unwords_cons, List.flatMap_cons]
    exact ⟨hspelled .first [] rest _ rfl hrest, hspelled .behind [' '] rest _ (.inl rfl) hrest⟩

end

theorem gapped_before (s : Style) (column : Int) (width : Nat) (reserve hanging : Int)
    (place : Place) : Gapped place ((Gap.before s column width reserve place).text hanging) := by
  cases place with
  | first => rfl
  | behind =>
    simp only [Gap.before]
    split
    · exact .inr ⟨hanging, rfl⟩
    · exact .inl rfl
  | belowComment => exact ⟨hanging, rfl⟩

mutual

/-- An argument of a wrapped list. -/
theorem spelled_wrapOne (s : Style) :
    ∀ (a : Argument) (column hanging reserve : Int) (text : Text), a.Known →
      inline? s a = some text → Spelled s a (wrapOne s column hanging reserve text a)
  | .unquoted _, _, _, _, _, _, ht => spelled_leaf rfl ht
  | .quoted _, _, _, _, _, _, ht => spelled_leaf rfl ht
  | .bracket _ _ _, _, _, _, _, _, ht => spelled_leaf rfl ht
  | .bracketComment _ _ _, _, _, _, _, _, ht => spelled_leaf rfl ht
  | .lineComment _ _, _, _, _, _, _, ht => spelled_leaf rfl ht
  | .unknown, _, _, _, _, h, _ => h.elim
  | .group xs, column, hanging, reserve, text, h, ht => by
    rw [wrapOne]
    split
    · exact spelled_group (spells_wrapFrom s xs _ _ _ _ h)
    · next hfit =>
      have hc : anyLineComment xs = false := by simp_all
      exact spelled_inline s (.group xs) text h hc ht

/-- A wrapped list. -/
theorem spells_wrapFrom (s : Style) :
    ∀ (list : List Argument) (hanging closing column : Int) (place : Place),
      Argument.KnownAll list →
        Spells s place list (wrapFrom s hanging closing column place list)
  | [], hanging, _, _, place, _ => by
    rw [wrapFrom]
    split
    · next h => exact h ▸ .lastLine hanging
    · next h => exact .nil h
  | a :: rest, hanging, closing, column, place, h => by
    obtain ⟨text, ht⟩ := h.1.inline s
    rw [wrapFrom, ht]
    simp only [List.append_assoc]
    refine spelled_wrapOne s a _ _ _ text h.1 ht place _ rest _ ?_
      (spells_wrapFrom s rest _ _ _ _ h.2)
    exact gapped_before s _ _ _ _ place

end

/-- Every layout of an argument list spells it. -/
theorem spells_arguments (s : Style) (column hanging closing : Int) {list : List Argument}
    (h : Argument.KnownAll list) :
    Spells s .first list (arguments s column hanging closing list) := by
  simp only [arguments]
  split
  · next hfit => exact (spells_inlineAll s list h (by simp_all)).1
  · exact spells_wrapFrom s list hanging closing column .first h

/-! ### Reading a spelled list -/

/-- The character behind an argument ends it. -/
theorem endsUnquoted_of_spells {list : List Argument} {more : Text}
    (h : Spells s .behind list more) (tail : Text) : Ends .unquoted (more ++ ')' :: tail) := by
  have hgap (gap u : Text) (hg : Gapped .behind gap) : Ends .unquoted (gap ++ u ++ ')' :: tail) := by
    rcases hg with rfl | ⟨column, rfl⟩ <;> simp [Ends, breakTo, endsUnquoted, isSpace, isBreak]
  cases h with
  | nil => simp [Ends, endsUnquoted, isSpace, isBreak]
  | leaf hg _ _ _ => exact hgap _ _ hg
  | group hg _ _ => exact hgap _ _ hg

/-- Behind a line comment the line ends. -/
theorem endsLine_of_spells {list : List Argument} {more : Text}
    (h : Spells s .belowComment list more) (tail : Text) :
    Ends .lineComment (more ++ ')' :: tail) := by
  have hgap (gap u : Text) (hg : Gapped .belowComment gap) :
      Ends .lineComment (gap ++ u ++ ')' :: tail) := by
    obtain ⟨column, rfl⟩ := hg
    simp [Ends, breakTo, isBreak]
  cases h with
  | nil h => contradiction
  | lastLine column => simp [Ends, breakTo, isBreak]
  | leaf hg _ _ _ => exact hgap _ _ hg
  | group hg _ _ => exact hgap _ _ hg

theorem ends_of_spells {a : Argument} {k : Kind} (hk : a.kind? = some k) {list : List Argument}
    {more : Text} (h : Spells s (placeBehind a) list more) (tail : Text) :
    Ends k (more ++ ')' :: tail) := by
  cases a <;> cases hk
  · exact endsUnquoted_of_spells h tail
  · trivial
  · trivial
  · exact endsLine_of_spells h tail
  · trivial

/-- Tokens that stand for an argument list, all of them complete. -/
def ReadsAs (lines : LineIndex) (tokens : List Token) (list : List Argument) : Prop :=
  ∃ as, Parse.Reads lines tokens as ∧ Argument.plainAll id as = list ∧ ∀ t ∈ tokens, t.closed = true

theorem ReadsAs.append {lines : LineIndex} {ts us : List Token} {as bs : List Argument}
    (h : ReadsAs lines ts as) (h' : ReadsAs lines us bs) :
    ReadsAs lines (ts ++ us) (as ++ bs) := by
  obtain ⟨xs, hxs, rfl, hclosed⟩ := h
  obtain ⟨ys, hys, rfl, hclosed'⟩ := h'
  refine ⟨xs ++ ys, hxs.append hys, ?_, ?_⟩
  · simp [Argument.plainAll_eq_map]
  · intro t ht
    rcases List.mem_append.mp ht with ht | ht
    · exact hclosed t ht
    · exact hclosed' t ht

theorem ReadsAs.group {lines : LineIndex} {o c : Token} {inner : List Token}
    {xs : List Argument} (ho : o.kind = .openParen ∧ o.closed = true)
    (hc : c.kind = .closeParen ∧ c.closed = true) (h : ReadsAs lines inner xs) :
    ReadsAs lines (o :: (inner ++ [c])) [.group xs] := by
  obtain ⟨as, hreads, rfl, hclosed⟩ := h
  refine ⟨[.group as], .group ho.1 hc.1 hreads .nil, rfl, ?_⟩
  simpa [or_imp, forall_and] using ⟨ho.2, hclosed, hc.2⟩

/-- A parenthesis is one token. -/
theorem ink_paren {k : Kind} {c : Char} (h : Lexeme k [c]) (hk : k = .openParen ∨ k = .closeParen)
    (rest : Text) (offset : Nat) (b : Bool) :
    ∃ t : Token, (t.kind = k ∧ t.closed = true) ∧
      (Reader.mk (c :: rest) offset b).ink = t :: (Reader.mk rest (offset + 1) false).ink := by
  rcases hk with rfl | rfl
  · obtain ⟨t, htk, -, -, htc, hink⟩ :=
      Reader.ink_lexeme h (by decide) (by decide) trivial offset b
    exact ⟨t, ⟨htk, htc⟩, hink⟩
  · obtain ⟨t, htk, -, -, htc, hink⟩ :=
      Reader.ink_lexeme h (by decide) (by decide) trivial offset b
    exact ⟨t, ⟨htk, htc⟩, hink⟩

/-- A gap is read over. -/
theorem ink_gap {place : Place} {gap : Text} (h : Gapped place gap) (lines : LineIndex)
    (rest : Text) (offset : Nat) (b : Bool) :
    ∃ breaks offset' b', (Reader.mk (gap ++ rest) offset b).ink =
      breaks ++ (Reader.mk rest offset' b').ink ∧ ReadsAs lines breaks [] := by
  have hnone : ReadsAs lines [] [] := ⟨[], .nil, rfl, by simp⟩
  have hbreak (column : Int) : ∃ breaks offset' b',
      (Reader.mk (breakTo column ++ rest) offset b).ink =
        breaks ++ (Reader.mk rest offset' b').ink ∧ ReadsAs lines breaks [] := by
    obtain ⟨t, htk, htc, hink⟩ :=
      Reader.ink_lineFeed (Text.spaces column.toNat ++ rest) offset b
    rw [breakTo, List.cons_append, hink, Reader.ink_spaces]
    exact ⟨[t], _, _, rfl, [], .lineBreak htk .nil, rfl, by simp [htc]⟩
  cases place with
  | first =>
    obtain rfl : gap = [] := h
    exact ⟨[], offset, b, rfl, hnone⟩
  | behind =>
    rcases h with rfl | ⟨column, rfl⟩
    · exact ⟨[], offset + 1, b, Reader.ink_space rest offset b, hnone⟩
    · exact hbreak column
  | belowComment =>
    obtain ⟨column, rfl⟩ := h
    exact hbreak column

/-- A spelled list up to the parenthesis that closes it. -/
theorem ink_spells {place : Place} {list : List Argument} {text : Text}
    (h : Spells s place list text) (hl : Argument.LegibleAll list) (lines : LineIndex)
    (rest : Text) (offset : Nat) (b : Bool) :
    ∃ inner offset' b', (Reader.mk (text ++ ')' :: rest) offset b).ink =
      inner ++ (Reader.mk (')' :: rest) offset' b').ink ∧
        ReadsAs lines inner (Argument.plainAll (settleText s) list) := by
  induction h generalizing rest offset b with
  | nil => exact ⟨[], offset, b, rfl, [], .nil, rfl, by simp⟩
  | lastLine column =>
    have hgap : Gapped .belowComment (breakTo column) := ⟨column, rfl⟩
    exact ink_gap hgap lines (')' :: rest) offset b
  | leaf hgap hk ha h ih =>
    next place gap text more a list k =>
    obtain ⟨breaks, offset₁, b₁, hink₁, hbreaks⟩ :=
      ink_gap hgap lines (text ++ (more ++ ')' :: rest)) offset b
    obtain ⟨text', htext, hlexeme, hargument⟩ := hl.1.leaf hk s lines
    obtain rfl : text' = text := Option.some.inj (htext.symm.trans ha)
    obtain ⟨hs, he⟩ : k ≠ .space ∧ k ≠ .endOfFile := by
      cases a <;> cases hk <;> decide
    obtain ⟨t, htk, htt, -, htc, hink₂⟩ :=
      Reader.ink_lexeme hlexeme hs he (ends_of_spells hk h rest) offset₁ b₁
    obtain ⟨inner, offset', b', hink₃, hinner⟩ := ih hl.2 rest _ _
    obtain ⟨c, hc, hplain⟩ := hargument t htk htt
    have hleaf : ReadsAs lines [t] [a.plain (settleText s)] :=
      ⟨[c], .leaf hc .nil, by rw [Argument.plainAll, hplain, Argument.plainAll], by simp [htc]⟩
    refine ⟨breaks ++ ([t] ++ inner), offset', b', ?_, hbreaks.append (hleaf.append hinner)⟩
    rw [List.append_assoc, List.append_assoc, hink₁, hink₂, hink₃]
    simp
  | group hgap hi h ihi ih =>
    next place gap inner more xs list =>
    obtain ⟨breaks, offset₁, b₁, hink₁, hbreaks⟩ :=
      ink_gap hgap lines ('(' :: (inner ++ ')' :: (more ++ ')' :: rest))) offset b
    obtain ⟨o, ho, hopen⟩ := ink_paren lexeme_openParen (.inl rfl)
      (inner ++ ')' :: (more ++ ')' :: rest)) offset₁ b₁
    obtain ⟨tokens, offset₂, b₂, hink₂, htokens⟩ :=
      ihi hl.1 (more ++ ')' :: rest) (offset₁ + 1) false
    obtain ⟨c, hc, hclose⟩ := ink_paren lexeme_closeParen (.inr rfl) (more ++ ')' :: rest)
      offset₂ b₂
    obtain ⟨tokens', offset', b', hink₃, hinner⟩ := ih hl.2 rest (offset₂ + 1) false
    refine ⟨breaks ++ (o :: (tokens ++ [c]) ++ tokens'), offset', b', ?_,
      hbreaks.append ((htokens.group ho hc).append hinner)⟩
    simp only [List.append_assoc, List.cons_append, List.nil_append, hink₁, hopen, hink₂, hclose,
      hink₃]

end Listfile
