import Listfile.Proofs.Lossless

/-! The lexical grammar. `Form` says, kind by kind, which texts are tokens in front
of what stands behind them, and whether their terminator is there: quoted
arguments run up to the first quote that is not escaped, brackets up to the
leftmost closing bracket with the same fence, both to the end of the source if
there is none, and the other kinds are runs that cannot be made longer. A token is
cut off the front of a text exactly if it has a form there (`first?_iff_form`), so
that at most one form stands at any place. Only a token at the very end can lack
its terminator, hence a source has at most one report on its tokens
(`scan_follows_forms`). -/

namespace Listfile.Token

/-! ### Forms -/

/-- What may stand between two quotes: characters other than quotes, and backslashes that each take
a character along. `rest` is what stands behind; a backslash that is the last character of the
source stands for itself. -/
inductive Inside (rest : Text) : Text → Prop
  | nil : Inside rest []
  | char {c : Char} {t : Text} (hquote : c ≠ '"') (hescape : c ≠ '\\') (h : Inside rest t) :
      Inside rest (c :: t)
  | pair {c : Char} {t : Text} (h : Inside rest t) : Inside rest ('\\' :: c :: t)
  | lone (hrest : rest = []) : Inside rest ['\\']

/-- A quoted text behind its opening quote, up to and including the first quote that is not
escaped, or to the end of the source. -/
inductive QuotedTail (rest : Text) : Bool → Text → Prop
  | closed {t : Text} (h : Inside ('"' :: rest) t) : QuotedTail rest true (t ++ ['"'])
  | unclosed {t : Text} (hrest : rest = []) (h : Inside rest t) : QuotedTail rest false t

/-- A run of characters that do not end an unquoted argument, of backslashes with the character they
take along, and of quoted sections. Only the last section can lack its closing quote. -/
inductive Word (rest : Text) : Bool → Text → Prop
  | nil : Word rest true []
  | char {c : Char} {t : Text} {closed : Bool} (hquote : c ≠ '"') (hescape : c ≠ '\\')
      (hends : endsUnquoted c = false) (h : Word rest closed t) : Word rest closed (c :: t)
  | pair {c : Char} {t : Text} {closed : Bool} (h : Word rest closed t) :
      Word rest closed ('\\' :: c :: t)
  | lone (hrest : rest = []) : Word rest true ['\\']
  | quoted {s t : Text} {closed : Bool} (hs : QuotedTail (t ++ rest) true s)
      (h : Word rest closed t) : Word rest closed ('"' :: (s ++ t))
  | unclosed {s : Text} (hs : QuotedTail rest false s) : Word rest false ('"' :: s)

/-- A text up to and including the leftmost `stop`, or to the end of the source if there is none. -/
inductive Through (stop rest : Text) : Bool → Text → Prop
  | closed {t : Text}
      (h : ∀ front back, t ++ stop ++ rest = front ++ stop ++ back → t.length ≤ front.length) :
      Through stop rest true (t ++ stop)
  | unclosed {t : Text} (hrest : rest = []) (h : ¬ stop <:+: t) : Through stop rest false t

/-- The texts that are tokens of a kind in front of `rest`. The truth value says whether the
terminator is there; it is false for literals and comments that run into the end of the source. -/
inductive Form (rest : Text) : Kind → Bool → Text → Prop
  | returnAndFeed : Form rest .lineBreak true ['\r', '\n']
  | lineFeed : Form rest .lineBreak true ['\n']
  | carriageReturn (hrest : rest.head? ≠ some '\n') : Form rest .lineBreak true ['\r']
  | space {t : Text} (hne : t ≠ []) (ht : ∀ c ∈ t, isSpace c = true)
      (hrest : ∀ c ∈ rest.head?, isSpace c = false) : Form rest .space true t
  | lineComment {t : Text} (hopen : ∀ n, ¬ opener n <+: t ++ rest)
      (ht : ∀ c ∈ t, isBreak c = false) (hrest : ∀ c ∈ rest.head?, isBreak c = true) :
      Form rest .lineComment true ('#' :: t)
  | bracketComment {n : Nat} {t : Text} {closed : Bool} (h : Through (closer n) rest closed t) :
      Form rest .bracketComment closed ('#' :: (opener n ++ t))
  | openParen : Form rest .openParen true ['(']
  | closeParen : Form rest .closeParen true [')']
  | quoted {t : Text} {closed : Bool} (h : QuotedTail rest closed t) :
      Form rest .quoted closed ('"' :: t)
  | bracket {n : Nat} {t : Text} {closed : Bool} (h : Through (closer n) rest closed t) :
      Form rest .bracket closed (opener n ++ t)
  | unquoted {c : Char} {t : Text} {closed : Bool} (hhash : c ≠ '#') (hquote : c ≠ '"')
      (hopen : ∀ n, ¬ opener n <+: c :: t ++ rest) (h : Word rest closed (c :: t))
      (hrest : ∀ c ∈ rest.head?, endsUnquoted c = true) : Form rest .unquoted closed (c :: t)

/-! ### Quoted texts -/

theorem QuotedTail.char {rest t : Text} {closed : Bool} (h : QuotedTail rest closed t) {c : Char}
    (hquote : c ≠ '"') (hescape : c ≠ '\\') : QuotedTail rest closed (c :: t) := by
  cases h with
  | closed h => exact .closed (h.char hquote hescape)
  | unclosed hrest h => exact .unclosed hrest (h.char hquote hescape)

theorem QuotedTail.pair {rest t : Text} {closed : Bool} (h : QuotedTail rest closed t) (c : Char) :
    QuotedTail rest closed ('\\' :: c :: t) := by
  cases h with
  | closed h => exact .closed h.pair
  | unclosed hrest h => exact .unclosed hrest h.pair

theorem quotedTail_cutQuoted (t : Text) :
    QuotedTail (cutQuoted t).rest (cutQuoted t).closed (cutQuoted t).text := by
  fun_induction cutQuoted t with
  | case1 => exact .unclosed rfl .nil
  | case2 => exact .unclosed rfl (.lone rfl)
  | case3 c t ih => exact ih.pair c
  | case4 t => exact .closed (t := []) .nil
  | case5 c t hlast hescape hc ih => exact ih.char hc (ne_backslash hlast hescape)

/-- What stands inside quotes is read over. -/
theorem cutQuoted_inside {rest t : Text} (h : Inside rest t) :
    ∃ escaped, cutQuoted (t ++ rest) =
      ⟨t ++ (cutQuoted rest).text, (cutQuoted rest).rest, (cutQuoted rest).closed, escaped⟩ := by
  induction h with
  | nil => exact ⟨_, rfl⟩
  | char hquote hescape _ ih =>
    obtain ⟨escaped, heq⟩ := ih
    exact ⟨escaped, by rw [List.cons_append, cutQuoted_cons hescape, if_neg hquote, heq]; rfl⟩
  | pair _ ih =>
    obtain ⟨escaped, heq⟩ := ih
    exact ⟨true, by simp only [List.cons_append, cutQuoted, heq, Cut.pushEscape]⟩
  | lone hrest =>
    subst hrest
    exact ⟨true, rfl⟩

theorem cutQuoted_of_quotedTail {rest t : Text} {closed : Bool} (h : QuotedTail rest closed t) :
    ∃ escaped, cutQuoted (t ++ rest) = ⟨t, rest, closed, escaped⟩ := by
  cases h with
  | closed h => simpa [cutQuoted] using cutQuoted_inside h
  | unclosed hrest h =>
    subst hrest
    simpa [cutQuoted] using cutQuoted_inside h

/-- What stands in front of a closing quote leaves that quote unescaped, and no other. -/
theorem Inside.quotesEscaped {rest t : Text} (h : Inside ('"' :: rest) t) : QuotesEscaped t := by
  obtain ⟨escaped, hcut⟩ := cutQuoted_of_quotedTail (.closed h)
  obtain ⟨body, htext, hescaped⟩ := cutQuoted_text_of_closed (congrArg Cut.closed hcut)
  obtain rfl : t = body := List.append_cancel_right ((congrArg Cut.text hcut).symm.trans htext)
  exact hescaped

/-! ### Unquoted texts -/

/-- The last section of a run that is not yet closed, with one character more in front. -/
theorem Word.quote_char {rest t : Text} {closed : Bool} (h : Word rest closed ('"' :: t)) {c : Char}
    (hquote : c ≠ '"') (hescape : c ≠ '\\') : Word rest closed ('"' :: c :: t) := by
  cases h with
  | char hq => contradiction
  | quoted hs ht => exact .quoted (hs.char hquote hescape) ht
  | unclosed hs => exact .unclosed (hs.char hquote hescape)

theorem Word.quote_pair {rest t : Text} {closed : Bool} (h : Word rest closed ('"' :: t))
    (c : Char) : Word rest closed ('"' :: '\\' :: c :: t) := by
  cases h with
  | char hq => contradiction
  | quoted hs ht => exact .quoted (hs.pair c) ht
  | unclosed hs => exact .unclosed (hs.pair c)

/-- Inside of a section the run begins with the quote that opens it. -/
theorem word_cutUnquoted (quoting : Bool) (t : Text) :
    Word (cutUnquoted quoting t).rest (cutUnquoted quoting t).closed
      ((if quoting then ['"'] else []) ++ (cutUnquoted quoting t).text) := by
  fun_induction cutUnquoted quoting t with
  | case1 quoting =>
    cases quoting
    · exact .nil
    · exact .unclosed (.unclosed rfl .nil)
  | case2 quoting =>
    cases quoting
    · exact .lone rfl
    · exact .unclosed (.unclosed rfl (.lone rfl))
  | case3 quoting c t ih =>
    cases quoting
    · exact .pair ih
    · exact ih.quote_pair c
  | case4 quoting t hlast hescape ih =>
    cases quoting
    · exact ih
    · exact .quoted (s := ['"']) (.closed (t := []) .nil) ih
  | case5 quoting c t hlast hescape hc hstop =>
    obtain ⟨rfl, -⟩ : quoting = false ∧ endsUnquoted c = true := by simpa using hstop
    exact .nil
  | case6 quoting c t hlast hescape hc hstop ih =>
    have hb := ne_backslash hlast hescape
    cases quoting
    · exact .char hc hb (by simpa using hstop) ih
    · exact ih.quote_char hc hb

theorem endsUnquoted_cutUnquoted (quoting : Bool) (t : Text) :
    ∀ c ∈ (cutUnquoted quoting t).rest.head?, endsUnquoted c = true := by
  fun_induction cutUnquoted quoting t with
  | case1 => simp
  | case2 => simp
  | case3 _ _ _ ih => exact ih
  | case4 _ _ _ _ ih => exact ih
  | case5 quoting c t _ _ _ hstop =>
    have hends : quoting = false ∧ endsUnquoted c = true := by simpa using hstop
    simpa using hends.2
  | case6 _ _ _ _ _ _ _ ih => exact ih

theorem cutUnquoted_inside {rest t : Text} (h : Inside rest t) :
    ∃ escaped, cutUnquoted true (t ++ rest) =
      ⟨t ++ (cutUnquoted true rest).text, (cutUnquoted true rest).rest,
        (cutUnquoted true rest).closed, escaped⟩ := by
  induction h with
  | nil => exact ⟨_, rfl⟩
  | char hquote hescape _ ih =>
    obtain ⟨escaped, heq⟩ := ih
    exact ⟨escaped, by simp [cutUnquoted_cons hescape, hquote, heq, Cut.push]⟩
  | pair _ ih =>
    obtain ⟨escaped, heq⟩ := ih
    exact ⟨true, by simp only [List.cons_append, cutUnquoted, heq, Cut.pushEscape]⟩
  | lone hrest =>
    subst hrest
    exact ⟨true, rfl⟩

/-- A section with its quotes is read over. -/
theorem cutUnquoted_quotedTail {rest t : Text} (h : QuotedTail rest true t) :
    ∃ escaped, cutUnquoted true (t ++ rest) =
      ⟨t ++ (cutUnquoted false rest).text, (cutUnquoted false rest).rest,
        (cutUnquoted false rest).closed, escaped⟩ := by
  cases h with
  | closed h =>
    obtain ⟨escaped, heq⟩ := cutUnquoted_inside h
    rw [cutUnquoted_cons (by decide), if_pos rfl] at heq
    exact ⟨escaped, by simpa [Cut.push] using heq⟩

theorem cutUnquoted_of_word {rest t : Text} {closed : Bool} (h : Word rest closed t)
    (hrest : ∀ c ∈ rest.head?, endsUnquoted c = true) :
    ∃ escaped, cutUnquoted false (t ++ rest) = ⟨t, rest, closed, escaped⟩ := by
  induction h with
  | nil => exact ⟨false, cutUnquoted_of_ends hrest⟩
  | char hquote hescape hends _ ih =>
    obtain ⟨escaped, heq⟩ := ih
    exact ⟨escaped, by simp [cutUnquoted_cons hescape, hquote, hends, heq, Cut.push]⟩
  | pair _ ih =>
    obtain ⟨escaped, heq⟩ := ih
    exact ⟨true, by simp only [List.cons_append, cutUnquoted, heq, Cut.pushEscape]⟩
  | lone hnil =>
    subst hnil
    exact ⟨true, rfl⟩
  | quoted hs _ ih =>
    obtain ⟨escaped, heq⟩ := ih
    obtain ⟨escaped', heq'⟩ := cutUnquoted_quotedTail hs
    refine ⟨escaped', ?_⟩
    rw [List.cons_append, List.append_assoc, cutUnquoted_cons (by decide), if_pos rfl,
      Bool.not_false, heq', heq]
    rfl
  | unclosed hs =>
    cases hs with
    | unclosed hnil h =>
      subst hnil
      obtain ⟨escaped, heq⟩ := cutUnquoted_inside h
      refine ⟨escaped, ?_⟩
      rw [List.cons_append, cutUnquoted_cons (by decide), if_pos rfl, Bool.not_false, heq]
      simp [cutUnquoted, Cut.push]

/-! ### Brackets -/

theorem Through.cons {stop rest t : Text} {closed : Bool} (h : Through stop rest closed t)
    {c : Char} (hc : ¬ stop <+: c :: (t ++ rest)) : Through stop rest closed (c :: t) := by
  cases h with
  | @closed t h =>
    refine .closed (t := c :: t) fun front back heq => ?_
    cases front with
    | nil => exact absurd ⟨back, by simpa using heq.symm⟩ hc
    | cons d front => exact Nat.succ_le_succ (h front back (List.cons.inj heq).2)
  | unclosed hrest h =>
    refine .unclosed hrest fun hin => ?_
    rcases List.infix_cons_iff.mp hin with hp | hin
    · exact hc (by simpa [hrest] using hp)
    · exact h hin

theorem through_cutThrough {stop : Text} (hstop : stop ≠ []) (t : Text) :
    Through stop (cutThrough stop t).rest (cutThrough stop t).closed (cutThrough stop t).text := by
  induction t with
  | nil => exact .unclosed rfl (by simpa [cutThrough] using hstop)
  | cons c t ih =>
    unfold cutThrough
    split
    · exact .closed (t := []) fun _ _ _ => Nat.zero_le _
    · next hp =>
      refine ih.cons ?_
      rwa [cutThrough_text_append_rest, ← List.isPrefixOf_iff_prefix]

theorem cutThrough_cons_of_not {stop t : Text} {c : Char} (h : ¬ stop <+: c :: t) :
    cutThrough stop (c :: t) = (cutThrough stop t).push c := by
  rw [cutThrough, if_neg (by rwa [List.isPrefixOf_iff_prefix])]

theorem cutThrough_append_left {stop : Text} (hstop : stop ≠ []) (rest : Text) :
    cutThrough stop (stop ++ rest) = ⟨stop, rest, true, false⟩ := by
  obtain ⟨c, t, rfl⟩ := List.exists_cons_of_ne_nil hstop
  simp [cutThrough, List.isPrefixOf_iff_prefix]

theorem cutThrough_of_through {stop rest t : Text} {closed : Bool} (hstop : stop ≠ [])
    (h : Through stop rest closed t) :
    ∃ escaped, cutThrough stop (t ++ rest) = ⟨t, rest, closed, escaped⟩ := by
  cases h with
  | @closed t h =>
    induction t with
    | nil => exact ⟨false, cutThrough_append_left hstop rest⟩
    | cons c t ih =>
      obtain ⟨escaped, heq⟩ := ih fun front back hfront =>
        Nat.le_of_succ_le_succ (h (c :: front) back (congrArg (c :: ·) hfront))
      have hnot : ¬ stop <+: c :: (t ++ stop ++ rest) := by
        rintro ⟨back, hback⟩
        exact absurd (h [] back hback.symm) (by simp)
      exact ⟨escaped, by
        rw [List.cons_append, List.cons_append, cutThrough_cons_of_not hnot, heq]; rfl⟩
  | unclosed hrest h =>
    subst hrest
    rw [List.append_nil]
    induction t with
    | nil => exact ⟨false, rfl⟩
    | cons c t ih =>
      rw [List.infix_cons_iff, not_or] at h
      obtain ⟨escaped, heq⟩ := ih h.2
      exact ⟨escaped, by rw [cutThrough_cons_of_not h.1, heq]; rfl⟩

theorem closer_ne_nil (n : Nat) : closer n ≠ [] := by simp [closer]

/-! ### One token -/

theorem fence?_eq_none_iff (t : Text) : fence? t = none ↔ ∀ n, ¬ opener n <+: t := by
  simp only [Option.eq_none_iff_forall_ne_some, ne_eq, fence?_eq_some_iff]

theorem form_cutBreak {c : Char} (hc : isBreak c = true) (t : Text) :
    Form (cutBreak c t).rest .lineBreak (cutBreak c t).closed (cutBreak c t).text := by
  have hor : c = '\r' ∨ c = '\n' := by simpa [isBreak] using hc
  unfold cutBreak
  split
  · split
    · exact .returnAndFeed
    · next hr =>
      rcases hor with rfl | rfl
      · contradiction
      · exact .lineFeed
  · next hfeed =>
    rcases hor with rfl | rfl
    · refine .carriageReturn fun hhead => ?_
      obtain ⟨u, hu⟩ := List.head?_eq_some_iff.mp hhead
      exact hfeed u hu
    · exact .lineFeed

theorem head_dropWhile (p : Char → Bool) (t : Text) :
    ∀ c ∈ (t.dropWhile p).head?, p c = false := by
  intro c hc
  have hstop := List.head?_dropWhile_not p t
  rw [Option.mem_def] at hc
  simpa [hc] using hstop

theorem form_space {c : Char} (hc : isSpace c = true) (t : Text) :
    Form (t.dropWhile isSpace) .space true (c :: t.takeWhile isSpace) :=
  .space (by simp) (List.forall_mem_cons.mpr ⟨hc, fun _ hd => List.mem_takeWhile_imp hd⟩)
    (head_dropWhile isSpace t)

theorem form_lineComment {t : Text} (h : fence? t = none) :
    Form (t.dropWhile fun c => !isBreak c) .lineComment true
      ('#' :: t.takeWhile fun c => !isBreak c) := by
  refine .lineComment ?_ (fun c hc => ?_) fun c hc => ?_
  · rw [List.takeWhile_append_dropWhile]
    exact (fence?_eq_none_iff t).mp h
  · simpa using List.mem_takeWhile_imp hc
  · simpa using head_dropWhile _ t c hc

theorem form_unquoted {c : Char} {t : Text} (hc : startsWord c = true)
    (h : fence? (c :: t) = none) :
    Form (cutUnquoted false (c :: t)).rest .unquoted (cutUnquoted false (c :: t)).closed
      (cutUnquoted false (c :: t)).text := by
  have hword := word_cutUnquoted false (c :: t)
  have hall := cutUnquoted_text_append_rest false (c :: t)
  have hends := endsUnquoted_cutUnquoted false (c :: t)
  simp only [startsWord, Bool.and_eq_true, Bool.not_eq_true', decide_eq_true_eq] at hc
  obtain ⟨d, u, htext⟩ := List.exists_cons_of_ne_nil (cutUnquoted_text_ne_nil t hc.1.1)
  rw [htext] at hword hall ⊢
  obtain ⟨rfl, -⟩ := List.cons.inj hall
  exact .unquoted hc.1.2 hc.2 (by rwa [hall, ← fence?_eq_none_iff]) hword hends

/-- A token has the form of its kind. -/
theorem form_of_cut {c : Char} {t : Text} {kind : Kind} {k : Cut} (h : cut c t = (kind, k)) :
    Form k.rest kind k.closed k.text := by
  unfold cut at h
  split at h
  · next hb =>
    obtain ⟨rfl, rfl⟩ := Prod.mk.inj h
    exact form_cutBreak hb t
  next hb =>
  split at h
  · next hs =>
    obtain ⟨rfl, rfl⟩ := Prod.mk.inj h
    exact form_space hs t
  next hs =>
  split at h
  · next hc =>
    subst hc
    split at h
    · next n hfence =>
      obtain ⟨u, rfl⟩ := (fence?_eq_some_iff t n).mp hfence
      rw [cutBracket_opener_append] at h
      obtain ⟨rfl, rfl⟩ := Prod.mk.inj h
      exact .bracketComment (through_cutThrough (closer_ne_nil n) u)
    · next hfence =>
      obtain ⟨rfl, rfl⟩ := Prod.mk.inj h
      exact form_lineComment hfence
  next hhash =>
  split at h
  · next hc =>
    obtain ⟨rfl, rfl⟩ := Prod.mk.inj h
    exact hc ▸ .openParen
  next hopen =>
  split at h
  · next hc =>
    obtain ⟨rfl, rfl⟩ := Prod.mk.inj h
    exact hc ▸ .closeParen
  next hclose =>
  split at h
  · next hc =>
    obtain ⟨rfl, rfl⟩ := Prod.mk.inj h
    exact hc ▸ .quoted (quotedTail_cutQuoted t)
  next hquote =>
  split at h
  · next n hfence =>
    obtain ⟨u, hu⟩ := (fence?_eq_some_iff _ n).mp hfence
    rw [← hu, cutBracket_opener_append] at h
    obtain ⟨rfl, rfl⟩ := Prod.mk.inj h
    exact .bracket (through_cutThrough (closer_ne_nil n) u)
  · next hfence =>
    obtain ⟨rfl, rfl⟩ := Prod.mk.inj h
    exact form_unquoted (by simp_all [startsWord, endsUnquoted]) hfence

theorem cut_lineFeed (t : Text) : cut '\n' t = (.lineBreak, ⟨['\n'], t, true, false⟩) := by
  have hbreak : cutBreak '\n' t = ⟨['\n'], t, true, false⟩ := by
    unfold cutBreak
    split <;> rfl
  simp [cut, isBreak, hbreak]

theorem cut_carriageReturn {t : Text} (h : t.head? ≠ some '\n') :
    cut '\r' t = (.lineBreak, ⟨['\r'], t, true, false⟩) := by
  have hbreak : cutBreak '\r' t = ⟨['\r'], t, true, false⟩ := by
    unfold cutBreak
    split
    · simp at h
    · rfl
  simp [cut, isBreak, hbreak]

/-- A run of characters of a class, up to something that is not of the class. -/
theorem run_append {p : Char → Bool} {t rest : Text} (ht : ∀ c ∈ t, p c = true)
    (hrest : ∀ c ∈ rest.head?, p c = false) : Cut.run p (t ++ rest) = ⟨t, rest, true, false⟩ := by
  have hstop : rest.takeWhile p = [] ∧ rest.dropWhile p = rest := by
    cases rest with
    | nil => simp
    | cons c rest => simp [hrest c rfl]
  simp [Cut.run, List.takeWhile_append_of_pos ht, List.dropWhile_append_of_pos ht, hstop]

/-- A form is cut off the front of a text. -/
theorem first?_of_form {rest text : Text} {kind : Kind} {closed : Bool}
    (h : Form rest kind closed text) :
    ∃ escaped, first? (text ++ rest) = some (kind, ⟨text, rest, closed, escaped⟩) := by
  cases h with
  | returnAndFeed => exact ⟨false, rfl⟩
  | lineFeed => exact ⟨false, congrArg some (cut_lineFeed rest)⟩
  | carriageReturn hrest => exact ⟨false, congrArg some (cut_carriageReturn hrest)⟩
  | space hne ht hrest =>
    obtain ⟨c, t, rfl⟩ := List.exists_cons_of_ne_nil hne
    obtain ⟨hc, ht⟩ := List.forall_mem_cons.mp ht
    have hb : isBreak c = false := by
      have hor : c = ' ' ∨ c = '\t' := by simpa [isSpace] using hc
      rcases hor with rfl | rfl <;> rfl
    exact ⟨false, by simp [first?, cut, hb, hc, run_append ht hrest, Cut.push]⟩
  | @lineComment t hopen ht hrest =>
    have hrun : Cut.run (fun c => !isBreak c) (t ++ rest) = ⟨t, rest, true, false⟩ :=
      run_append (fun c hc => by simp [ht c hc]) fun c hc => by simp [hrest c hc]
    refine ⟨false, ?_⟩
    simp only [first?, List.cons_append, cut_hash, (fence?_eq_none_iff _).mpr hopen, hrun, Cut.push]
  | @bracketComment n t _ h =>
    obtain ⟨escaped, heq⟩ := cutThrough_of_through (closer_ne_nil n) h
    refine ⟨escaped, ?_⟩
    simp only [first?, List.cons_append, List.append_assoc, cut_hash, fence?_opener_append,
      cutBracket_opener_append, heq, Cut.push]
  | openParen => exact ⟨false, rfl⟩
  | closeParen => exact ⟨false, rfl⟩
  | quoted h =>
    obtain ⟨escaped, heq⟩ := cutQuoted_of_quotedTail h
    exact ⟨escaped, by simp [first?, cut, isBreak, isSpace, heq, Cut.push]⟩
  | @bracket n t _ h =>
    obtain ⟨escaped, heq⟩ := cutThrough_of_through (closer_ne_nil n) h
    refine ⟨escaped, ?_⟩
    rw [List.append_assoc, first?_of_fence (fence?_opener_append n _), cutBracket_opener_append,
      heq]
  | @unquoted c t _ hhash hquote hopen h hrest =>
    obtain ⟨escaped, heq⟩ := cutUnquoted_of_word h hrest
    have hends : endsUnquoted c = false := by
      cases h with
      | char _ _ hends _ => exact hends
      | pair _ => rfl
      | lone _ => rfl
      | quoted _ _ => contradiction
      | unclosed _ => contradiction
    have hstart : startsWord c = true := by simp [startsWord, hends, hhash, hquote]
    refine ⟨escaped, ?_⟩
    rw [List.cons_append] at heq hopen ⊢
    simp only [first?, cut_word hstart, (fence?_eq_none_iff _).mpr hopen, heq]

/-- The scanner cuts a token off the front of a text exactly where it has a form. -/
theorem first?_iff_form {rest text : Text} {kind : Kind} {closed : Bool} :
    (∃ escaped, first? (text ++ rest) = some (kind, ⟨text, rest, closed, escaped⟩)) ↔
      Form rest kind closed text := by
  constructor
  · rintro ⟨escaped, h⟩
    cases hall : text ++ rest with
    | nil => simp [hall, first?] at h
    | cons c t =>
      rw [hall] at h
      exact form_of_cut (Option.some.inj h)
  · exact first?_of_form

/-- A form at the front of a text is what is cut off there. -/
theorem Form.exists_cut {rest text : Text} {kind : Kind} {closed : Bool}
    (h : Form rest kind closed text) :
    ∃ c t escaped, text ++ rest = c :: t ∧ cut c t = (kind, ⟨text, rest, closed, escaped⟩) := by
  obtain ⟨escaped, hfirst⟩ := first?_of_form h
  cases hall : text ++ rest with
  | nil => simp [hall, first?] at hfirst
  | cons c t =>
    rw [hall] at hfirst
    exact ⟨c, t, escaped, rfl, Option.some.inj hfirst⟩

/-- At most one form stands at the front of a text. -/
theorem Form.unique {rest rest' text text' : Text} {kind kind' : Kind} {closed closed' : Bool}
    (h : Form rest kind closed text) (h' : Form rest' kind' closed' text')
    (heq : text ++ rest = text' ++ rest') : kind = kind' ∧ text = text' ∧ closed = closed' := by
  obtain ⟨escaped, hfirst⟩ := first?_iff_form.mpr h
  obtain ⟨escaped', hfirst'⟩ := first?_iff_form.mpr h'
  rw [heq, hfirst'] at hfirst
  obtain ⟨rfl, hcut⟩ := Prod.mk.inj (Option.some.inj hfirst)
  obtain ⟨rfl, -, rfl, -⟩ := Cut.mk.inj hcut
  exact ⟨rfl, rfl, rfl⟩

/-! ### All tokens of a source -/

/-- What is reported about a token of a kind that lacks its terminator. -/
def unclosedCode : Kind → Diagnostic.Code
  | .bracket | .bracketComment => .unterminatedBracket
  | _ => .unterminatedQuoted

theorem QuotedTail.rest_eq_nil {rest t : Text} (h : QuotedTail rest false t) : rest = [] := by
  cases h with
  | unclosed hrest _ => exact hrest

theorem Through.rest_eq_nil {stop rest t : Text} (h : Through stop rest false t) : rest = [] := by
  cases h with
  | unclosed hrest _ => exact hrest

theorem Word.rest_eq_nil {rest t : Text} {closed : Bool} (h : Word rest closed t)
    (hclosed : closed = false) : rest = [] := by
  induction h with
  | nil => contradiction
  | char _ _ _ _ ih => exact ih hclosed
  | pair _ ih => exact ih hclosed
  | lone => contradiction
  | quoted _ _ ih => exact ih hclosed
  | unclosed hs => exact hs.rest_eq_nil

/-- Only at the end of the source can a terminator be missing. -/
theorem Form.rest_eq_nil {rest text : Text} {kind : Kind} (h : Form rest kind false text) :
    rest = [] := by
  cases h with
  | bracketComment h => exact h.rest_eq_nil
  | bracket h => exact h.rest_eq_nil
  | quoted h => exact h.rest_eq_nil
  | unquoted _ _ _ h _ => exact h.rest_eq_nil rfl

theorem fault?_of_form {rest : Text} {t : Token} (h : Form rest t.kind t.closed t.text) :
    t.fault? = if t.closed then none else some (.ofCode (unclosedCode t.kind) t.span) := by
  obtain ⟨kind, text, span, startsLine, escaped, closed⟩ := t
  cases closed with
  | true => rfl
  | false => cases h <;> rfl

namespace Reader

theorem form_next {r : Reader} (h : r.ahead ≠ []) :
    Form r.next.2.ahead r.next.1.kind r.next.1.closed r.next.1.text := by
  obtain ⟨c, t, hr⟩ := List.exists_cons_of_ne_nil h
  rw [next_of_cons hr]
  exact form_of_cut rfl

theorem next_of_fault {r : Reader} (h : r.ahead ≠ []) (hf : r.next.1.fault? ≠ none) :
    r.next.2.ahead = [] := by
  have hform := form_next h
  rw [fault?_of_form hform] at hf
  cases hclosed : r.next.1.closed with
  | true => simp [hclosed] at hf
  | false => exact (hclosed ▸ hform).rest_eq_nil

/-- The tokens before the end of the file. -/
def body (r : Reader) : List Token := r.tokens.filter (·.kind ≠ .endOfFile)

theorem body_of_nil {r : Reader} (h : r.ahead = []) : r.body = [] := by
  rw [body, tokens_of_nil h]
  rfl

theorem body_of_ne_nil {r : Reader} (h : r.ahead ≠ []) :
    r.body = r.next.1 :: r.next.2.body := by
  have hkind := mt (next_kind_eq_endOfFile_iff r).mp h
  rw [body, tokens_of_ne_nil h, List.filter_cons_of_pos (by simpa using hkind)]
  rfl

/-- The only report is the one on the last token before the end of the file. -/
theorem faults_tokens (r : Reader) :
    faults r.tokens = (r.body.getLast?.bind fault?).toList := by
  fun_induction tokens r with
  | case1 r hr =>
    rw [body_of_nil hr, next_of_nil hr]
    rfl
  | case2 r hr ih =>
    have hcons : faults (r.next.1 :: r.next.2.tokens) =
        r.next.1.fault?.toList ++ faults r.next.2.tokens := by
      cases h : r.next.1.fault? <;> simp [faults, h]
    rw [hcons, ih, body_of_ne_nil hr]
    by_cases hnext : r.next.2.ahead = []
    · simp [body_of_nil hnext]
    · -- something follows, so that the token has its terminator
      have hnone : r.next.1.fault? = none := by
        by_contra hf
        exact hnext (next_of_fault hr hf)
      rw [hnone, body_of_ne_nil hnext, List.getLast?_cons_cons]
      rfl

end Reader

/-- Every token before the end of the file has the form of its kind where it stands, and no other
form stands there. At most one token is reported: the last one, if its form lacks the terminator. -/
theorem scan_follows_forms (source : Text) :
    (∀ t ∈ scan source, t.kind ≠ .endOfFile →
      ∃ closed, Form (source.drop t.span.stop) t.kind closed (t.span.slice source) ∧
        ∀ kind closed' text rest, source.drop t.span.start = text ++ rest →
          Form rest kind closed' text →
            kind = t.kind ∧ text = t.span.slice source ∧ closed' = closed) ∧
    (faults (scan source)).length ≤ 1 ∧
    ∀ d, d ∈ faults (scan source) ↔
      ∃ t, ((scan source).filter (·.kind ≠ .endOfFile)).getLast? = some t ∧
        Form (source.drop t.span.stop) t.kind false (t.span.slice source) ∧
        d = .ofCode (unclosedCode t.kind) t.span := by
  have hstart := Reader.within_start source
  have hforms : ∀ t ∈ scan source, t.kind ≠ .endOfFile →
      Form (source.drop t.span.stop) t.kind t.closed (t.span.slice source) := by
    intro t ht hkind
    obtain ⟨r, hr, rfl⟩ := hstart.exists_reader ht
    rw [hr.drop_stop, hr.slice_next]
    exact Reader.form_next (mt (Reader.next_kind_eq_endOfFile_iff r).mpr hkind)
  have hfaults : faults (scan source) =
      (((scan source).filter (·.kind ≠ .endOfFile)).getLast?.bind fault?).toList :=
    Reader.faults_tokens (.start source)
  refine ⟨fun t ht hkind => ⟨t.closed, hforms t ht hkind, ?_⟩, ?_, fun d => ?_⟩
  · intro kind closed' text rest heq hform
    rw [← t.span.slice_append_drop] at heq
    obtain ⟨hk, htext, hc⟩ := hform.unique (hforms t ht hkind) heq.symm
    exact ⟨hk, htext, hc⟩
  · rw [hfaults]
    exact Option.length_toList_le
  · rw [hfaults, Option.mem_toList, Option.bind_eq_some_iff]
    refine exists_congr fun t => and_congr_right fun hlast => ?_
    obtain ⟨ht, hkind⟩ := List.mem_filter.mp (List.mem_of_getLast? hlast)
    have hform := hforms t ht (by simpa using hkind)
    rw [fault?_of_form (slice_of_mem_scan ht ▸ hform)]
    cases hclosed : t.closed with
    | true =>
      rw [hclosed] at hform
      have hnot : ¬ Form (source.drop t.span.stop) t.kind false (t.span.slice source) :=
        fun hopen => absurd (hform.unique hopen rfl).2.2 (by decide)
      simp [hnot]
    | false =>
      rw [hclosed] at hform
      simp [hform, eq_comm]

end Listfile.Token
